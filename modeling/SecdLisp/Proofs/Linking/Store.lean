import SecdLisp.Proofs.Graph
import SecdLisp.Proofs.Running

/-!
# Cells that only the compiler refers to

The code that is put together is in cells that nothing else leads to. A macro that runs meanwhile
comes across none of them, so it cannot change what they hold.
-/

namespace SecdLisp

namespace Linking

open Heap Contract

/-- A heap, and the cells in it that only the compiler refers to. -/
structure Store where
  heap : Heap
  sealed : Addr → Prop

namespace Store

/-- A value that leads to no sealed cell. -/
def Open (w : Store) (v : Value) : Prop := ∀ a, v = .pair a → a < w.heap.size ∧ ¬w.sealed a

def OpenCell (w : Store) (c : Cell) : Prop := w.Open c.car ∧ w.Open c.cdr

/-- What is not sealed leads to no sealed cell. -/
structure Apart (w : Store) : Prop where
  owned : ∀ a, w.sealed a → a < w.heap.size
  cells : ∀ a < w.heap.size, ¬w.sealed a → w.OpenCell (w.heap.cell a)

/-- Cells were added, and only cells that are not sealed were changed. -/
structure Le (w w' : Store) : Prop where
  size : w.heap.size ≤ w'.heap.size
  sealed : ∀ a < w.heap.size, w'.sealed a ↔ w.sealed a
  cell : ∀ a < w.heap.size, w.sealed a → w'.heap.cell a = w.heap.cell a

variable {w w' w'' : Store} {a : Addr} {v : Value}

theorem Le.refl (w : Store) : w.Le w :=
  ⟨Nat.le_refl _, fun _ _ => Iff.rfl, fun _ _ _ => rfl⟩

theorem Le.trans (first : w.Le w') (second : w'.Le w'') : w.Le w'' where
  size := Nat.le_trans first.size second.size
  sealed a lt := (second.sealed a (Nat.lt_of_lt_of_le lt first.size)).trans (first.sealed a lt)
  cell a lt sealed :=
    (second.cell a (Nat.lt_of_lt_of_le lt first.size) ((first.sealed a lt).mpr sealed)).trans
      (first.cell a lt sealed)

theorem Open.mono (known : w.Open v) (le : w.Le w') : w'.Open v := by
  intro a eq
  obtain ⟨lt, outside⟩ := known a eq
  exact ⟨Nat.lt_of_lt_of_le lt le.size, fun sealed => outside ((le.sealed a lt).mp sealed)⟩

theorem OpenCell.mono {c : Cell} (known : w.OpenCell c) (le : w.Le w') : w'.OpenCell c :=
  ⟨known.1.mono le, known.2.mono le⟩

theorem open_of_isPair (atom : v.isPair = false) : w.Open v := by
  rintro a rfl
  cases atom

def grown (w : Store) (c : Cell) (seals : Prop) (room : w.heap.size < w.heap.capacity) : Store :=
  ⟨w.heap.grown c room, fun a => w.sealed a ∨ a = w.heap.size ∧ seals⟩

theorem le_grown (w : Store) (c : Cell) (seals : Prop) (room : w.heap.size < w.heap.capacity) :
    w.Le (w.grown c seals room) where
  size := by simp [grown]
  sealed a lt := or_iff_left fun new => Nat.ne_of_lt lt new.1
  cell a lt _ := show (w.heap.grown c room).cell a = w.heap.cell a from cell_grown_of_lt lt

theorem apart_grown (apart : w.Apart) {c : Cell} {seals : Prop} (known : ¬seals → w.OpenCell c)
    (room : w.heap.size < w.heap.capacity) : (w.grown c seals room).Apart := by
  have le := w.le_grown c seals room
  refine ⟨?_, fun a lt outside => ?_⟩
  · rintro a (old | ⟨rfl, _⟩)
    · exact Nat.lt_of_lt_of_le (apart.owned a old) le.size
    · simp [grown]
  · show Store.OpenCell _ ((w.heap.grown c room).cell a)
    rw [cell_grown]
    split
    next new => exact (known fun sealed => outside (.inr ⟨new, sealed⟩)).mono le
    next old =>
      have le : a ≤ w.heap.size := Nat.le_of_lt_succ (lt.trans_eq (size_grown w.heap c room))
      have lt : a < w.heap.size := Nat.lt_of_le_of_ne le old
      exact (apart.cells a lt fun sealed => outside (.inl sealed)).mono (w.le_grown c seals room)

def updated (w : Store) (a : Addr) (f : Cell → Cell) : Store :=
  { w with heap := w.heap.updated a f }

theorem le_updated {f : Cell → Cell} (outside : ¬w.sealed a) : w.Le (w.updated a f) where
  size := by simp [updated]
  sealed _ _ := Iff.rfl
  cell b _ sealed := by
    have ne : b ≠ a := fun eq => outside (eq ▸ sealed)
    exact cell_updated_of_ne ne f

theorem apart_updated (apart : w.Apart) {f : Cell → Cell} (outside : ¬w.sealed a)
    (known : w.OpenCell (f (w.heap.cell a))) : (w.updated a f).Apart := by
  have le := w.le_updated (f := f) outside
  refine ⟨fun b sealed => Nat.lt_of_lt_of_le (apart.owned b sealed) le.size, fun b lt free => ?_⟩
  show Store.OpenCell _ ((w.heap.updated a f).cell b)
  rw [cell_updated]
  split
  next same => exact same.1 ▸ known.mono le
  next => exact (apart.cells b (size_updated w.heap a f ▸ lt) free).mono le

theorem Apart.halves (apart : w.Apart) (known : w.Open (.pair a)) :
    w.OpenCell (w.heap.cell a) := apart.cells a (known a rfl).1 (known a rfl).2

end Store

/-- Work on the heap leaves sealed cells alone. -/
def sealing : Contract Store Heap where
  le := Store.Le
  holds w h := h = w.heap ∧ w.Apart
  error _ _ := True
  refl := Store.Le.refl
  trans := Store.Le.trans

variable {w w' : Store} {a : Addr} {car cdr u v k : Value} {n : Nat}

theorem keeps_alloc (seals : Prop) (known : ¬seals → w.OpenCell ⟨car, cdr⟩) :
    sealing.Keeps w (fun w' a => a < w'.heap.size ∧ (w'.sealed a ↔ seals) ∧
      w'.heap.cell a = ⟨car, cdr⟩) (alloc car cdr) := by
  rintro _ ⟨rfl, apart⟩
  refine ends_alloc.mpr ⟨fun room => ?_, fun _ => ⟨w, .refl w, ⟨rfl, apart⟩, trivial⟩⟩
  refine ⟨w.grown ⟨car, cdr⟩ seals room, w.le_grown _ _ room,
    ⟨rfl, Store.apart_grown apart known room⟩, ?_, ?_, cell_grown_size _ _ room⟩
  · simp [Store.grown]
  · have new : ¬w.sealed w.heap.size := fun sealed => Nat.lt_irrefl _ (apart.owned _ sealed)
    show (w.sealed _ ∨ _ = _ ∧ seals) ↔ seals
    simp [new]

theorem keeps_update {f : Cell → Cell} (known : w.Open (.pair a))
    (cell : w.Apart → w.OpenCell (f (w.heap.cell a))) : sealing.Keeps w (fun _ _ => True)
      (update a f) := by
  rintro _ ⟨rfl, apart⟩
  obtain ⟨_, outside⟩ := known a rfl
  exact ends_update.mpr ⟨w.updated a f, Store.le_updated outside,
    ⟨rfl, Store.apart_updated apart outside (cell apart)⟩, trivial⟩

theorem keeps_openAlloc (knownCar : w.Open car) (knownCdr : w.Open cdr) :
    sealing.Keeps w (fun w a => w.Open (.pair a)) (alloc car cdr) := by
  refine (keeps_alloc False fun _ => ⟨knownCar, knownCdr⟩).mono ?_
  rintro w' a _ ⟨lt, outside, _⟩ b ⟨⟩
  exact ⟨lt, outside.mp⟩

theorem keeps_setCar (known : w.Open (.pair a)) (value : w.Open v) :
    sealing.Keeps w (fun _ _ => True) (setCar a v) :=
  keeps_update known fun apart => ⟨value, (apart.halves known).2⟩

theorem keeps_setCdr (known : w.Open (.pair a)) (value : w.Open v) :
    sealing.Keeps w (fun _ _ => True) (setCdr a v) :=
  keeps_update known fun apart => ⟨(apart.halves known).1, value⟩

theorem takes_running : Machine.Takes sealing Store.Open where
  later le known := known.mono le
  nil _ := Store.open_of_isPair rfl
  truth _ := Store.open_of_isPair rfl
  int _ _ := Store.open_of_isPair rfl
  fault _ _ := trivial
  carried _ _ := trivial
  outOfSteps _ := trivial
  halves holds known := holds.1 ▸ holds.2.halves known
  alloc := keeps_openAlloc
  setCar := keeps_setCar
  extend {w a} known := by
    refine keeps_seen_bind ?_
    rintro _ ⟨rfl, apart⟩
    have next := (apart.halves known).2
    have none : w.Open .nil := Store.open_of_isPair rfl
    unfold follow
    split
    next b link => exact keeps_pure fun c eq => Option.some.inj eq ▸ link ▸ next
    · refine (keeps_openAlloc none none).bind fun w₁ b le fresh => ?_
      refine (keeps_setCdr (known.mono le) fresh).bind fun w₂ _ le' _ => ?_
      exact keeps_pure fun c eq => Option.some.inj eq ▸ fresh.mono le'
    · exact keeps_pure nofun

end Linking

end SecdLisp
