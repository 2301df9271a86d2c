import Mathlib.Logic.Relation
import SecdLisp.Environment
import SecdLisp.Proofs.Contract
import SecdLisp.Proofs.Graph

/-!
# What happens to a heap

Whatever is done to a heap is made of three changes: a cell is added that refers to older cells,
the car of a cell is replaced, or a cell whose cdr is nil gets a new last cell behind it. Work
keeps this contract if all it does is make such changes.
-/

namespace SecdLisp

namespace Value

def Within (cells names : Nat) : Value → Prop
  | .pair a => a < cells
  | .ident name => name < names
  | _ => True

theorem Within.mono {cells cells' names names' : Nat} {v : Value} (known : v.Within cells names)
    (more : cells ≤ cells') (moreNames : names ≤ names') : v.Within cells' names' := by
  cases v with
  | pair a => exact Nat.lt_of_lt_of_le known more
  | ident name => exact Nat.lt_of_lt_of_le known moreNames
  | _ => trivial

end Value

structure Registers.Within (cells names : Nat) (r : Registers) : Prop where
  stack : r.stack.Within cells names
  env : r.env.Within cells names
  code : r.code.Within cells names
  dump : r.dump.Within cells names

def Error.Within (cells names : Nat) (e : Error) : Prop :=
  ∀ r, e.registers? = some r → r.Within cells names

theorem Error.within_of_none {cells names : Nat} {e : Error} (none : e.registers? = none) :
    e.Within cells names := by
  intro r carried
  rw [none] at carried
  cases carried

theorem Error.within_fault {cells names : Nat} (f : Fault) : (Error.fault f).Within cells names := by
  intro r carried
  cases carried
  exact ⟨trivial, trivial, trivial, trivial⟩

namespace Heap

/-- A value that the heap can hold. -/
abbrev Knows (names : Nat) (h : Heap) (v : Value) : Prop := v.Within h.size names

theorem knows_nil (names : Nat) (h : Heap) : h.Knows names .nil := trivial

/-- No cell leads out of the heap or of the table of names. -/
def Sound (names : Nat) (h : Heap) : Prop :=
  ∀ a, h.Knows names (h.car a) ∧ h.Knows names (h.cdr a)

theorem Sound.mono {names names' : Nat} {h : Heap} (sound : h.Sound names) (more : names ≤ names') :
    h.Sound names' :=
  fun a => ⟨(sound a).1.mono (Nat.le_refl _) more, (sound a).2.mono (Nat.le_refl _) more⟩

/-- One change to a heap. -/
inductive Change (names : Nat) : Heap → Heap → Prop where
  | added {h : Heap} {car cdr : Value} (knownCar : h.Knows names car)
    (knownCdr : h.Knows names cdr) (room : h.size < h.capacity) :
    Change names h (h.grown ⟨car, cdr⟩ room)
  | stored {h : Heap} {a : Addr} {v : Value} (owned : a < h.size) (known : h.Knows names v) :
    Change names h (h.updated a fun c => { c with car := v })
  | lengthened {h : Heap} {a : Addr} (owned : a < h.size) (last : h.cdr a = .nil)
    (room : h.size < h.capacity) : Change names h (h.lengthened a room)

abbrev Changes (names : Nat) : Heap → Heap → Prop := Relation.ReflTransGen (Change names)

variable {names names' : Nat} {h h' : Heap} {a : Addr} {v : Value}

theorem Change.size_le (change : Change names h h') : h.size ≤ h'.size := by
  cases change <;> simp

theorem Change.mono (change : Change names h h') (more : names ≤ names') :
    Change names' h h' := by
  cases change with
  | added knownCar knownCdr room =>
    exact .added (knownCar.mono (Nat.le_refl _) more) (knownCdr.mono (Nat.le_refl _) more) room
  | stored owned known => exact .stored owned (known.mono (Nat.le_refl _) more)
  | lengthened owned last room => exact .lengthened owned last room

theorem Change.sound (change : Change names h h') (sound : h.Sound names) : h'.Sound names := by
  have later {v : Value} (known : h.Knows names v) : h'.Knows names v :=
    known.mono change.size_le (Nat.le_refl _)
  intro b
  rw [car, cdr]
  cases change with
  | added knownCar knownCdr room =>
    rw [cell_grown]
    split
    · exact ⟨later knownCar, later knownCdr⟩
    · exact ⟨later (sound b).1, later (sound b).2⟩
  | @stored a v owned known =>
    rw [cell_updated]
    split
    · exact ⟨later known, later (sound b).2⟩
    · exact ⟨later (sound b).1, later (sound b).2⟩
  | @lengthened a owned last room =>
    rw [cell_lengthened room owned]
    split
    · exact ⟨later (sound a).1, by simp [Knows, Value.Within]⟩
    · exact ⟨later (sound b).1, later (sound b).2⟩

theorem Changes.size_le (changes : Changes names h h') : h.size ≤ h'.size := by
  induction changes with
  | refl => exact Nat.le_refl _
  | tail _ change ih => exact Nat.le_trans ih change.size_le

theorem Changes.mono (changes : Changes names h h') (more : names ≤ names') :
    Changes names' h h' := changes.lift id fun _ _ change => change.mono more

theorem Changes.sound (changes : Changes names h h') (sound : h.Sound names) :
    h'.Sound names := by
  induction changes with
  | refl => exact sound
  | tail _ change ih => exact change.sound ih

theorem Changes.knows (changes : Changes names h h') (known : h.Knows names v) :
    h'.Knows names v := known.mono changes.size_le (Nat.le_refl _)

/-- Work on a heap that is sound only makes changes. -/
def upkeep (names : Nat) : Contract Heap Heap where
  le := Changes names
  holds w h := h = w ∧ w.Sound names
  error w e := e.Within w.size names
  refl _ := .refl
  trans := Relation.ReflTransGen.trans

open Contract

section Keeps

variable {α β : Type} {p : Heap → α → Prop} {q : Heap → β → Prop} {car cdr : Value}

theorem keeps_read {f : Heap → α} (value : h.Sound names → p h (f h)) :
    (upkeep names).Keeps h p (read f) := by
  rintro _ ⟨rfl, sound⟩
  exact ⟨_, .refl, ⟨rfl, sound⟩, value sound⟩

theorem keeps_read_bind {f : Heap → α} {g : α → HeapM β}
    (next : h.Sound names → (upkeep names).Keeps h q (g (f h))) :
    (upkeep names).Keeps h q (read f >>= g) := by
  rintro _ ⟨rfl, sound⟩
  exact next sound _ ⟨rfl, sound⟩

theorem keeps_of_change {x : HeapM α} (ends : h.Sound names →
      Ends x h (fun a h' => Change names h h' ∧ p h' a) fun e h' => h' = h ∧ e.Within h.size names) :
    (upkeep names).Keeps h p x := by
  rintro _ ⟨rfl, sound⟩
  refine (ends sound).mono ?_ ?_
  · rintro a h' ⟨change, value⟩
    exact ⟨h', .single change, ⟨rfl, change.sound sound⟩, value⟩
  · rintro e _ ⟨rfl, error⟩
    exact ⟨_, .refl, ⟨rfl, sound⟩, error⟩

theorem keeps_alloc (knownCar : h.Knows names car) (knownCdr : h.Knows names cdr) :
    (upkeep names).Keeps h (fun h' a => a < h'.size) (alloc car cdr) := by
  refine keeps_of_change fun _ => ends_alloc.mpr ⟨fun room => ?_, fun _ => ⟨rfl, Error.within_of_none rfl⟩⟩
  exact ⟨.added knownCar knownCdr room, by simp⟩

theorem keeps_cons (knownCar : h.Knows names car) (knownCdr : h.Knows names cdr) :
    (upkeep names).Keeps h (Knows names) (cons car cdr) :=
  (keeps_alloc knownCar knownCdr).bind fun _ _ _ owned => keeps_pure owned

theorem keeps_setCar (owned : a < h.size) (known : h.Knows names v) :
    (upkeep names).Keeps h (fun _ _ => True) (setCar a v) :=
  keeps_of_change fun _ => ends_update.mpr ⟨.stored owned known, trivial⟩

theorem keeps_listWithTail {vs : List Value} {tail : Value} (known : ∀ v ∈ vs, h.Knows names v)
    (knownTail : h.Knows names tail) :
    (upkeep names).Keeps h (Knows names) (listWithTail vs tail) :=
  keeps_foldrM (p := Knows names) (r := Knows names) known (fun _ _ => Changes.knows) knownTail
    fun _ _ _ _ => keeps_cons

theorem keeps_list {vs : List Value} (known : ∀ v ∈ vs, h.Knows names v) :
    (upkeep names).Keeps h (Knows names) (list vs) :=
  keeps_listWithTail known (knows_nil names h)

end Keeps

/-- A chain that has come to its end is given one more cell. -/
theorem keeps_extend (owned : a < h.size) :
    (upkeep names).Keeps h (fun h found => ∀ b, found = some b → b < h.size)
      (read (·.cdr a) >>= fun link => follow link (setCdr a)) := by
  refine keeps_read_bind fun sound => ?_
  have known := (sound a).2
  unfold follow
  split
  next b link =>
    rw [link] at known
    exact keeps_pure fun c eq => Option.some.inj eq ▸ known
  next link =>
    refine keeps_of_change fun _ => ends_bind.mpr (ends_alloc.mpr ⟨fun room => ?_, ?_⟩)
    · refine ⟨.lengthened owned link room, fun c eq => ?_⟩
      rw [← Option.some.inj eq]
      exact (size_lengthened room).symm ▸ Nat.lt_succ_self h.size
    · exact fun _ => ⟨rfl, Error.within_of_none rfl⟩
  · exact keeps_pure nofun

end Heap

end SecdLisp
