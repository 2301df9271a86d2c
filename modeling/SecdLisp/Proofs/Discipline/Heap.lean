import SecdLisp.Proofs.Addressing
import SecdLisp.Proofs.Contract
import SecdLisp.Proofs.Discipline.World

/-!
# Keeping cells to their roles

Work on the heap keeps each cell to its role. A frame consists of cells of frames only, so an
assignment finds a frame at each depth that the environment has; and since its index is within the
extent of that frame, it never comes to a cell that does not change.
-/

namespace SecdLisp

/-- A fault that correct code may run into, because of the program that it was made of. -/
def Fault.Ordinary : Fault → Prop
  | .unbound _ _ | .notClosure _ | .notInteger _ _ | .overflow _ | .divisionByZero
  | .notPair _ _ => True
  | _ => False

/-- A failure that correct code may run into. -/
def Error.Ordinary : Error → Prop
  | .heapFull => True
  | .runtime f _ => f.Ordinary
  | _ => False

/-- A cell that is passed on the way along a list. -/
inductive Heap.InList (h : Heap) : Value → Addr → Prop where
  | head {a} : InList h (.pair a) a
  | tail {a b} (rest : InList h (h.cdr a) b) : InList h (.pair a) b

theorem Heap.InList.along {h : Heap} {p : Value → Prop} {v : Value} {a : Addr}
    (next : ∀ a, p (.pair a) → p (h.cdr a)) (inside : h.InList v a) (start : p v) : p (.pair a) := by
  induction inside with
  | head => exact start
  | tail _ ih => exact ih (next _ start)

namespace Discipline

open Heap Contract

theorem Extent.behind_zero (k : Extent) : k.behind 0 = k := by
  cases k <;> rfl

theorem Extent.behind_behind (k : Extent) (m n : Nat) :
    (k.behind m).behind n = k.behind (m + n) := by
  cases k with
  | none => rfl
  | some l => exact congrArg some (Nat.sub_sub l m n)

theorem Extent.behind_ne {k : Extent} {n : Nat} (enough : ∀ m ∈ k, n < m) : k.behind n ≠ some 0 := by
  cases k with
  | none => nofun
  | some m =>
    have lt := enough m rfl
    intro eq
    have zero : m - n = 0 := Option.some.inj eq
    omega

theorem Extent.ofDepth_cons (frame : Frame) (scopes : List Frame) (depth : Nat) :
    Extent.ofDepth (frame :: scopes) (depth + 2) = Extent.ofDepth scopes (depth + 1) := by
  simp [Extent.ofDepth]

theorem Extent.ofDepth_nil (depth : Nat) : Extent.ofDepth [] depth = none := by
  simp [Extent.ofDepth]

/-- A later world, in which cells of argument lists are such cells still, or what they may turn
into. -/
structure World.Moves (turns : Addr → Role → Prop) (w w' : World) : Prop where
  le : w.Le w'
  pending : ∀ a < w.heap.size, w.role a = .pending → w'.role a = .pending ∨ turns a (w'.role a)

variable {turns : Addr → Role → Prop}

theorem World.Moves.refl (w : World) : w.Moves turns w := ⟨.refl w, fun _ _ pending => .inl pending⟩

theorem World.Moves.trans {w w' w'' : World} (first : w.Moves turns w')
    (second : w'.Moves turns w'') : w.Moves turns w'' where
  le := first.le.trans second.le
  pending a lt pending := by
    have lt' := Nat.lt_of_lt_of_le lt first.le.size
    by_cases still : w'.role a = .pending
    · exact second.pending a lt' still
    · exact .inr (second.le.role a lt' still ▸ (first.pending a lt pending).resolve_left still)

/-- Work on the heap keeps each cell to its role, and runs into ordinary failures only. -/
def typing (turns : Addr → Role → Prop) : Contract World Heap where
  le := World.Moves turns
  holds w h := h = w.heap ∧ w.Typed
  error _ e := e.Ordinary
  refl := World.Moves.refl
  trans := World.Moves.trans

/-- Nothing may become of the argument lists that are put together. -/
abbrev keeping : Contract World Heap := typing fun _ _ => False

namespace World

variable {w w' : World} {a : Addr} {extent : Extent}

theorem Moves.kept (moves : w.Moves (fun _ _ => False) w') (lt : a < w.heap.size)
    (pending : w.role a = .pending) : w'.role a = .pending :=
  (moves.pending a lt pending).resolve_right id

def grown (w : World) (c : Cell) (role : Role) (room : w.heap.size < w.heap.capacity) : World :=
  ⟨w.heap.grown c room, w.root, fun a => if a = w.heap.size then role else w.role a⟩

theorem moves_grown (w : World) (c : Cell) (role : Role) (room : w.heap.size < w.heap.capacity) :
    w.Moves turns (w.grown c role room) := by
  have old (a : Addr) (lt : a < w.heap.size) : (w.grown c role room).role a = w.role a :=
    if_neg (Nat.ne_of_lt lt)
  have cell (a : Addr) (lt : a < w.heap.size) :
      (w.grown c role room).heap.cell a = w.heap.cell a :=
    show (w.heap.grown c room).cell a = w.heap.cell a from cell_grown_of_lt lt
  refine ⟨⟨by simp [grown], rfl, rfl, fun a lt _ => old a lt, ?_, fun a lt _ => cell a lt⟩, ?_⟩
  · exact fun a lt _ _ => congrArg Cell.cdr (cell a lt)
  · exact fun a lt pending => .inl ((old a lt).trans pending)

def updated (w : World) (a : Addr) (f : Cell → Cell) : World :=
  { w with heap := w.heap.updated a f }

/-- A cell of a frame that can be assigned, or a cell of an environment whose link stays. -/
def Loose (w : World) (a : Addr) (f : Cell → Cell) : Prop :=
  (∃ k, w.role a = .frame k ∧ k ≠ some 0) ∨
    (∃ k, w.role a = .holder k) ∧ (f (w.heap.cell a)).cdr = w.heap.cdr a

theorem moves_updated {f : Cell → Cell} (loose : w.Loose a f) : w.Moves turns (w.updated a f) := by
  refine ⟨⟨by simp [updated], rfl, rfl, fun _ _ _ => rfl, fun b _ k holder => ?_, fun b _ kept => ?_⟩,
    fun _ _ => .inl⟩
  · show ((w.heap.updated a f).cell b).cdr = w.heap.cdr b
    rw [cell_updated]
    split
    next same =>
      obtain ⟨rfl, _⟩ := same
      rcases loose with ⟨_, frame, _⟩ | ⟨_, kept⟩
      · cases frame.symm.trans holder
      · exact kept
    next => rfl
  · refine cell_updated_of_ne ?_ f
    rintro rfl
    have kept : (w.role b).Kept := kept
    rcases loose with ⟨k, frame, assignable⟩ | ⟨⟨_, holder⟩, _⟩
    · rw [frame] at kept
      rcases kept with fixed | pending
      · match k with
        | some 0 => exact assignable rfl
      · cases pending
    · rw [holder] at kept
      rcases kept with fixed | pending
      · exact fixed
      · cases pending

theorem Typed.later (typed : w.Typed) (le : w.Le w')
    (cells : ∀ a < w'.heap.size, w'.Admits (w'.role a) (w'.heap.cell a)) : w'.Typed := by
  obtain ⟨a, b, root, ⟨lt, role⟩, link, lt', role'⟩ := typed.root
  have kept {a : Addr} (role : w.role a = .holder none) : w.role a ≠ .pending := by
    rw [role]
    nofun
  refine ⟨cells, a, b, le.root.trans root, ⟨Nat.lt_of_lt_of_le lt le.size, ?_⟩, ?_,
    Nat.lt_of_lt_of_le lt' le.size, (le.role b lt' (kept role')).trans role'⟩
  · exact (le.role a lt (kept role)).trans role
  · rw [le.cdr a lt none role, link]

def InFrame (w : World) (a : Addr) (k : Extent) : Prop := a < w.heap.size ∧ w.role a = .frame k

def InEnv (w : World) (a : Addr) (k : Extent) : Prop := a < w.heap.size ∧ w.role a = .holder k

theorem InFrame.mono (inFrame : w.InFrame a extent) (le : w.Le w') : w'.InFrame a extent :=
  ⟨Nat.lt_of_lt_of_le inFrame.1 le.size,
    (le.role a inFrame.1 (by rw [inFrame.2]; nofun)).trans inFrame.2⟩

theorem InEnv.mono (inEnv : w.InEnv a extent) (le : w.Le w') : w'.InEnv a extent :=
  ⟨Nat.lt_of_lt_of_le inEnv.1 le.size, (le.role a inEnv.1 (by rw [inEnv.2]; nofun)).trans inEnv.2⟩

theorem InFrame.framed (inFrame : w.InFrame a extent) : w.Framed extent (.pair a) :=
  .inr ⟨a, rfl, inFrame⟩

theorem Framed.inFrame (framed : w.Framed extent (.pair a)) : w.InFrame a extent := by
  rcases framed with eq | ⟨b, eq, inFrame⟩
  · cases eq
  · cases eq
    exact inFrame

theorem Typed.frame (typed : w.Typed) (inFrame : w.InFrame a extent) :
    w.Visible (w.heap.car a) ∧ w.Framed (extent.behind 1) (w.heap.cdr a) := by
  have cell := typed.cells a inFrame.1
  rw [inFrame.2] at cell
  exact cell

theorem Typed.holder (typed : w.Typed) (inEnv : w.InEnv a extent) :
    w.Framed extent (w.heap.car a) ∧ w.Visible (w.heap.cdr a) := by
  have cell := typed.cells a inEnv.1
  rw [inEnv.2] at cell
  exact cell

theorem Env.frameHolder? (typed : w.Typed) {scopes : List Frame} {depth : Nat} {env : Value}
    (frames : w.Env scopes env) (positive : 0 < depth) (le : depth ≤ scopes.length + 2) :
    ∃ a, w.heap.frameHolder? env depth = some a ∧ w.InEnv a (Extent.ofDepth scopes depth) := by
  induction scopes generalizing env depth with
  | nil =>
    obtain ⟨a, b, root, inEnv, link, inEnv'⟩ := typed.root
    obtain rfl : env = .pair a := frames.trans root
    rw [Extent.ofDepth_nil]
    match depth with
    | 1 => exact ⟨a, rfl, inEnv⟩
    | 2 => exact ⟨b, frameHolder?_next link Nat.one_pos rfl, inEnv'⟩
  | cons frame scopes ih =>
    obtain ⟨a, rfl, lt, role, rest⟩ := frames
    match depth with
    | 1 => exact ⟨a, rfl, lt, role⟩
    | depth + 2 =>
      obtain ⟨b, found, inEnv⟩ := ih rest (Nat.succ_pos depth) (Nat.le_of_succ_le_succ le)
      refine ⟨b, frameHolder?_next rfl (Nat.succ_pos depth) found, ?_⟩
      rw [Extent.ofDepth_cons]
      exact inEnv

theorem InFrame.cellAfter? (typed : w.Typed) {n : Nat} {b : Addr} (inFrame : w.InFrame a extent)
    (found : w.heap.cellAfter? n a = some b) : w.InFrame b (extent.behind n) := by
  induction n generalizing a extent with
  | zero => exact Option.some.inj found ▸ (Extent.behind_zero extent).symm ▸ inFrame
  | succ n ih =>
    have next := (typed.frame inFrame).2
    rw [Heap.cellAfter?] at found
    split at found
    next c link =>
      rw [link] at next
      have rest := ih next.inFrame found
      rwa [Extent.behind_behind, Nat.add_comm] at rest
    next => cases found

theorem Framed.dropCells? (typed : w.Typed) {n : Nat} {u v : Value} (framed : w.Framed extent u)
    (found : w.heap.dropCells? n u = some v) : w.Framed (extent.behind n) v := by
  induction n generalizing u extent with
  | zero =>
    rw [Extent.behind_zero]
    cases u <;> cases found <;> exact framed
  | succ n ih =>
    cases u with
    | pair a =>
      have rest := ih (typed.frame framed.inFrame).2 found
      rwa [Extent.behind_behind, Nat.add_comm] at rest
    | _ => cases found

section Variables

variable {scopes : List Frame} {depth index : Nat} {env v : Value} (typed : w.Typed)
  (frames : w.Env scopes env) (le : depth ≤ scopes.length + 2)

include typed frames le

theorem framed_frameHolder? {holder : Addr} (found : w.heap.frameHolder? env depth = some holder) :
    w.Framed (Extent.ofDepth scopes depth) (w.heap.car holder) := by
  have positive : 0 < depth := by
    refine Nat.pos_of_ne_zero ?_
    rintro rfl
    cases found
  obtain ⟨a, found', inEnv⟩ := Env.frameHolder? typed frames positive le
  obtain rfl : a = holder := Option.some.inj (found'.symm.trans found)
  exact (typed.holder inEnv).1

theorem visible_lookup? (found : w.heap.lookup? env depth index = some v) : w.Visible v := by
  rw [Heap.lookup?] at found
  split at found
  · cases found
  obtain ⟨holder, here, inside⟩ := Option.bind_eq_some_iff.mp found
  obtain ⟨target, there, rfl⟩ := Option.map_eq_some_iff.mp inside
  have framed := framed_frameHolder? typed frames le here
  cases first : w.heap.car holder with
  | pair b =>
    rw [first] at there framed
    exact (typed.frame (InFrame.cellAfter? typed framed.inFrame there)).1
  | _ =>
    rw [first] at there
    cases there

theorem framed_lookupRest? (rest : Extent.ofDepth scopes depth = some (index - 1))
    (found : w.heap.lookupRest? env depth index = some v) : w.Framed (some 0) v := by
  rw [Heap.lookupRest?] at found
  split at found
  · cases found
  obtain ⟨holder, here, inside⟩ := Option.bind_eq_some_iff.mp found
  have behind : (Extent.ofDepth scopes depth).behind (index - 1) = some 0 := by
    rw [rest]
    exact congrArg some (Nat.sub_self _)
  exact behind ▸ Framed.dropCells? typed (framed_frameHolder? typed frames le here) inside

end Variables

/-- An argument list has become a frame of which that many cells can be assigned. -/
structure Turned (w : World) (own : List Addr) (n : Nat) (w' : World) : Prop where
  heap : w'.heap = w.heap
  le : w.Le w'
  typed : w'.Typed
  apart : ∀ a ∉ own, w'.role a = w.role a
  cells : ∀ a ∈ own, ∃ m ≤ n, w'.role a = .frame (some m)

theorem exists_turned (typed : w.Typed) {own : List Addr} {v : Value} (listed : w.Listed own v)
    (nodup : own.Nodup) (n : Nat) : ∃ w', w.Turned own n w' ∧ w'.Framed (some n) v := by
  induction own generalizing n v with
  | nil => exact ⟨w, ⟨rfl, .refl w, typed, fun _ _ => rfl, by simp⟩, .inl listed⟩
  | cons a own ih =>
    obtain ⟨rfl, lt, pending, rest⟩ := listed
    rw [List.nodup_cons] at nodup
    -- The list behind the first cell is turned first: the cell is then put in front of a frame.
    obtain ⟨w₁, turned, framed⟩ := ih rest nodup.2 (n - 1)
    have still : w₁.role a = .pending := (turned.apart a nodup.1).trans pending
    let w₂ : World := { w₁ with role := fun b => if b = a then .frame (some n) else w₁.role b }
    have here : w₂.role a = .frame (some n) := if_pos rfl
    have other (b : Addr) (ne : b ≠ a) : w₂.role b = w₁.role b := if_neg ne
    have le : w₁.Le w₂ := by
      refine ⟨Nat.le_refl _, rfl, rfl, fun b _ kept => other b ?_, fun _ _ _ _ => rfl,
        fun _ _ _ => rfl⟩
      rintro rfl
      exact kept still
    have lt₁ : a < w₁.heap.size := turned.heap ▸ lt
    have typed₂ : w₂.Typed := by
      refine turned.typed.later le fun b lt' => ?_
      by_cases eq : b = a
      · subst eq
        have car : w₁.Visible (w₁.heap.car b) := by
          have cell := turned.typed.cells b lt₁
          rw [still] at cell
          exact cell
        rw [here]
        exact ⟨car.mono le, (turned.heap ▸ framed : w₁.Framed _ (w₁.heap.cdr b)).mono le⟩
      · rw [other b eq]
        exact (turned.typed.cells b lt').mono le
    refine ⟨w₂, ⟨turned.heap, turned.le.trans le, typed₂, fun b out => ?_, fun b mem => ?_⟩, ?_⟩
    · rw [List.mem_cons, not_or] at out
      rw [other b out.1, turned.apart b out.2]
    · by_cases eq : b = a
      · exact ⟨n, Nat.le_refl n, eq ▸ here⟩
      · obtain ⟨m, le', role⟩ := turned.cells b ((List.mem_cons.mp mem).resolve_left eq)
        exact ⟨m, Nat.le_trans le' (Nat.sub_le n 1), (other b eq).trans role⟩
    · exact .inr ⟨a, rfl, lt₁, here⟩

end World

section Keeps

variable {α β : Type} {w w' : World} {p : World → α → Prop} {q : World → β → Prop} {a : Addr}
  {extent : Extent} {scopes : List Frame} {car cdr u v : Value}

/-- What needs nothing to become of argument lists will do where something may. -/
theorem keeps_of_keeping {x : HeapM α} (keeps : keeping.Keeps w p x) :
    (typing turns).Keeps w p x := by
  have later {w' : World} (moves : w.Moves (fun _ _ => False) w') : w.Moves turns w' :=
    ⟨moves.le, fun a lt pending => .inl (moves.kept lt pending)⟩
  intro h holds
  refine (keeps h holds).mono ?_ ?_
  · rintro a h' ⟨w', moves, rest⟩
    exact ⟨w', later moves, rest⟩
  · rintro e h' ⟨w', moves, rest⟩
    exact ⟨w', later moves, rest⟩

theorem keeps_of_turned {x : HeapM α} {own : List Addr} {n : Nat} (turned : w.Turned own n w')
    (may : ∀ a ∈ own, turns a (w'.role a)) (keeps : keeping.Keeps w' p x) :
    (typing turns).Keeps w p x := by
  have moves : w.Moves turns w' := by
    refine ⟨turned.le, fun a _ pending => ?_⟩
    by_cases mem : a ∈ own
    · exact .inr (may a mem)
    · exact .inl ((turned.apart a mem).trans pending)
  have keeps : (typing turns).Keeps w' p x := keeps_of_keeping keeps
  rintro _ ⟨rfl, _⟩
  refine (keeps w.heap ⟨turned.heap.symm, turned.typed⟩).mono ?_ ?_
  · rintro a h' ⟨w'', later, rest⟩
    exact ⟨w'', moves.trans later, rest⟩
  · rintro e h' ⟨w'', later, rest⟩
    exact ⟨w'', moves.trans later, rest⟩

theorem keeps_look_bind {x : HeapM α} {f : α → HeapM β} {b : α}
    (seen : x w.heap = .ok b w.heap) (next : w.Typed → (typing turns).Keeps w q (f b)) :
    (typing turns).Keeps w q (x >>= f) := by
  rintro _ ⟨rfl, typed⟩
  rw [ends_bind, Ends, seen]
  exact next typed _ ⟨rfl, typed⟩

theorem keeps_alloc (role : Role) (admits : w.Typed → w.Admits role ⟨car, cdr⟩) :
    keeping.Keeps w (fun w' a => w.heap.size ≤ a ∧ w'.Has role (.pair a) car cdr)
      (alloc car cdr) := by
  rintro _ ⟨rfl, typed⟩
  refine ends_alloc.mpr ⟨fun room => ?_, fun _ => ⟨w, .refl w, ⟨rfl, typed⟩, trivial⟩⟩
  have moves : w.Moves (fun _ _ => False) _ := w.moves_grown ⟨car, cdr⟩ role room
  have here : (w.grown ⟨car, cdr⟩ role room).role w.heap.size = role := if_pos rfl
  have cell := cell_grown_size w.heap ⟨car, cdr⟩ room
  refine ⟨_, moves, ⟨rfl, typed.later moves.le fun b lt => ?_⟩, Nat.le_refl _, w.heap.size, rfl, ?_,
    here, cell⟩
  · rcases Nat.lt_succ_iff_lt_or_eq.mp (size_grown w.heap _ room ▸ lt) with lt | rfl
    · have old : (w.grown ⟨car, cdr⟩ role room).role b = w.role b := if_neg (Nat.ne_of_lt lt)
      rw [old]
      show World.Admits _ _ ((w.heap.grown ⟨car, cdr⟩ room).cell b)
      rw [cell_grown_of_lt lt]
      exact (typed.cells b lt).mono moves.le
    · rw [here]
      show World.Admits _ _ ((w.heap.grown ⟨car, cdr⟩ room).cell w.heap.size)
      rw [cell]
      exact (admits typed).mono moves.le
  · exact (size_grown w.heap _ room).symm ▸ Nat.lt_succ_self w.heap.size

theorem keeps_cons (role : Role) (admits : w.Typed → w.Admits role ⟨car, cdr⟩) :
    keeping.Keeps w (fun w' v => w'.Has role v car cdr) (cons car cdr) :=
  (keeps_alloc role admits).bind fun _ _ _ ⟨_, has⟩ => keeps_pure has

theorem keeps_update {f : Cell → Cell} (admits : w.Typed → w.Admits (w.role a) (f (w.heap.cell a)))
    (loose : w.Loose a f) : keeping.Keeps w (fun _ _ => True) (update a f) := by
  rintro _ ⟨rfl, typed⟩
  have moves : w.Moves (fun _ _ => False) _ := World.moves_updated loose
  refine ends_update.mpr ⟨w.updated a f, moves, ⟨rfl, typed.later moves.le fun b lt => ?_⟩, trivial⟩
  show World.Admits _ (w.role b) ((w.heap.updated a f).cell b)
  rw [cell_updated]
  split
  next same =>
    obtain ⟨rfl, _⟩ := same
    exact (admits typed).mono moves.le
  next => exact (typed.cells b (size_updated w.heap a f ▸ lt)).mono moves.le

theorem keeps_setSlot (inFrame : w.InFrame a extent) (assignable : extent ≠ some 0)
    (visible : w.Visible v) : keeping.Keeps w (fun _ _ => True) (setCar a v) := by
  refine keeps_update (fun typed => ?_) (.inl ⟨extent, inFrame.2, assignable⟩)
  rw [inFrame.2]
  exact ⟨visible, (typed.frame inFrame).2⟩

theorem keeps_setFrame (inEnv : w.InEnv a extent) (framed : w.Framed extent v) :
    keeping.Keeps w (fun _ _ => True) (setCar a v) := by
  refine keeps_update (fun typed => ?_) (.inr ⟨⟨extent, inEnv.2⟩, rfl⟩)
  rw [inEnv.2]
  exact ⟨framed, (typed.holder inEnv).2⟩

theorem keeps_setNext (inFrame : w.InFrame a extent) (assignable : extent ≠ some 0)
    (framed : w.Framed (extent.behind 1) v) : keeping.Keeps w (fun _ _ => True) (setCdr a v) := by
  refine keeps_update (fun typed => ?_) (.inl ⟨extent, inFrame.2, assignable⟩)
  rw [inFrame.2]
  exact ⟨(typed.frame inFrame).1, framed⟩

def Found (extent : Extent) (w : World) (found : Option Addr) : Prop :=
  ∃ a, found = some a ∧ w.InFrame a extent

/-- Where there is no cell, one that is linked in becomes part of the frame. -/
theorem keeps_follow {relink : Value → HeapM Unit} (framed : w.Framed extent u)
    (links : ∀ w' v, w.Le w' → w'.Framed extent v → keeping.Keeps w' (fun _ _ => True) (relink v)) :
    keeping.Keeps w (Found extent) (follow u relink) := by
  rcases framed with rfl | ⟨b, rfl, inFrame⟩
  · have blank : w.Admits (.frame extent) ⟨.nil, .nil⟩ :=
      ⟨World.visible_of_isPair rfl, .inl rfl⟩
    refine (keeps_alloc (.frame extent) fun _ => blank).bind fun w₁ b moves ⟨_, has⟩ => ?_
    obtain ⟨_, eq, inFrame, role, _⟩ := has
    cases eq
    have here : w₁.InFrame b extent := ⟨inFrame, role⟩
    exact (links w₁ (.pair b) moves.le here.framed).bind fun w₂ _ moves' _ =>
      keeps_pure ⟨b, rfl, here.mono moves'.le⟩
  · exact keeps_pure ⟨b, rfl, inFrame⟩

theorem keeps_extendTo {n : Nat} (inFrame : w.InFrame a extent) (enough : ∀ m ∈ extent, n < m) :
    keeping.Keeps w (Found (extent.behind n)) (extendTo n a) := by
  induction n generalizing w a extent with
  | zero => exact keeps_pure ⟨a, rfl, (Extent.behind_zero extent).symm ▸ inFrame⟩
  | succ n ih =>
    have assignable : extent ≠ some 0 := by
      rintro rfl
      exact Nat.not_lt_zero _ (enough 0 rfl)
    have fewer : ∀ m ∈ extent.behind 1, n < m := by
      intro m mem
      obtain ⟨l, mem', rfl⟩ := Option.map_eq_some_iff.mp mem
      have := enough l mem'
      omega
    refine keeps_look_bind rfl fun typed => ?_
    refine (keeps_follow (typed.frame inFrame).2 fun w' v le framed =>
      keeps_setNext (inFrame.mono le) assignable framed).bind fun w₁ next moves found => ?_
    obtain ⟨b, rfl, here⟩ := found
    have rest := ih here fewer
    rwa [Extent.behind_behind, Nat.add_comm] at rest

theorem keeps_store {depth index : Nat} {env : Value} (frames : w.Env scopes env)
    (positive : 0 < depth ∧ 0 < index) (le : depth ≤ scopes.length + 2)
    (within : ∀ n ∈ Extent.ofDepth scopes depth, index ≤ n) (visible : w.Visible v) :
    keeping.Keeps w (fun _ stored => stored = true) (store env depth index v) := by
  have enough : ∀ m ∈ Extent.ofDepth scopes depth, index - 1 < m := fun m mem =>
    Nat.lt_of_lt_of_le (Nat.sub_lt positive.2 Nat.one_pos) (within m mem)
  unfold store
  rw [if_neg (Nat.ne_of_gt positive.2)]
  refine keeps_look_bind rfl fun typed => ?_
  obtain ⟨holder, found, inEnv⟩ := World.Env.frameHolder? typed frames positive.1 le
  dsimp only
  rw [found]
  refine keeps_look_bind rfl fun _ => ?_
  refine (keeps_follow (typed.holder inEnv).1 fun w' v le framed =>
    keeps_setFrame (inEnv.mono le) framed).bind fun w₁ first moves₁ found => ?_
  obtain ⟨b, rfl, here⟩ := found
  refine (keeps_extendTo here enough).bind fun w₂ target moves₂ found => ?_
  obtain ⟨c, rfl, there⟩ := found
  have visible := (visible.mono moves₁.le).mono moves₂.le
  exact (keeps_setSlot there (Extent.behind_ne enough) visible).bind fun _ _ _ _ =>
    keeps_pure rfl

end Keeps

end Discipline

end SecdLisp
