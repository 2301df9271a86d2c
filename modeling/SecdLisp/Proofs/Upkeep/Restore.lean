import SecdLisp.Proofs.Upkeep.Sessions

/-!
# What restoring does to a session

An image that is refused for lack of room leaves blank cells and new names behind. A valid one
puts its cells behind those that were there, each slot of it leading to a name or a cell that the
session then has, and its root becomes the global environment.
-/

namespace SecdLisp

namespace Session

open Heap Contract Image

variable {image : Image} {s s' : Session}

theorem keeps_internAll (names : List String) :
    upkeep.Keeps s (fun _ _ => True) (internAll names) := by
  induction names generalizing s with
  | nil => exact keeps_pure trivial
  | cons name names ih =>
    exact (keeps_intern name).bind fun _ _ _ _ => ih.bind fun _ _ _ _ => keeps_pure trivial

theorem keeps_allocBlank {names : Nat} {h : Heap} (n : Nat) :
    (Heap.upkeep names).Keeps h (fun _ _ => True) (allocBlank n) := by
  induction n generalizing h with
  | zero => exact keeps_pure trivial
  | succ n ih =>
    exact (Heap.keeps_alloc (knows_nil names h) (knows_nil names h)).bind fun _ _ _ _ => ih

/-- An image that is not installed only leaves blank cells and names behind. -/
theorem restore_error {e : Error} (inRange : s.InRange) (run : restore image s = .error e s') :
    s.Later s' ∧ s'.InRange ∧ e.registers? = none := by
  cases valid : image.validate with
  | error cause =>
    simp only [restore, valid] at run
    cases run
    exact ⟨.refl s, inRange, rfl⟩
  | ok _ =>
    by_cases room : s.heap.size + image.cells.size ≤ s.heap.capacity
    · obtain ⟨t, _, installed, _⟩ := restore_spec valid room
      rw [installed] at run
      cases run
    · obtain ⟨symbols, names, interned, _⟩ := internAll_spec image.names.toList s
      have front : upkeep.Keeps s (fun _ _ => True) (do
          let _ ← internAll image.names.toList
          onHeap (allocBlank image.cells.size)) :=
        (keeps_internAll _).bind fun _ _ _ _ => keeps_onHeap (keeps_allocBlank _)
      have ends := front s ⟨rfl, inRange⟩
      simp only [restore, valid, bind, EStateM.bind, interned, onHeap, Heap.read] at run
      simp only [Ends, bind, EStateM.bind, interned, onHeap] at ends
      cases blank : allocBlank image.cells.size s.heap with
      | ok _ h => exact (room ((ends_allocBlank _ _).of_eq_ok blank).1).elim
      | error e' h =>
        rw [blank] at run ends
        cases run
        obtain ⟨_, later, ⟨rfl, inRange'⟩, _⟩ := ends
        rw [((ends_allocBlank _ _).of_eq_error blank).1]
        exact ⟨later, inRange', rfl⟩

/-- A restored session, given by where the image was put. -/
structure Installed (image : Image) (names : Array Symbol) (s s' : Session) : Prop where
  size : s'.heap.size = s.heap.size + image.cells.size
  old : ∀ a < s.heap.size, s'.heap.cell a = s.heap.cell a
  new : ∀ (i : Nat) (c : ImageCell), image.cells[i]? = some c →
    s'.heap.cell (s.heap.size + i) =
      ⟨slotValue names s.heap.size c.car, slotValue names s.heap.size c.cdr⟩
  root : s'.globals.env = slotValue names s.heap.size image.root
  functions : ∀ n ∈ s'.globals.functions, n < s'.symbols.count
  macros : ∀ n ∈ s'.globals.macros, n < s'.symbols.count
  symbols : s.symbols.count ≤ s'.symbols.count
  names : ∀ (i : Nat) (name : String), image.names[i]? = some name →
    names[i]?.getD default < s'.symbols.count

theorem installed_of_restore (run : restore image s = .ok () s') :
    image.validate = .ok () ∧ ∃ names, Installed image names s s' := by
  obtain ⟨valid, room⟩ := room_of_restore run
  obtain ⟨t, value, run', size, old, new, root, _, _, functions, macros, within, names, rfl,
    known⟩ := restore_spec valid room
  obtain rfl : t = s' := by
    rw [run] at run'
    cases run'
    rfl
  exact ⟨valid, names, size, old, new, root, functions, macros, within.count_le,
    fun i name here => (known i name here).1⟩

variable {names : Array Symbol}

theorem Installed.knows_slot (installed : Installed image names s s') {slot : Slot}
    (has : image.Has slot) : s'.Knows (slotValue names s.heap.size slot) := by
  cases slot with
  | ident i => exact installed.names _ _ (Array.getElem?_eq_getElem has)
  | pair i =>
    show s.heap.size + i.toNat < s'.heap.size
    rw [installed.size]
    exact Nat.add_lt_add_left has _
  | _ => trivial

theorem Installed.knows_old (installed : Installed image names s s') {v : Value}
    (known : s.Knows v) : s'.Knows v := by
  refine knows_iff.mpr ((knows_iff.mp known).mono ?_ installed.symbols)
  rw [installed.size]
  exact Nat.le_add_right _ _

/-- The cells of a restored session: old ones, those of the image, and none beyond. -/
theorem Installed.cell_cases (installed : Installed image names s s') (a : Addr) :
    a < s.heap.size ∧ s'.heap.cell a = s.heap.cell a ∨
    (∃ (i : Nat) (c : ImageCell), image.cells[i]? = some c ∧ a = s.heap.size + i ∧
      s'.heap.cell a =
        ⟨slotValue names s.heap.size c.car, slotValue names s.heap.size c.cdr⟩) ∨
    s'.heap.size ≤ a := by
  by_cases old : a < s.heap.size
  · exact .inl ⟨old, installed.old a old⟩
  · obtain ⟨i, rfl⟩ := Nat.exists_eq_add_of_le (Nat.le_of_not_lt old)
    refine .inr ?_
    by_cases new : i < image.cells.size
    · have here := Array.getElem?_eq_getElem new
      exact .inl ⟨i, _, here, rfl, installed.new i _ here⟩
    · rw [installed.size]
      exact .inr (Nat.add_le_add_left (Nat.le_of_not_lt new) _)

theorem Installed.inRange (installed : Installed image names s s')
    (valid : image.validate = .ok ()) (inRange : s.InRange) : s'.InRange := by
  obtain ⟨complete, _⟩ := validate_eq_ok_iff.mp valid
  refine ⟨fun a => ?_, installed.root ▸ installed.knows_slot complete.root, installed.functions,
    installed.macros⟩
  rw [Heap.car, Heap.cdr]
  rcases installed.cell_cases a with ⟨_, same⟩ | ⟨i, c, here, _, same⟩ | beyond
  · rw [same]
    exact ⟨installed.knows_old (inRange.cells a).1, installed.knows_old (inRange.cells a).2⟩
  · obtain ⟨car, cdr⟩ := complete.cells c (Array.mem_of_getElem? here)
    rw [same]
    exact ⟨installed.knows_slot car, installed.knows_slot cdr⟩
  · rw [Heap.cell_of_le beyond]
    exact ⟨trivial, trivial⟩

/-- Whatever image is restored, the session stays in range, and an error leads nowhere. -/
theorem leaves_restore (image : Image) (inRange : s.InRange) :
    (perform (.restore image) s).1.InRange ∧
      ∀ answer ∈ (perform (.restore image) s).2, (perform (.restore image) s).1.Bears answer := by
  unfold perform answered
  dsimp only
  cases run : restore image s with
  | ok _ s' =>
    obtain ⟨valid, names, installed⟩ := installed_of_restore run
    exact ⟨installed.inRange valid inRange, by simp⟩
  | error e s' =>
    obtain ⟨_, inRange', carriesNone⟩ := restore_error inRange run
    refine ⟨inRange', fun answer mem => ?_⟩
    rw [List.mem_singleton.mp mem]
    exact bears_error.mpr (Error.within_of_none carriesNone)

end Session

end SecdLisp
