import SecdLisp.Proofs.Upkeep.Arising

/-!
# The spine of the global environment

The global environment is a list of at least two frames. A change to the heap may store into the
cells of that list and may put new cells behind it, but never breaks it. So an image can be taken
of every session, and is valid.
-/

namespace SecdLisp

namespace Heap

variable {names : Nat} {h h' : Heap} {v : Value} {as : List Addr}

/-- A list stays one, and gets no shorter. -/
theorem Change.spine (change : Change names h h') (spine : h.Spine v as) :
    ∃ bs, h'.Spine v bs ∧ as.length ≤ bs.length := by
  cases change with
  | added _ _ room =>
    refine ⟨as, spine.congr (by simp) fun a mem => ?_, Nat.le_refl _⟩
    rw [cdr, cell_grown_of_lt (spine.owned mem), cdr]
  | @stored a v owned _ =>
    refine ⟨as, spine.congr (by simp) fun b _ => ?_, Nat.le_refl _⟩
    rw [cdr, cell_updated, cdr]
    split <;> rfl
  | lengthened owned last room =>
    refine ⟨_, spine.lengthened owned last room, ?_⟩
    rw [List.length_append]
    exact Nat.le_add_right _ _

theorem Changes.spine (changes : Changes names h h') (spine : h.Spine v as) :
    ∃ bs, h'.Spine v bs ∧ as.length ≤ bs.length := by
  induction changes with
  | refl => exact ⟨as, spine, Nat.le_refl _⟩
  | tail _ change ih =>
    obtain ⟨bs, spine, le⟩ := ih
    obtain ⟨cs, spine, le'⟩ := change.spine spine
    exact ⟨cs, spine, Nat.le_trans le le'⟩

/-- The value is a list of at least that many cells. -/
def Extends (h : Heap) (n : Nat) (v : Value) : Prop := ∃ as, h.Spine v as ∧ n ≤ as.length

theorem Changes.extends (changes : Changes names h h') {n : Nat} (long : h.Extends n v) :
    h'.Extends n v := by
  obtain ⟨as, spine, le⟩ := long
  obtain ⟨bs, spine', le'⟩ := changes.spine spine
  exact ⟨bs, spine', Nat.le_trans le le'⟩

end Heap

namespace Session

open Heap Machine

variable {images : Image → Prop} {s s' : Session} {image : Image} {names : Array Symbol}

theorem Installed.spine_of_after (installed : Installed image names s s')
    (complete : image.Complete) {n : Nat} {slot : Slot} (has : image.Has slot)
    (found : image.after? n slot = some .nil) :
    ∃ as, s'.heap.Spine (slotValue names s.heap.size slot) as ∧ as.length = n := by
  induction n generalizing slot with
  | zero =>
    cases found
    exact ⟨[], .nil, rfl⟩
  | succ n ih =>
    cases slot with
    | pair i =>
      obtain ⟨c, here, has'⟩ := complete.cell has
      rw [Image.after?, here, Option.bind_some] at found
      obtain ⟨as, spine, rfl⟩ := ih has' found
      refine ⟨(s.heap.size + i.toNat) :: as, .cons (installed.knows_slot has) ?_, rfl⟩
      rw [cdr, installed.new _ c here]
      exact spine
    | _ => cases found

theorem Installed.extends_env (installed : Installed image names s s')
    (valid : image.validate = .ok ()) : s'.heap.Extends 2 s'.globals.env := by
  obtain ⟨complete, n, two, found⟩ := Image.validate_eq_ok_iff.mp valid
  obtain ⟨as, spine, rfl⟩ := installed.spine_of_after complete complete.root found
  rw [installed.root]
  exact ⟨as, spine, two⟩

theorem extends_env_of_create {cells : Nat} {level : LogLevel} (new : create cells level = .ok s) :
    s.heap.Extends 2 s.globals.env := by
  obtain ⟨_, globals, held⟩ := create_eq_ok new
  have size : s.heap.size = 2 := congrArg Array.size held
  have link : s.heap.cdr 1 = .pair 0 := by
    rw [cdr, cell, held]
    rfl
  have stop : s.heap.cdr 0 = .nil := by
    rw [cdr, cell, held]
    rfl
  rw [globals]
  refine ⟨[1, 0], .cons (by rw [size]; exact Nat.one_lt_two) ?_, Nat.le_refl _⟩
  rw [link]
  refine .cons (by rw [size]; exact Nat.zero_lt_two) ?_
  rw [stop]
  exact .nil

theorem Later.extends_env (later : s.Later s') (long : s.heap.Extends 2 s.globals.env) :
    s'.heap.Extends 2 s'.globals.env := by
  rw [later.env]
  exact later.heap.extends long

theorem extends_env_of_arises (arises : Arises images s) :
    s.InRange ∧ s.heap.Extends 2 s.globals.env := by
  refine arises.invariant (P := fun s => s.InRange ∧ s.heap.Extends 2 s.globals.env) ?_ ?_ ?_
  · exact fun _ _ s new => ⟨inRange_of_create new, extends_env_of_create new⟩
  · rintro s op native permitted ⟨inRange, long⟩
    have leaves := leaves_perform native permitted inRange
    exact ⟨leaves.inRange, leaves.later.extends_env long⟩
  · rintro s image _ ⟨inRange, long⟩
    refine ⟨(leaves_restore image inRange).1, ?_⟩
    unfold perform answered
    dsimp only
    cases run : restore image s with
    | ok _ s' =>
      obtain ⟨valid, names, installed⟩ := installed_of_restore run
      exact installed.extends_env valid
    | error e s' => exact (restore_error inRange run).1.extends_env long

/-- Whatever operations lead to a session, its global environment is a list of at least two frames,
also at each instruction of a run of any code; and the image that is taken of it is valid. -/
theorem arises_savable (arises : Arises images s) :
    s.heap.Extends 2 s.globals.env ∧
    (∀ code c, s.Knows code → Passes s.symbols ⟨start s.globals.env code, s.heap⟩ c →
      c.heap.Extends 2 s.globals.env) ∧
    ∃ image s', capture s = .ok image s' ∧ image.validate = .ok () := by
  obtain ⟨inRange, long⟩ := extends_env_of_arises arises
  obtain ⟨sound, tables⟩ := inRange_iff.mp inRange
  refine ⟨long, fun code c known passes => ?_, s.image, _, rfl, ?_⟩
  · have bears : s.heap.Bears s.symbols.count (start s.globals.env code) :=
      ⟨trivial, tables.env, knows_iff.mp known, trivial⟩
    exact (bears_of_passes (c := ⟨_, s.heap⟩) sound bears passes).1.extends long
  · obtain ⟨as, spine, two⟩ := long
    obtain ⟨order, charts⟩ :=
      Image.capture_outlines s.symbols inRange.closed inRange.env.owns
    exact validate_of_charts charts spine two

/-- A list whose only frame is the global environment, and a value stored in that frame behind its
end. -/
def overgrown : Session :=
  (perform (.store (.pair 2) 1 3 (.int 42)) (perform (.cons (.pair 1) .nil) fresh).1).1

theorem overgrown_savable : overgrown.heap.cdr 0 = .pair 3 ∧
    overgrown.heap.Extends 2 overgrown.globals.env ∧ overgrown.image.validate = .ok () := by
  have listed : Arises (fun _ => False) (perform (.cons (.pair 1) .nil) fresh).1 :=
    .performed (.cons (.pair 1) .nil) (.created create_fresh) ⟨by decide, trivial⟩
  have arises : Arises (fun _ => False) overgrown :=
    .performed (.store (.pair 2) 1 3 (.int 42)) listed ⟨by decide, trivial⟩
  obtain ⟨long, _, image, s', captured, valid⟩ := arises_savable arises
  cases captured
  exact ⟨by decide, long, valid⟩

end Session

end SecdLisp
