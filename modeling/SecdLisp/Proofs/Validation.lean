import Mathlib.Data.Fintype.Pigeonhole
import SecdLisp.Image.Basic

/-!
# What a check of an image decides

A walk along cdr over more cells than there are has passed one of them twice, so it never comes to
an atom. The number of cells is therefore a sound limit: a chain through all of them keeps it, and
a cycle does not, wherever the walk gets into it.
-/

namespace SecdLisp

/-- A walk along cdr is over here. -/
def Slot.IsAtom (slot : Slot) : Prop := ∀ i, slot ≠ .pair i

namespace Image

variable {image : Image} {slot last : Slot} {fuel k n m : Nat}

/-- What the slot refers to is in the image. -/
def Has (image : Image) : Slot → Prop
  | .ident i => i.toNat < image.names.size
  | .pair i => i.toNat < image.cells.size
  | _ => True

/-- Nothing in the image refers to a name or a cell that it does not have. -/
structure Complete (image : Image) : Prop where
  cells : ∀ c ∈ image.cells, image.Has c.car ∧ image.Has c.cdr
  root : image.Has image.root

/-- The slot that many steps along cdr; none if the way ends before. -/
def after? (image : Image) : (steps : Nat) → Slot → Option Slot
  | 0, slot => some slot
  | n + 1, .pair i => image.cells[i.toNat]?.bind fun c => image.after? n c.cdr
  | _ + 1, _ => none

theorem inRange_iff_has : image.inRange slot = true ↔ image.Has slot := by
  cases slot <;> simp [inRange, Has]

theorem has_iff : image.Has slot ↔
    (∀ i, slot = .ident i → ∃ name, image.names[i.toNat]? = some name) ∧
      ∀ i, slot = .pair i → ∃ c, image.cells[i.toNat]? = some c := by
  cases slot <;> simp [Has, Array.getElem?_eq_some_iff]

theorem complete_iff : image.Complete ↔
    (image.cells.all fun c => image.inRange c.car && image.inRange c.cdr) = true ∧
      image.inRange image.root = true := by
  rw [Array.all_eq_true', inRange_iff_has]
  simp only [Bool.and_eq_true, inRange_iff_has]
  exact ⟨fun complete => ⟨complete.cells, complete.root⟩, fun both => ⟨both.1, both.2⟩⟩

theorem Complete.cell (complete : image.Complete) {i : UInt32} (has : image.Has (.pair i)) :
    ∃ c, image.cells[i.toNat]? = some c ∧ image.Has c.cdr := by
  have lt : i.toNat < image.cells.size := has
  exact ⟨_, Array.getElem?_eq_getElem lt, (complete.cells _ (Array.getElem_mem lt)).2⟩

theorem after?_add : image.after? (m + n) slot = (image.after? m slot).bind (image.after? n) := by
  induction m generalizing slot with
  | zero => rw [Nat.zero_add, after?, Option.bind_some]
  | succ m ih =>
    rw [Nat.add_right_comm]
    cases slot with
    | pair i =>
      rw [after?, after?]
      cases image.cells[i.toNat]? with
      | none => rfl
      | some c => exact ih
    | _ => rfl

theorem Complete.has_after (complete : image.Complete) (has : image.Has slot)
    (found : image.after? n slot = some last) : image.Has last := by
  induction n generalizing slot with
  | zero =>
    cases found
    exact has
  | succ n ih =>
    cases slot with
    | pair i =>
      obtain ⟨c, here, has⟩ := complete.cell has
      rw [after?, here, Option.bind_some] at found
      exact ih has found
    | _ => cases found

theorem walk_of_atom (found : image.after? n slot = some last) (atom : last.IsAtom)
    (enough : n ≤ fuel) : image.walk fuel slot m = some (m + n, last) := by
  induction n generalizing slot fuel m with
  | zero =>
    cases found
    cases last with
    | pair i => exact absurd rfl (atom i)
    | _ => cases fuel <;> rfl
  | succ n ih =>
    obtain ⟨fuel, rfl⟩ := Nat.exists_eq_add_of_le' enough
    cases slot with
    | pair i =>
      rw [after?] at found
      obtain ⟨c, here, found⟩ := Option.bind_eq_some_iff.mp found
      show image.walk (fuel + n + 1) (.pair i) m = _
      rw [walk, here, Option.getD_some, ih found (Nat.le_add_left ..), Nat.add_right_comm,
        Nat.add_assoc]
    | _ => cases found

theorem walk_of_pair {i : UInt32} (found : image.after? fuel slot = some (.pair i)) :
    image.walk fuel slot m = none := by
  induction fuel generalizing slot m with
  | zero =>
    cases found
    rfl
  | succ fuel ih =>
    cases slot with
    | pair j =>
      rw [after?] at found
      obtain ⟨c, here, found⟩ := Option.bind_eq_some_iff.mp found
      rw [walk, here, Option.getD_some, ih found]
    | _ => cases found

theorem after?_unique {last' : Slot} (found : image.after? n slot = some last)
    (atom : last.IsAtom) (found' : image.after? k slot = some last') (atom' : last'.IsAtom) :
    n = k ∧ last = last' := by
  have one := walk_of_atom (m := 0) found atom (Nat.le_max_left n k)
  have other := walk_of_atom (m := 0) found' atom' (Nat.le_max_right n k)
  rw [one, Nat.zero_add, Nat.zero_add, Option.some.injEq, Prod.mk.injEq] at other
  exact other

theorem Complete.ends_or_goes_on (complete : image.Complete) (has : image.Has slot) (fuel : Nat) :
    (∃ n ≤ fuel, ∃ last, image.after? n slot = some last ∧ last.IsAtom) ∨
      ∃ i, image.after? fuel slot = some (.pair i) := by
  induction fuel generalizing slot with
  | zero =>
    cases slot with
    | pair i => exact .inr ⟨i, rfl⟩
    | _ => exact .inl ⟨0, Nat.le_refl _, _, rfl, nofun⟩
  | succ fuel ih =>
    cases slot with
    | pair i =>
      obtain ⟨c, here, has⟩ := complete.cell has
      have step (n : Nat) : image.after? (n + 1) (.pair i) = image.after? n c.cdr := by
        rw [after?, here, Option.bind_some]
      rcases ih has with ⟨n, le, last, found, atom⟩ | ⟨j, found⟩
      · exact .inl ⟨n + 1, Nat.succ_le_succ le, last, (step n).trans found, atom⟩
      · exact .inr ⟨j, (step fuel).trans found⟩
    | _ => exact .inl ⟨0, Nat.zero_le _, _, rfl, nofun⟩

/-- Among more steps than there are cells, two are at the same cell. -/
theorem Complete.meets_again (complete : image.Complete) (has : image.Has slot)
    (cell : ∀ n ≤ image.cells.size, ∃ i, image.after? n slot = some (.pair i)) :
    ∃ m k, 0 < k ∧ m + k ≤ image.cells.size ∧
      image.after? (m + k) slot = image.after? m slot := by
  choose at' here using fun n : Fin (image.cells.size + 1) => cell n (Nat.le_of_lt_succ n.isLt)
  have owned (n : Fin (image.cells.size + 1)) : (at' n).toNat < image.cells.size :=
    complete.has_after has (here n)
  obtain ⟨a, b, ne, same⟩ := Fintype.exists_ne_map_eq_of_card_lt
    (fun n => (⟨(at' n).toNat, owned n⟩ : Fin image.cells.size)) (by simp)
  have meet : image.after? a slot = image.after? b slot := by
    rw [here a, here b, UInt32.toNat_inj.mp (Fin.mk.inj same)]
  have apart {a b : Fin (image.cells.size + 1)} (lt : a.val < b.val)
      (meet : image.after? a slot = image.after? b slot) :
      ∃ m k, 0 < k ∧ m + k ≤ image.cells.size ∧
        image.after? (m + k) slot = image.after? m slot := by
    refine ⟨a, b - a, Nat.sub_pos_of_lt lt, ?_, ?_⟩
    · rw [Nat.add_sub_cancel' (Nat.le_of_lt lt)]
      exact Nat.le_of_lt_succ b.isLt
    · rw [Nat.add_sub_cancel' (Nat.le_of_lt lt), meet]
  rcases Nat.lt_or_gt_of_ne (Fin.val_ne_of_ne ne) with lt | lt
  · exact apart lt meet
  · exact apart lt meet.symm

/-- A way that goes on for as many steps as there are cells goes on for ever. -/
theorem Complete.endless (complete : image.Complete) (has : image.Has slot) {i : UInt32}
    (far : image.after? image.cells.size slot = some (.pair i)) (n : Nat) :
    ∃ j, image.after? n slot = some (.pair j) := by
  have before (n : Nat) (le : n ≤ image.cells.size) :
      ∃ j, image.after? n slot = some (.pair j) := by
    rcases complete.ends_or_goes_on has n with ⟨k, le', last, found, atom⟩ | goes
    · have some := walk_of_atom (m := 0) found atom (Nat.le_trans le' le)
      rw [walk_of_pair far] at some
      cases some
    · exact goes
  obtain ⟨m, k, pos, le, again⟩ := complete.meets_again has before
  induction n using Nat.strong_induction_on with
  | _ n ih =>
    by_cases near : n ≤ image.cells.size
    · exact before n near
    · -- Between the two visits the way is the same, so going round once less leads as far.
      obtain ⟨rest, rfl⟩ := Nat.exists_eq_add_of_le (Nat.le_trans le (Nat.le_of_not_le near))
      rw [after?_add, again, ← after?_add]
      exact ih (m + rest) (by omega)

theorem validate_of_not_complete (not : ¬image.Complete) :
    image.validate = .error .indexOutOfRange := by
  rw [complete_iff, ← Bool.and_eq_true, Bool.not_eq_true, Bool.and_eq_false_iff] at not
  rw [validate, if_pos (by simpa using not)]

theorem Complete.validate_eq (complete : image.Complete) : image.validate =
    match image.walk image.cells.size image.root 0 with
    | none => .error .cyclicEnvironment
    | some (frames, last) =>
      if frames < 2 ∨ last ≠ .nil then .error .malformedEnvironment else .ok () := by
  obtain ⟨cells, root⟩ := complete_iff.mp complete
  rw [validate, cells, root]
  rfl

theorem Complete.validate_of_atom (complete : image.Complete)
    (found : image.after? n image.root = some last) (atom : last.IsAtom) :
    image.validate = if n < 2 ∨ last ≠ .nil then .error .malformedEnvironment else .ok () := by
  have enough : n ≤ image.cells.size := by
    rcases complete.ends_or_goes_on complete.root image.cells.size with
      ⟨k, le, last', found', atom'⟩ | ⟨i, far⟩
    · rwa [(after?_unique found atom found' atom').1]
    · obtain ⟨j, goes⟩ := complete.endless complete.root far n
      rw [found, Option.some.injEq] at goes
      exact absurd goes (atom j)
  rw [complete.validate_eq, walk_of_atom found atom enough, Nat.zero_add]

theorem Complete.validate_of_endless (complete : image.Complete)
    (endless : ∀ n, ∃ i, image.after? n image.root = some (.pair i)) :
    image.validate = .error .cyclicEnvironment := by
  obtain ⟨i, far⟩ := endless image.cells.size
  rw [complete.validate_eq, walk_of_pair far]

/-- The root is a chain of two cells or more that ends in nil. -/
def Chained (image : Image) : Prop := ∃ n, 2 ≤ n ∧ image.after? n image.root = some .nil

/-- The way from the root never leaves the cells. -/
def Endless (image : Image) : Prop := ∀ n, ∃ i, image.after? n image.root = some (.pair i)

/-- The way from the root comes to an atom, too early or to another one than nil. -/
def Broken (image : Image) : Prop :=
  ∃ n last, image.after? n image.root = some last ∧ last.IsAtom ∧ (n < 2 ∨ last ≠ .nil)

theorem Complete.chained_or_endless_or_broken (complete : image.Complete) :
    image.Chained ∨ image.Endless ∨ image.Broken := by
  rcases complete.ends_or_goes_on complete.root image.cells.size with
    ⟨n, -, last, found, atom⟩ | ⟨i, far⟩
  · by_cases wrong : n < 2 ∨ last ≠ .nil
    · exact .inr (.inr ⟨n, last, found, atom, wrong⟩)
    · rw [not_or, not_lt, not_not] at wrong
      exact .inl ⟨n, wrong.1, wrong.2 ▸ found⟩
  · exact .inr (.inl (complete.endless complete.root far))

theorem Complete.validate_of_chained (complete : image.Complete) (chained : image.Chained) :
    image.validate = .ok () := by
  obtain ⟨n, two, found⟩ := chained
  have fine : ¬(n < 2 ∨ Slot.nil ≠ .nil) := by
    rw [not_or, not_lt, not_not]
    exact ⟨two, rfl⟩
  rw [complete.validate_of_atom found nofun, if_neg fine]

theorem Complete.validate_of_broken (complete : image.Complete) (broken : image.Broken) :
    image.validate = .error .malformedEnvironment := by
  obtain ⟨n, last, found, atom, wrong⟩ := broken
  rw [complete.validate_of_atom found atom, if_pos wrong]

theorem validate_eq_ok_iff : image.validate = .ok () ↔ image.Complete ∧ image.Chained := by
  constructor
  · intro valid
    have complete : image.Complete := by
      by_contra not
      rw [validate_of_not_complete not] at valid
      cases valid
    refine ⟨complete, ?_⟩
    rcases complete.chained_or_endless_or_broken with chained | endless | broken
    · exact chained
    · exact absurd (valid.symm.trans (complete.validate_of_endless endless)) nofun
    · exact absurd (valid.symm.trans (complete.validate_of_broken broken)) nofun
  · rintro ⟨complete, chained⟩
    exact complete.validate_of_chained chained

/-- The check takes just the images that are complete and whose root is a chain of two cells or
more that ends in nil. Of the others it says what is wrong: a reference out of range, a way from
the root that never leaves the cells, or one that ends too early or in another atom. -/
theorem validate_decides (image : Image) :
    (image.validate = .ok () ↔ image.Complete ∧ image.Chained) ∧
    (image.validate = .error .cyclicEnvironment ↔ image.Complete ∧ image.Endless) ∧
    (image.validate = .error .malformedEnvironment ↔ image.Complete ∧ image.Broken) ∧
    (image.validate = .error .indexOutOfRange ↔ ¬image.Complete) ∧
    ImageError.message .cyclicEnvironment = "global environment is cyclic" ∧
    ImageError.message .malformedEnvironment = "malformed global environment" := by
  refine ⟨validate_eq_ok_iff, ?_⟩
  by_cases complete : image.Complete
  · -- Each shape of the way from the root has its own answer.
    have chained := complete.validate_of_chained
    have endless := complete.validate_of_endless
    have broken := complete.validate_of_broken
    have shapes := complete.chained_or_endless_or_broken
    refine ⟨⟨fun answer => ⟨complete, ?_⟩, fun both => endless both.2⟩,
      ⟨fun answer => ⟨complete, ?_⟩, fun both => broken both.2⟩,
      ⟨fun answer => ?_, fun not => absurd complete not⟩, rfl, rfl⟩
    · rcases shapes with shape | shape | shape
      · exact absurd (answer.symm.trans (chained shape)) nofun
      · exact shape
      · exact absurd (answer.symm.trans (broken shape)) nofun
    · rcases shapes with shape | shape | shape
      · exact absurd (answer.symm.trans (chained shape)) nofun
      · exact absurd (answer.symm.trans (endless shape)) nofun
      · exact shape
    · rcases shapes with shape | shape | shape
      · exact absurd (answer.symm.trans (chained shape)) nofun
      · exact absurd (answer.symm.trans (endless shape)) nofun
      · exact absurd (answer.symm.trans (broken shape)) nofun
  · rw [validate_of_not_complete complete]
    simp only [complete, reduceCtorEq, Except.error.injEq, false_and, not_false_eq_true, true_and]
    exact ⟨rfl, rfl⟩

end Image

end SecdLisp
