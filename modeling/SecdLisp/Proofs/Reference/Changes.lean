import SecdLisp.Proofs.Reference.Layout

/-!
# Changes of the store

What each change of the store asks of the heap and of the layout: a new object, a new frame, and
new contents of a frame.
-/

namespace SecdLisp

namespace Reference

variable {P : Program} {g n : Nat} {L : Layout} {σ : Store} {h h' : Heap}

theorem getElem?_append_one {α : Type} {as : List α} {b c : α} {i : Nat}
    (here : (as ++ [b])[i]? = some c) : as[i]? = some c ∨ i = as.length ∧ c = b := by
  by_cases lt : i < as.length
  · rw [List.getElem?_append_left lt] at here
    exact .inl here
  · rw [List.getElem?_append_right (Nat.le_of_not_lt lt), List.getElem?_singleton] at here
    split at here
    · cases here
      exact .inr ⟨by omega, rfl⟩
    · cases here

def mark (role : Addr → Option Role) (a : Addr) (r : Role) : Addr → Option Role :=
  fun b => if b = a then some r else role b

theorem mark_self (role : Addr → Option Role) (a : Addr) (r : Role) : mark role a r a = some r :=
  if_pos rfl

theorem mark_of_lt {role : Addr → Option Role} {a b : Addr} {r : Role} (lt : b < a) :
    mark role a r b = role b := if_neg (Nat.ne_of_lt lt)

theorem mark_of_role {role : Addr → Option Role} {a b : Addr} {r r' : Role}
    (free : role a = none) (here : role b = some r') : mark role a r b = some r' := by
  rw [mark, if_neg, here]
  rintro rfl
  rw [free] at here
  cases here

theorem role_of_mark {role : Addr → Option Role} {a b : Addr} {r r' : Role}
    (here : mark role a r b = some r') : b = a ∧ r' = r ∨ role b = some r' := by
  rw [mark] at here
  split at here
  next eq => exact .inl ⟨eq, (Option.some.inj here).symm⟩
  next => exact .inr here

theorem extends_of_mark {L' : Layout} {a : Addr} {r : Role} (free : L.role a = none) (le : n ≤ a)
    (roles : L'.role = mark L.role a r) (objects : L.objects <+: L'.objects)
    (frames : L.frames <+: L'.frames) (h : Heap) : Extends n L h L' h where
  size_le := Nat.le_refl _
  objects := objects
  frames := frames
  fixed b c role := by rw [roles, mark_of_role free role]
  holders b f next role := by rw [roles, mark_of_role free role]
  idle b lt role := by rw [roles, mark_of_lt (Nat.lt_of_lt_of_le lt le), role]
  quiet _ _ _ := rfl

def Layout.adopt (L : Layout) (a : Addr) (c : Cell) : Layout :=
  { L with role := mark L.role a (.fixed c), objects := L.objects ++ [a] }

theorem extends_adopt {a : Addr} (free : L.role a = none) (le : n ≤ a) (h : Heap) (c : Cell) :
    Extends n L h (L.adopt a c) h := by
  have roles : (L.adopt a c).role = mark L.role a (.fixed c) := rfl
  exact extends_of_mark free le roles (List.prefix_append ..) List.prefix_rfl h

theorem Mirrors.adopt (mirrors : Mirrors P g L σ h) {a : Addr} {o : Object} (lt : a < h.size)
    (free : L.role a = none) (portrays : L.Portrays P g (h.cell a) o) :
    Mirrors P g (L.adopt a (h.cell a)) (σ.addObject o) h := by
  have ext : Extends 0 L h (L.adopt a (h.cell a)) h := extends_adopt free (Nat.zero_le _) ..
  refine ⟨fun b r role => ?_, fun b c role => ?_, fun b f next role => ?_,
    fun b c code => mark_of_role free (mirrors.code b c code), fun v d literal =>
      (mirrors.literals v d literal).mono ext.objects, mirrors.table, ?_, ?_, mirrors.frameCount,
    fun id b o' here there => ?_, fun f b slots frame there => ?_⟩
  · obtain ⟨rfl, _⟩ | role := role_of_mark role
    · exact lt
    · exact mirrors.owned b r role
  · obtain ⟨rfl, eq⟩ | role := role_of_mark role
    · cases eq
      rfl
    · exact mirrors.fixed b c role
  · obtain ⟨_, eq⟩ | role := role_of_mark role
    · cases eq
    · exact mirrors.links b f next role
  · refine List.nodup_append.mpr ⟨mirrors.distinct, List.nodup_singleton _, ?_⟩
    intro b mem c again
    rw [List.mem_singleton] at again
    subst again
    rintro rfl
    obtain ⟨id, here⟩ := List.mem_iff_getElem?.mp mem
    have known : id < σ.objects.length := by
      rw [← mirrors.objectCount]
      exact (List.getElem?_eq_some_iff.mp here).1
    obtain ⟨c, role, _⟩ := mirrors.objects id b _ here (List.getElem?_eq_getElem known)
    rw [free] at role
    cases role
  · simp [Layout.adopt, Store.addObject, mirrors.objectCount]
  · obtain here | ⟨rfl, rfl⟩ := getElem?_append_one here
    · have lt := (List.getElem?_eq_some_iff.mp here).1
      rw [Store.addObject, List.getElem?_append_left (by rwa [← mirrors.objectCount])] at there
      obtain ⟨c, role, portrays⟩ := mirrors.objects id b o' here there
      exact ⟨c, mark_of_role free role, portrays.mono ext⟩
    · rw [Store.addObject, mirrors.objectCount, List.getElem?_concat_length] at there
      cases there
      exact ⟨_, mark_self .., portrays.mono ext⟩
  · obtain ⟨⟨next, role⟩, as, w, seated⟩ := mirrors.frames f b slots frame there
    exact ⟨⟨next, mark_of_role free role⟩, as, w,
      seated.mono ext.objects fun b i role => ⟨mark_of_role free role, rfl⟩⟩

def Layout.hold (L : Layout) (a : Addr) (next : Value) : Layout :=
  { L with role := mark L.role a (.holder L.frames.length next), frames := L.frames ++ [a] }

theorem extends_hold {a : Addr} (free : L.role a = none) (le : n ≤ a) (h : Heap) (next : Value) :
    Extends n L h (L.hold a next) h := by
  have roles : (L.hold a next).role = mark L.role a (.holder L.frames.length next) := rfl
  exact extends_of_mark free le roles List.prefix_rfl (List.prefix_append ..) h

theorem Mirrors.hold (mirrors : Mirrors P g L σ h) {a : Addr} (lt : a < h.size)
    (free : L.role a = none) (empty : h.car a = .nil) :
    Mirrors P g (L.hold a (h.cdr a)) (σ.addFrame .empty) h := by
  have ext : Extends 0 L h (L.hold a (h.cdr a)) h := extends_hold free (Nat.zero_le _) ..
  refine ⟨fun b r role => ?_, fun b c role => ?_, fun b f next role => ?_,
    fun b c code => mark_of_role free (mirrors.code b c code), mirrors.literals, mirrors.table,
    mirrors.distinct, mirrors.objectCount, ?_, fun id b o here there => ?_,
    fun f b slots frame there => ?_⟩
  · obtain ⟨rfl, _⟩ | role := role_of_mark role
    · exact lt
    · exact mirrors.owned b r role
  · obtain ⟨_, eq⟩ | role := role_of_mark role
    · cases eq
    · exact mirrors.fixed b c role
  · obtain ⟨rfl, eq⟩ | role := role_of_mark role
    · cases eq
      rfl
    · exact mirrors.links b f next role
  · simp [Layout.hold, Store.addFrame, mirrors.frameCount]
  · obtain ⟨c, role, portrays⟩ := mirrors.objects id b o here there
    exact ⟨c, mark_of_role free role, portrays.mono ext⟩
  · obtain frame | ⟨rfl, rfl⟩ := getElem?_append_one frame
    · have lt := (List.getElem?_eq_some_iff.mp frame).1
      rw [Store.addFrame, List.getElem?_append_left (by rwa [← mirrors.frameCount])] at there
      obtain ⟨⟨next, role⟩, as, w, seated⟩ := mirrors.frames f b slots frame there
      exact ⟨⟨next, mark_of_role free role⟩, as, w,
        seated.mono List.prefix_rfl fun b i role => ⟨mark_of_role free role, rfl⟩⟩
    · rw [Store.addFrame, mirrors.frameCount, List.getElem?_concat_length] at there
      cases there
      refine ⟨⟨_, mark_self ..⟩, [], .nil, ?_, by simp, .nil, rfl⟩
      rw [empty]
      exact .nil

/-- The cells that held slots of a frame give way to others. -/
def Layout.seat (L : Layout) (f : Nat) (as : List Addr) : Layout :=
  { L with
    role := fun b =>
      if b ∈ as then some (.slot f (as.idxOf b))
      else
        match L.role b with
        | some (.slot f' i) => if f' = f then none else some (.slot f' i)
        | role => role }

section Seat

variable {f : Nat} {as : List Addr}

theorem role_seat_of_mem {b : Addr} (mem : b ∈ as) :
    (L.seat f as).role b = some (.slot f (as.idxOf b)) := if_pos mem

theorem role_seat_of_role {b : Addr} {r : Role} (role : L.role b = some r) (out : b ∉ as)
    (other : ∀ i, r ≠ .slot f i) : (L.seat f as).role b = some r := by
  show (if b ∈ as then _ else _) = _
  rw [if_neg out, role]
  cases r with
  | slot f' i =>
    have ne : f' ≠ f := by
      rintro rfl
      exact other i rfl
    simp [ne]
  | _ => rfl

theorem role_seat_of_free {b : Addr} (free : L.role b = none) (out : b ∉ as) :
    (L.seat f as).role b = none := by
  show (if b ∈ as then _ else _) = _
  rw [if_neg out, free]

theorem role_of_seat {b : Addr} {r : Role} (role : (L.seat f as).role b = some r) :
    (b ∈ as ∧ r = .slot f (as.idxOf b)) ∨ b ∉ as ∧ L.role b = some r ∧ ∀ i, r ≠ .slot f i := by
  change (if b ∈ as then _ else _) = some r at role
  split at role
  next mem => exact .inl ⟨mem, (Option.some.inj role).symm⟩
  next out =>
    refine .inr ⟨out, ?_⟩
    split at role
    next f' i eq =>
      split at role
      next => cases role
      next ne =>
        cases role
        refine ⟨eq, ?_⟩
        rintro j same
        cases same
        exact ne rfl
    next other =>
      refine ⟨role, ?_⟩
      rintro i rfl
      exact other _ _ role

/-- Cells that may become slots of a frame: they are slots of it already, or have no role. -/
def Seatable (L : Layout) (h : Heap) (f : Nat) (as : List Addr) : Prop :=
  as.Nodup ∧ ∀ b ∈ as, b < h.size ∧ (L.role b = none ∨ ∃ i, L.role b = some (.slot f i))

theorem Seatable.not_mem (seatable : Seatable L h f as) {b : Addr} {r : Role}
    (role : L.role b = some r) (other : ∀ i, r ≠ .slot f i) : b ∉ as := by
  intro mem
  obtain free | ⟨i, slot⟩ := (seatable.2 b mem).2
  · rw [free] at role
    cases role
  · rw [slot] at role
    exact other i (Option.some.inj role).symm

theorem extends_seat (seatable : Seatable L h' f as) (le : h.size ≤ h'.size)
    (old : ∀ b ∈ as, L.role b = none → n ≤ b)
    (quiet : ∀ b < n, L.role b = none → h'.cell b = h.cell b) :
    Extends n L h (L.seat f as) h' where
  size_le := le
  objects := List.prefix_rfl
  frames := List.prefix_rfl
  fixed b c role := role_seat_of_role role (seatable.not_mem role nofun) nofun
  holders b f next role := role_seat_of_role role (seatable.not_mem role nofun) nofun
  idle b lt free := by
    refine role_seat_of_free free fun mem => ?_
    exact Nat.not_lt_of_le (old b mem free) lt
  quiet := quiet

theorem Layout.Seated.seat_other {f' : Nat} {v w : Value} {slots : Slots} {cells : List Addr}
    (seated : L.Seated h f' v slots cells w) (ne : f' ≠ f) (seatable : Seatable L h' f as)
    (same : ∀ b i, L.role b = some (.slot f' i) → (∀ j, Role.slot f' i ≠ .slot f j) →
      h'.cell b = h.cell b) : (L.seat f as).Seated h' f' v slots cells w := by
  refine seated.mono List.prefix_rfl fun b i role => ?_
  have other : ∀ j, Role.slot f' i ≠ .slot f j := by
    rintro j eq
    cases eq
    exact ne rfl
  exact ⟨role_seat_of_role role (seatable.not_mem role other) other, same b i role other⟩

/-- A frame takes new contents, and nothing else that has a role changes. -/
theorem Mirrors.seat (mirrors : Mirrors P g L σ h) {a : Addr} {w : Value} {slots : Slots}
    (frame : L.frames[f]? = some a) (le : h.size ≤ h'.size)
    (same : ∀ b r, b ≠ a → L.role b = some r → (∀ i, r ≠ .slot f i) → h'.cell b = h.cell b)
    (link : h'.cdr a = h.cdr a) (seatable : Seatable L h' f as)
    (path : Path h' (h'.car a) as w)
    (values : List.Forall₂ L.Means (as.map h'.car) slots.values) (rest : L.Means w slots.rest) :
    Mirrors P g (L.seat f as) (σ.setFrame f slots) h' ∧
      (L.seat f as).Seated h' f (h'.car a) slots as w := by
  have ext : Extends 0 L h (L.seat f as) h' :=
    extends_seat seatable le (fun _ _ _ => Nat.zero_le _) (fun _ lt => absurd lt (Nat.not_lt_zero _))
  have known : f < σ.frames.length := by
    rw [← mirrors.frameCount]
    exact (List.getElem?_eq_some_iff.mp frame).1
  obtain ⟨⟨next, holds⟩, _⟩ := mirrors.frames f a _ frame (List.getElem?_eq_getElem known)
  have seated : (L.seat f as).Seated h' f (h'.car a) slots as w := by
    refine ⟨path, fun i b here => ?_, values, rest⟩
    obtain ⟨lt, eq⟩ := List.getElem?_eq_some_iff.mp here
    rw [role_seat_of_mem (List.mem_of_getElem? here), ← eq, seatable.1.idxOf_getElem]
  refine ⟨⟨fun b r role => ?_, fun b c role => ?_, fun b f' next' role => ?_,
    fun b c code => ext.fixed b c (mirrors.code b c code), mirrors.literals, mirrors.table,
    mirrors.distinct, mirrors.objectCount, ?_, fun id b o here there => ?_,
    fun f' b slots' frame' there => ?_⟩, seated⟩
  · obtain ⟨mem, _⟩ | ⟨_, role, _⟩ := role_of_seat role
    · exact (seatable.2 b mem).1
    · exact Nat.lt_of_lt_of_le (mirrors.owned b r role) le
  · obtain ⟨_, eq⟩ | ⟨_, role, other⟩ := role_of_seat role
    · cases eq
    · have ne : b ≠ a := by
        rintro rfl
        rw [holds] at role
        cases role
      rw [same b _ ne role other, mirrors.fixed b c role]
  · obtain ⟨_, eq⟩ | ⟨_, role, other⟩ := role_of_seat role
    · cases eq
    · have kept := mirrors.links b f' next' role
      by_cases eq : b = a
      · subst eq
        rw [link, kept]
      · rw [Heap.cdr, same b _ eq role other]
        exact kept
  · simp [Layout.seat, Store.setFrame, mirrors.frameCount]
  · obtain ⟨c, role, portrays⟩ := mirrors.objects id b o here there
    exact ⟨c, ext.fixed b c role, portrays.mono ext⟩
  · by_cases eq : f' = f
    · subst eq
      have here : b = a := Option.some.inj (frame'.symm.trans frame)
      subst here
      rw [Store.setFrame, List.getElem?_set_self known] at there
      cases there
      exact ⟨⟨next, ext.holders b f' next holds⟩, as, w, seated⟩
    · rw [Store.setFrame, List.getElem?_set_ne (Ne.symm eq)] at there
      obtain ⟨⟨next', holds'⟩, as', w', seated'⟩ := mirrors.frames f' b slots' frame' there
      have ne : b ≠ a := by
        rintro rfl
        rw [holds] at holds'
        cases holds'
        exact eq rfl
      refine ⟨⟨next', ext.holders b f' next' holds'⟩, as', w', ?_⟩
      have other (i : Nat) : Role.holder f' next' ≠ .slot f i := by simp
      rw [Heap.car, same b _ ne holds' other]
      refine seated'.seat_other eq seatable fun b' i role other => same b' _ ?_ role other
      rintro rfl
      rw [holds] at role
      cases role

end Seat

end Reference

end SecdLisp
