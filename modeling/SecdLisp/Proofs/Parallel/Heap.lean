import SecdLisp.Environment
import SecdLisp.Proofs.Parallel.World

/-!
# The heap on both sides

Corresponding cells are added and changed together, and walks from corresponding values meet
corresponding cells. A walk that is bounded by the size of its heap ends on one side if and only
if it ends on the other.
-/

namespace SecdLisp

namespace Parallel

open World

/-- Two heaps, with symbol tables that stay what they are. -/
structure OnHeaps (left right : SymbolTable) (w : World) (h h' : Heap) : Prop where
  left : w.left = left
  right : w.right = right
  heaps : w.Heaps h h'

variable {left right : SymbolTable} {w w' : World} {h h' : Heap} {v v' u u' : Value} {a b : Addr}

theorem sim_read {α β : Type} {Q : World → α → β → Prop} {f : Heap → α} {g : Heap → β}
    (same : ∀ h h', w.Heaps h h' → Q w (f h) (g h')) :
    Sim (OnHeaps left right) w Q (Heap.read f) (Heap.read g) := by
  intro h h' states
  exact .ok (.refl w) states (same h h' states.heaps)

theorem Heaps.values_grown (heaps : w.Heaps h h') (cars : w.Values v v') (cdrs : w.Values u u')
    (room : h.size < h.capacity) (room' : h'.size < h'.capacity)
    (cells : (w.add h.size h'.size).cells a b) :
    (w.add h.size h'.size).Values ((h.grown ⟨v, u⟩ room).car a) ((h'.grown ⟨v', u'⟩ room').car b) ∧
      (w.add h.size h'.size).Values ((h.grown ⟨v, u⟩ room).cdr a)
        ((h'.grown ⟨v', u'⟩ room').cdr b) := by
  have le := w.within_add h.size h'.size
  rw [Heap.car, Heap.car, Heap.cdr, Heap.cdr]
  rcases cells with cells | ⟨rfl, rfl⟩
  · obtain ⟨lt, lt'⟩ := heaps.owned a b cells
    rw [Heap.cell_grown_of_lt lt, Heap.cell_grown_of_lt lt']
    exact ⟨(heaps.cars a b cells).mono le, (heaps.cdrs a b cells).mono le⟩
  · rw [Heap.cell_grown_size, Heap.cell_grown_size]
    exact ⟨cars.mono le, cdrs.mono le⟩

theorem Heaps.grown (heaps : w.Heaps h h') (cars : w.Values v v') (cdrs : w.Values u u')
    (room : h.size < h.capacity) (room' : h'.size < h'.capacity) :
    (w.add h.size h'.size).Heaps (h.grown ⟨v, u⟩ room) (h'.grown ⟨v', u'⟩ room') := by
  have fresh (b : Addr) : ¬w.cells h.size b := fun cells =>
    Nat.lt_irrefl _ (heaps.owned _ _ cells).1
  have fresh' (a : Addr) : ¬w.cells a h'.size := fun cells =>
    Nat.lt_irrefl _ (heaps.owned _ _ cells).2
  refine ⟨?_, ?_, ?_, fun a b cells => (Heaps.values_grown heaps cars cdrs room room' cells).1,
    fun a b cells => (Heaps.values_grown heaps cars cdrs room room' cells).2, ?_⟩
  · intro a b cells
    rw [Heap.size_grown, Heap.size_grown]
    rcases cells with cells | ⟨rfl, rfl⟩
    · obtain ⟨lt, lt'⟩ := heaps.owned a b cells
      exact ⟨Nat.lt_succ_of_lt lt, Nat.lt_succ_of_lt lt'⟩
    · exact ⟨Nat.lt_succ_self _, Nat.lt_succ_self _⟩
  · intro a a' b first second
    rcases first with first | ⟨rfl, rfl⟩ <;> rcases second with second | ⟨rfl, eq⟩
    · exact heaps.injective a a' b first second
    · subst eq
      exact (fresh' _ first).elim
    · exact (fresh' _ second).elim
    · rfl
  · intro a b b' first second
    rcases first with first | ⟨rfl, rfl⟩ <;> rcases second with second | ⟨eq, rfl⟩
    · exact heaps.functional a b b' first second
    · subst eq
      exact (fresh _ first).elim
    · exact (fresh _ second).elim
    · rfl
  · intro exact
    obtain ⟨rfl, tables, same⟩ := heaps.exact exact
    obtain rfl := cars.eq_of_exact heaps exact
    obtain rfl := cdrs.eq_of_exact heaps exact
    refine ⟨rfl, tables, ?_⟩
    intro a b
    show w.cells a b ∨ a = h.size ∧ b = h.size ↔ _
    rw [same, Heap.size_grown, Nat.lt_succ_iff_lt_or_eq]
    constructor
    · rintro (⟨rfl, lt⟩ | ⟨rfl, rfl⟩)
      · exact ⟨rfl, .inl lt⟩
      · exact ⟨rfl, .inr rfl⟩
    · rintro ⟨rfl, lt | rfl⟩
      · exact .inl ⟨rfl, lt⟩
      · exact .inr ⟨rfl, rfl⟩

theorem sim_alloc (cars : w.Values v v') (cdrs : w.Values u u') :
    Sim (OnHeaps left right) w World.cells (Heap.alloc v u) (Heap.alloc v' u') := by
  intro h h' states
  have same (exact : w.exact) : h = h' := (states.heaps.exact exact).1
  rw [Heap.alloc_eq, Heap.alloc_eq]
  by_cases room : h.size < h.capacity
  · by_cases room' : h'.size < h'.capacity
    · rw [dif_pos room, dif_pos room']
      have heaps := Heaps.grown states.heaps cars cdrs room room'
      exact .ok (w.within_add _ _) ⟨states.left, states.right, heaps⟩ (.inr ⟨rfl, rfl⟩)
    · rw [dif_neg room']
      refine .rightFull fun exact => ?_
      rw [same exact] at room
      exact room' room
  · rw [dif_neg room]
    by_cases room' : h'.size < h'.capacity
    · refine .leftFull fun exact => ?_
      rw [same exact] at room
      exact room room'
    · rw [dif_neg room']
      exact .error (.refl w) states (.other rfl)

theorem sim_cons (cars : w.Values v v') (cdrs : w.Values u u') :
    Sim (OnHeaps left right) w World.Values (Heap.cons v u) (Heap.cons v' u') :=
  (sim_alloc cars cdrs).bind fun _ _ _ _ cells => .pure (.pair cells)

structure World.Cells (w : World) (c c' : Cell) : Prop where
  car : w.Values c.car c'.car
  cdr : w.Values c.cdr c'.cdr

theorem sim_update {f f' : Cell → Cell} (cells : w.cells a b)
    (change : ∀ c c', World.Cells w c c' → World.Cells w (f c) (f' c'))
    (same : ∀ h h', w.Heaps h h' → w.exact → f = f') :
    Sim (OnHeaps left right) w (fun _ _ _ => True) (Heap.update a f) (Heap.update b f') := by
  intro h h' states
  rw [Heap.update_eq, Heap.update_eq]
  have heaps := states.heaps
  obtain ⟨lt, lt'⟩ := heaps.owned a b cells
  have new (a' b' : Addr) (cells' : w.cells a' b') :
      World.Cells w ((h.updated a f).cell a') ((h'.updated b f').cell b') := by
    have old : World.Cells w (h.cell a') (h'.cell b') :=
      ⟨heaps.cars a' b' cells', heaps.cdrs a' b' cells'⟩
    by_cases eq : a' = a
    · subst eq
      obtain rfl := heaps.functional _ _ _ cells' cells
      rw [Heap.cell_updated_self lt, Heap.cell_updated_self lt']
      exact change _ _ old
    · have ne : b' ≠ b := by
        rintro rfl
        exact eq (heaps.injective _ _ _ cells' cells)
      rw [Heap.cell_updated_of_ne eq, Heap.cell_updated_of_ne ne]
      exact old
  refine .ok (.refl w) ⟨states.left, states.right, ?_, heaps.injective, heaps.functional,
    fun a' b' cells' => (new a' b' cells').car, fun a' b' cells' => (new a' b' cells').cdr, ?_⟩
    trivial
  · intro a' b' cells'
    rw [Heap.size_updated, Heap.size_updated]
    exact heaps.owned a' b' cells'
  · intro exact
    obtain ⟨rfl, tables, eq⟩ := heaps.exact exact
    rw [((eq a b).mp cells).1, same h h heaps exact]
    refine ⟨rfl, tables, ?_⟩
    rwa [Heap.size_updated]

theorem sim_setCar (cells : w.cells a b) (values : w.Values v v') :
    Sim (OnHeaps left right) w (fun _ _ _ => True) (Heap.setCar a v) (Heap.setCar b v') := by
  refine sim_update cells (fun c c' both => ⟨values, both.cdr⟩) fun h h' heaps exact => ?_
  rw [values.eq_of_exact heaps exact]

theorem sim_setCdr (cells : w.cells a b) (values : w.Values v v') :
    Sim (OnHeaps left right) w (fun _ _ _ => True) (Heap.setCdr a v) (Heap.setCdr b v') := by
  refine sim_update cells (fun c c' both => ⟨both.car, values⟩) fun h h' heaps exact => ?_
  rw [values.eq_of_exact heaps exact]

theorem sim_listWithTail {vs vs' : List Value} (items : List.Forall₂ w.Values vs vs')
    (tail : w.Values v v') :
    Sim (OnHeaps left right) w World.Values (Heap.listWithTail vs v) (Heap.listWithTail vs' v') :=
  Sim.foldrM items (fun _ _ _ le values => values.mono le) tail
    fun _ _ _ _ _ _ cars cdrs => sim_cons cars cdrs

theorem sim_list {vs vs' : List Value} (items : List.Forall₂ w.Values vs vs') :
    Sim (OnHeaps left right) w World.Values (Heap.list vs) (Heap.list vs') :=
  sim_listWithTail items .nil

def World.swap (w : World) : World := ⟨fun a b => w.cells b a, w.right, w.left, w.exact⟩

theorem World.Values.swap (values : w.Values v v') : w.swap.Values v' v := by
  cases values with
  | nil => exact .nil
  | truth => exact .truth
  | int n => exact .int n
  | ident names => exact .ident ⟨names.right, names.left, names.same.symm⟩
  | op o => exact .op o
  | pair cells => exact .pair cells

theorem World.Heaps.swap (heaps : w.Heaps h h') : w.swap.Heaps h' h where
  owned a b cells := (heaps.owned b a cells).symm
  injective a a' b first second := heaps.functional b a a' first second
  functional a b b' first second := heaps.injective b b' a first second
  cars a b cells := (heaps.cars b a cells).swap
  cdrs a b cells := (heaps.cdrs b a cells).swap
  exact exact := by
    obtain ⟨rfl, tables, same⟩ := heaps.exact exact
    refine ⟨rfl, tables.symm, ?_⟩
    intro a b
    show w.cells b a ↔ _
    rw [same]
    constructor <;> rintro ⟨rfl, lt⟩ <;> exact ⟨rfl, lt⟩

theorem World.Heaps.spine (heaps : w.Heaps h h') {as : List Addr} (values : w.Values v v')
    (spine : h.Spine v as) : ∃ bs, h'.Spine v' bs ∧ List.Forall₂ w.cells as bs := by
  induction spine generalizing v' with
  | nil =>
    cases values
    exact ⟨[], .nil, .nil⟩
  | @cons a as owned rest ih =>
    cases values with
    | @pair _ b cells =>
      obtain ⟨bs, spine, all⟩ := ih (heaps.cdrs a b cells)
      exact ⟨b :: bs, .cons (heaps.owned a b cells).2 spine, .cons cells all⟩

theorem World.Heaps.spine_of_collect (heaps : w.Heaps h h') {fuel : Nat} {acc vs : List Value}
    (values : w.Values v v') (some : h.collect fuel v acc = some vs) :
    ∃ as, h.Spine v as ∧ vs = acc.reverse ++ as.map h.car := by
  induction fuel generalizing v v' acc with
  | zero =>
    cases v <;> simp [Heap.collect] at some
    exact ⟨[], .nil, by simp [some]⟩
  | succ fuel ih =>
    cases values <;> simp [Heap.collect] at some
    · exact ⟨[], .nil, by simp [some]⟩
    · next a b cells =>
      obtain ⟨as, spine, rfl⟩ := ih (heaps.cdrs a b cells) some
      exact ⟨a :: as, .cons (heaps.owned a b cells).1 spine, by simp⟩

theorem forall₂_map_car (heaps : w.Heaps h h') {as bs : List Addr}
    (cells : List.Forall₂ w.cells as bs) :
    List.Forall₂ w.Values (as.map h.car) (bs.map h'.car) := by
  induction cells with
  | nil => exact .nil
  | cons first _ ih => exact .cons (heaps.cars _ _ first) ih

theorem World.Heaps.lists (heaps : w.Heaps h h') (values : w.Values v v') {vs : List Value}
    (list : h.toList? v = some vs) :
    ∃ vs', h'.toList? v' = some vs' ∧ List.Forall₂ w.Values vs vs' := by
  obtain ⟨as, spine, rfl⟩ := heaps.spine_of_collect values list
  obtain ⟨bs, spine', cells⟩ := heaps.spine values spine
  exact ⟨_, Heap.toList?_of_spine spine', forall₂_map_car heaps cells⟩

theorem World.Heaps.toList? (heaps : w.Heaps h h') (values : w.Values v v') :
    Option.Rel (List.Forall₂ w.Values) (h.toList? v) (h'.toList? v') := by
  cases here : h.toList? v with
  | some vs =>
    obtain ⟨vs', there, all⟩ := heaps.lists values here
    rw [there]
    exact .some all
  | none =>
    cases there : h'.toList? v' with
    | none => exact .none
    | some vs' =>
      obtain ⟨vs, found, _⟩ := heaps.swap.lists values.swap there
      rw [here] at found
      cases found

theorem World.Heaps.cellAfter? (heaps : w.Heaps h h') (cells : w.cells a b) (steps : Nat) :
    Option.Rel w.cells (h.cellAfter? steps a) (h'.cellAfter? steps b) := by
  induction steps generalizing a b with
  | zero => exact .some cells
  | succ steps ih =>
    have next := heaps.cdrs a b cells
    rw [Heap.cellAfter?, Heap.cellAfter?]
    generalize h.cdr a = v at next ⊢
    generalize h'.cdr b = v' at next ⊢
    cases next with
    | pair cells => exact ih cells
    | _ => exact .none

theorem World.Heaps.nthCell? (heaps : w.Heaps h h') (values : w.Values v v') (n : Nat) :
    Option.Rel w.cells (h.nthCell? v n) (h'.nthCell? v' n) := by
  cases values with
  | pair cells => exact heaps.cellAfter? cells (n - 1)
  | _ => exact .none

theorem World.Heaps.frameHolder? (heaps : w.Heaps h h') (values : w.Values v v') (depth : Nat) :
    Option.Rel w.cells (h.frameHolder? v depth) (h'.frameHolder? v' depth) := by
  rw [Heap.frameHolder?, Heap.frameHolder?]
  split
  · exact .none
  · exact heaps.nthCell? values depth

theorem rel_bind {α β γ δ : Type} {R : α → β → Prop} {S : γ → δ → Prop} {x : Option α}
    {y : Option β} {f : α → Option γ} {g : β → Option δ} (rel : Option.Rel R x y)
    (next : ∀ a b, R a b → Option.Rel S (f a) (g b)) : Option.Rel S (x.bind f) (y.bind g) := by
  cases rel with
  | none => exact .none
  | some here => exact next _ _ here

theorem World.Heaps.lookup? (heaps : w.Heaps h h') (values : w.Values v v') (depth index : Nat) :
    Option.Rel w.Values (h.lookup? v depth index) (h'.lookup? v' depth index) := by
  rw [Heap.lookup?, Heap.lookup?]
  split
  · exact .none
  · refine rel_bind (heaps.frameHolder? values depth) fun a b cells => ?_
    rw [Option.map_eq_bind, Option.map_eq_bind]
    refine rel_bind (heaps.nthCell? (heaps.cars a b cells) index) fun c d cells => ?_
    exact .some (heaps.cars c d cells)

theorem World.Heaps.dropCells? (heaps : w.Heaps h h') (values : w.Values v v') (steps : Nat) :
    Option.Rel w.Values (h.dropCells? steps v) (h'.dropCells? steps v') := by
  induction steps generalizing v v' with
  | zero => exact .some values
  | succ steps ih =>
    cases values with
    | pair cells => exact ih (heaps.cdrs _ _ cells)
    | _ => exact .none

theorem World.Heaps.lookupRest? (heaps : w.Heaps h h') (values : w.Values v v')
    (depth index : Nat) :
    Option.Rel w.Values (h.lookupRest? v depth index) (h'.lookupRest? v' depth index) := by
  rw [Heap.lookupRest?, Heap.lookupRest?]
  split
  · exact .none
  · exact rel_bind (heaps.frameHolder? values depth) fun a b cells =>
      heaps.dropCells? (heaps.cars a b cells) (index - 1)

theorem sim_follow {relink relink' : Value → HeapM Unit} (values : w.Values v v')
    (relinked : ∀ w' u u', w.Within w' → w'.Values u u' →
      Sim (OnHeaps left right) w' (fun _ _ _ => True) (relink u) (relink' u')) :
    Sim (OnHeaps left right) w (fun w' => Option.Rel w'.cells) (Heap.follow v relink)
      (Heap.follow v' relink') := by
  cases values with
  | pair cells => exact .pure (.some cells)
  | nil =>
    refine (sim_alloc .nil .nil).bind fun w' a b le cells => ?_
    refine (relinked w' _ _ le (.pair cells)).bind fun w'' _ _ le' _ => ?_
    exact .pure (.some (le'.cells _ _ cells))
  | _ => exact .pure .none

theorem sim_extendTo (cells : w.cells a b) (steps : Nat) :
    Sim (OnHeaps left right) w (fun w' => Option.Rel w'.cells) (Heap.extendTo steps a)
      (Heap.extendTo steps b) := by
  induction steps generalizing w a b with
  | zero => exact .pure (.some cells)
  | succ steps ih =>
    rw [Heap.extendTo, Heap.extendTo]
    have link : Sim (OnHeaps left right) w World.Values (Heap.read (·.cdr a))
        (Heap.read (·.cdr b)) := sim_read fun h h' heaps => heaps.cdrs a b cells
    refine link.bind fun w₁ v v' le₁ values => ?_
    have next : Sim (OnHeaps left right) w₁ (fun w' => Option.Rel w'.cells)
        (Heap.follow v (Heap.setCdr a)) (Heap.follow v' (Heap.setCdr b)) :=
      sim_follow values fun w' u u' le values =>
        sim_setCdr (le.cells _ _ (le₁.cells _ _ cells)) values
    refine next.bind fun w₂ x y le₂ found => ?_
    cases found with
    | none => exact .pure .none
    | some cells => exact ih cells

theorem sim_store (env : w.Values v v') (values : w.Values u u') (depth index : Nat) :
    Sim (OnHeaps left right) w (fun _ => Eq) (Heap.store v depth index u)
      (Heap.store v' depth index u') := by
  unfold Heap.store
  by_cases zero : index = 0
  · rw [if_pos zero, if_pos zero]
    exact .pure rfl
  · rw [if_neg zero, if_neg zero]
    have found : Sim (OnHeaps left right) w (fun w' => Option.Rel w'.cells)
        (Heap.read (·.frameHolder? v depth)) (Heap.read (·.frameHolder? v' depth)) :=
      sim_read fun h h' heaps => heaps.frameHolder? env depth
    refine found.bind fun w₁ x y le₁ holder => ?_
    cases holder with
    | none => exact .pure rfl
    | @some a b cells =>
      have list : Sim (OnHeaps left right) w₁ World.Values (Heap.read (·.car a))
          (Heap.read (·.car b)) := sim_read fun h h' heaps => heaps.cars a b cells
      refine list.bind fun w₂ u₁ u₂ le₂ cars => ?_
      have first : Sim (OnHeaps left right) w₂ (fun w' => Option.Rel w'.cells)
          (Heap.follow u₁ (Heap.setCar a)) (Heap.follow u₂ (Heap.setCar b)) :=
        sim_follow cars fun w' u u' le values =>
          sim_setCar (le.cells _ _ (le₂.cells _ _ cells)) values
      refine first.bind fun w₃ x y le₃ start => ?_
      cases start with
      | none => exact .pure rfl
      | some cells =>
        refine (sim_extendTo cells (index - 1)).bind fun w₄ x y le₄ target => ?_
        cases target with
        | none => exact .pure rfl
        | some cells =>
          have values := (((values.mono le₁).mono le₂).mono le₃).mono le₄
          exact (sim_setCar cells values).bind fun _ _ _ _ _ => .pure rfl

end Parallel

end SecdLisp
