import SecdLisp.Proofs.Continuation.Front

/-!
# The heap in front of two continuations

Cells are added and changed on both sides alike. Lists and environments that lie outside of the code
are the same on both sides, wherever they are followed to.
-/

namespace SecdLisp

namespace Front

variable {f f' : Front} {writes : Bool} {k k' v u c c' : Value} {a b : Addr} {h h' : Heap} {α : Type}
  {p : Front → α → Prop} {words vs : List Value}

theorem steps_alloc (word : f.Outside v) (codes : Codes k k' f writes c c') :
    Steps (Twins k k') writes f (fun f a b => Codes k k' f writes (.pair a) (.pair b))
      (Heap.alloc v c) (Heap.alloc v c') := by
  intro h h' twins
  rw [Heap.alloc_eq, Heap.alloc_eq]
  by_cases room : h.size < h.capacity
  · have room' : h'.size < h'.capacity := by
      rw [twins.size_eq, twins.capacity]
      exact room
    have new : h.size ∉ f.cells := fun mem =>
      Nat.lt_irrefl _ (Nat.lt_of_lt_of_le (twins.owned _ mem) (Nat.le_of_eq twins.size.symm))
    have puts := puts_grown h ⟨v, c⟩ room
    have puts' : Puts h.size ⟨v, c'⟩ h' (h'.grown ⟨v, c'⟩ room') :=
      twins.size_eq ▸ puts_grown h' ⟨v, c'⟩ room'
    have le : f.size ≤ h.size := Nat.le_of_eq twins.size.symm
    rw [dif_pos room, dif_pos room', twins.size_eq]
    refine .ok (moves_put (Nat.le_trans le puts.size_le) fun _ => le)
      (twins.put puts puts' ?_ new (fun _ => le) word codes) ?_
    · rw [Heap.size_grown, Heap.size_grown, twins.size_eq]
    · cases codes with
      | front => exact .front
      | apart => exact .apart (outside_pair_iff.mpr ⟨puts.lt, new⟩)
  · have full : ¬h'.size < h'.capacity := by
      rw [twins.size_eq, twins.capacity]
      exact room
    rw [dif_neg room, dif_neg full]
    exact .error (.refl writes f) twins

theorem blind_alloc (car : f.Outside v) (cdr : f.Outside u) :
    Blind (Twins k k') f (fun f a => f.Outside (.pair a)) (Heap.alloc v u) := by
  refine (steps_alloc car (.apart cdr)).mono fun f' a b codes => ?_
  obtain ⟨eq, outside⟩ := codes_apart_iff.mp codes
  exact ⟨Value.pair.inj eq, outside⟩

theorem blind_update {change : Cell → Cell} (here : f.Outside (.pair a))
    (car : ∀ cell : Cell, f.Outside cell.car → f.Outside cell.cdr → f.Outside (change cell).car)
    (cdr : ∀ cell : Cell, f.Outside cell.car → f.Outside cell.cdr → f.Outside (change cell).cdr) :
    Blind (Twins k k') f (fun _ _ => True) (Heap.update a change) := by
  intro h h' twins
  obtain ⟨lt, out⟩ := outside_pair_iff.mp here
  obtain ⟨first, second⟩ := twins.halves here
  have puts := puts_updated (twins.size ▸ lt) change
  have puts' : Puts a (change (h.cell a)) h' (h'.updated a change) :=
    twins.cell_eq out ▸ puts_updated (twins.size' ▸ lt) change
  have size : (h'.updated a change).size = (h.updated a change).size := by
    rw [Heap.size_updated, Heap.size_updated, twins.size_eq]
  rw [Heap.update_eq, Heap.update_eq]
  exact .ok (moves_put (twins.size ▸ puts.size_le) nofun)
    (twins.put puts puts' size out nofun (car _ first second) (.apart (cdr _ first second)))
    ⟨rfl, trivial⟩

theorem blind_setCar (here : f.Outside (.pair a)) (value : f.Outside v) :
    Blind (Twins k k') f (fun _ _ => True) (Heap.setCar a v) :=
  blind_update here (fun _ _ _ => value) fun _ _ cdr => cdr

theorem blind_setCdr (here : f.Outside (.pair a)) (value : f.Outside v) :
    Blind (Twins k k') f (fun _ _ => True) (Heap.setCdr a v) :=
  blind_update here (fun _ car _ => car) fun _ _ _ => value

theorem blind_read {look : Heap → α}
    (same : ∀ h h', Twins k k' f h h' → look h' = look h ∧ p f (look h)) :
    Blind (Twins k k') f p (Heap.read look) :=
  fun h h' twins => .ok (.refl _ f) twins (same h h' twins)

theorem steps_cons (word : f.Outside v) (codes : Codes k k' f writes c c') :
    Steps (Twins k k') writes f (fun f => Codes k k' f writes) (Heap.cons v c) (Heap.cons v c') :=
  (steps_alloc word codes).bind fun _ _ _ _ codes => steps_pure codes

theorem steps_listWithTail (items : ∀ v ∈ words, f.Outside v) (codes : Codes k k' f writes c c') :
    Steps (Twins k k') writes f (fun f => Codes k k' f writes) (Heap.listWithTail words c)
      (Heap.listWithTail words c') := by
  unfold Heap.listWithTail
  induction words with
  | nil => exact steps_pure codes
  | cons word words ih =>
    rw [List.forall_mem_cons] at items
    rw [List.foldrM_cons, List.foldrM_cons]
    exact (ih items.2).bind fun f' d d' moves codes => steps_cons (items.1.later moves) codes

theorem blind_cons (car : f.Outside v) (cdr : f.Outside u) :
    Blind (Twins k k') f Outside (Heap.cons v u) :=
  (steps_cons car (.apart cdr)).mono fun _ _ _ => codes_apart_iff.mp

theorem blind_listWithTail (items : ∀ v ∈ vs, f.Outside v) (tail : f.Outside v) :
    Blind (Twins k k') f Outside (Heap.listWithTail vs v) :=
  (steps_listWithTail items (.apart tail)).mono fun _ _ _ => codes_apart_iff.mp

theorem blind_list (items : ∀ v ∈ vs, f.Outside v) :
    Blind (Twins k k') f Outside (Heap.list vs) := blind_listWithTail items outside_nil

namespace Twins

variable (twins : Twins k k' f h h')

include twins

theorem carOf? (outside : f.Outside v) :
    h'.carOf? v = h.carOf? v ∧ ∀ u, h.carOf? v = some u → f.Outside u := by
  cases v with
  | pair a =>
    constructor
    · exact congrArg some (twins.car a)
    · intro u eq
      exact Option.some.inj eq ▸ (twins.halves outside).1
  | _ => exact ⟨rfl, nofun⟩

theorem cdrOf? (outside : f.Outside v) :
    h'.cdrOf? v = h.cdrOf? v ∧ ∀ u, h.cdrOf? v = some u → f.Outside u := by
  cases v with
  | pair a =>
    constructor
    · exact congrArg some (twins.cdr a (outside a rfl).2)
    · intro u eq
      exact Option.some.inj eq ▸ (twins.halves outside).2
  | _ => exact ⟨rfl, nofun⟩

theorem collect (fuel : Nat) (outside : f.Outside v) (acc : List Value) :
    h'.collect fuel v acc = h.collect fuel v acc := by
  induction fuel generalizing v acc with
  | zero => cases v <;> rfl
  | succ fuel ih =>
    cases v with
    | pair a =>
      rw [Heap.collect, Heap.collect, twins.car, twins.cdr a (outside a rfl).2]
      exact ih (twins.halves outside).2 _
    | _ => rfl

theorem toList? (outside : f.Outside v) :
    h'.toList? v = h.toList? v ∧ ∀ vs, h.toList? v = some vs → ∀ u ∈ vs, f.Outside u := by
  constructor
  · rw [Heap.toList?, Heap.toList?, twins.size_eq]
    exact twins.collect h.size outside []
  · exact fun vs => Heap.forall_toList? (fun a => twins.halves) outside

theorem cellAfter? (n : Nat) (outside : f.Outside (.pair a)) : h'.cellAfter? n a = h.cellAfter? n a ∧
    Machine.Finds f.Outside (h.cellAfter? n a) := by
  induction n generalizing a with
  | zero =>
    constructor
    · rfl
    · intro b eq
      exact Option.some.inj eq ▸ outside
  | succ n ih =>
    have next := (twins.halves outside).2
    rw [Heap.cellAfter?, Heap.cellAfter?, twins.cdr a (outside a rfl).2]
    cases link : h.cdr a with
    | pair b => exact ih (link ▸ next)
    | _ => exact ⟨rfl, Machine.finds_none⟩

theorem nthCell? (n : Nat) (outside : f.Outside v) : h'.nthCell? v n = h.nthCell? v n ∧
    Machine.Finds f.Outside (h.nthCell? v n) := by
  cases v with
  | pair a => exact twins.cellAfter? (n - 1) outside
  | _ => exact ⟨rfl, Machine.finds_none⟩

theorem frameHolder? (depth : Nat) (env : f.Outside v) :
    h'.frameHolder? v depth = h.frameHolder? v depth ∧
      Machine.Finds f.Outside (h.frameHolder? v depth) := by
  unfold Heap.frameHolder?
  split
  · exact ⟨rfl, Machine.finds_none⟩
  · exact twins.nthCell? depth env

theorem lookup? (depth index : Nat) (env : f.Outside v) :
    h'.lookup? v depth index = h.lookup? v depth index ∧
      ∀ u, h.lookup? v depth index = some u → f.Outside u := by
  obtain ⟨same, found⟩ := twins.frameHolder? depth env
  unfold Heap.lookup?
  rw [same]
  split
  · exact ⟨rfl, nofun⟩
  cases here : h.frameHolder? v depth with
  | none => exact ⟨rfl, nofun⟩
  | some holder =>
    obtain ⟨same, found⟩ := twins.nthCell? index (twins.halves (found holder here)).1
    simp only [Option.bind_some, twins.car, same]
    constructor
    · cases h.nthCell? (h.car holder) index with
      | none => rfl
      | some a => exact congrArg some (twins.car a)
    · intro u eq
      obtain ⟨a, inside, rfl⟩ := Option.map_eq_some_iff.mp eq
      exact (twins.halves (found a inside)).1

theorem dropCells? (n : Nat) (outside : f.Outside v) : h'.dropCells? n v = h.dropCells? n v ∧
    ∀ u, h.dropCells? n v = some u → f.Outside u := by
  induction n generalizing v with
  | zero =>
    constructor
    · rfl
    · intro u eq
      exact Option.some.inj eq ▸ outside
  | succ n ih =>
    cases v with
    | pair a =>
      rw [Heap.dropCells?, Heap.dropCells?, twins.cdr a (outside a rfl).2]
      exact ih (twins.halves outside).2
    | _ => exact ⟨rfl, nofun⟩

theorem lookupRest? (depth index : Nat) (env : f.Outside v) :
    h'.lookupRest? v depth index = h.lookupRest? v depth index ∧
      ∀ u, h.lookupRest? v depth index = some u → f.Outside u := by
  obtain ⟨same, found⟩ := twins.frameHolder? depth env
  unfold Heap.lookupRest?
  rw [same]
  split
  · exact ⟨rfl, nofun⟩
  cases here : h.frameHolder? v depth with
  | none => exact ⟨rfl, nofun⟩
  | some holder =>
    simp only [Option.bind_some, twins.car]
    exact twins.dropCells? (index - 1) (twins.halves (found holder here)).1

end Twins

theorem blind_follow {relink : Value → HeapM Unit} (link : f.Outside v)
    (links : ∀ f' u, f.Moves false f' → f'.Outside u →
      Blind (Twins k k') f' (fun _ _ => True) (relink u)) :
    Blind (Twins k k') f (fun f => Machine.Finds f.Outside) (Heap.follow v relink) := by
  cases v with
  | pair a =>
    refine blind_pure fun b eq => ?_
    exact Option.some.inj eq ▸ link
  | nil =>
    refine (blind_alloc outside_nil outside_nil).bind fun f₁ a moves new => ?_
    refine (links f₁ _ moves new).bind fun f₂ _ moves _ => ?_
    refine blind_pure fun b eq => ?_
    exact Option.some.inj eq ▸ new.later moves
  | _ => exact blind_pure nofun

theorem blind_extendTo (n : Nat) (here : f.Outside (.pair a)) :
    Blind (Twins k k') f (fun f => Machine.Finds f.Outside) (Heap.extendTo n a) := by
  induction n generalizing f a with
  | zero =>
    refine blind_pure fun b eq => ?_
    exact Option.some.inj eq ▸ here
  | succ n ih =>
    have link : Blind (Twins k k') f Outside (Heap.read (·.cdr a)) :=
      blind_read fun h h' twins => ⟨twins.cdr a (here a rfl).2, (twins.halves here).2⟩
    refine link.bind fun f₁ v moves link => ?_
    have here := here.later moves
    refine (blind_follow link fun f₂ u moves value => ?_).bind fun f₂ next _ found => ?_
    · exact blind_setCdr (here.later moves) value
    · cases next with
      | none => exact blind_pure nofun
      | some b => exact ih (found b rfl)

theorem blind_store (depth index : Nat) (env : f.Outside u) (value : f.Outside v) :
    Blind (Twins k k') f (fun _ _ => True) (Heap.store u depth index v) := by
  unfold Heap.store
  split
  · exact blind_pure trivial
  have find : Blind (Twins k k') f (fun f => Machine.Finds f.Outside)
      (Heap.read (·.frameHolder? u depth)) :=
    blind_read fun h h' twins => twins.frameHolder? depth env
  refine find.bind fun f₁ holder moves found => ?_
  have value := value.later moves
  cases holder with
  | none => exact blind_pure trivial
  | some holder =>
    have here : f₁.Outside (.pair holder) := found holder rfl
    have link : Blind (Twins k k') f₁ Outside (Heap.read (·.car holder)) :=
      blind_read fun h h' twins => ⟨twins.car holder, (twins.halves here).1⟩
    refine link.bind fun f₂ first moves link => ?_
    have here := here.later moves
    have value := value.later moves
    refine (blind_follow link fun f₃ w moves value => ?_).bind fun f₃ first moves found => ?_
    · exact blind_setCar (here.later moves) value
    have value := value.later moves
    cases first with
    | none => exact blind_pure trivial
    | some first =>
      refine (blind_extendTo (index - 1) (found first rfl)).bind fun f₄ target moves found => ?_
      have value := value.later moves
      cases target with
      | none => exact blind_pure trivial
      | some target =>
        exact (blind_setCar (found target rfl) value).bind fun _ _ _ _ => blind_pure trivial

end Front

end SecdLisp
