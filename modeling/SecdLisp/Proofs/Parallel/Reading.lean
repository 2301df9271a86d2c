import SecdLisp.Proofs.Parallel.Heap
import SecdLisp.Text.Form

/-!
# The reader on both sides

One text is read as corresponding forms. What is read is made of new cells, each of which only
refers to older ones; so a template nests no deeper than there are cells, and the different
sizes of the heaps make no difference to its expansion.
-/

namespace SecdLisp

namespace Parallel

open World

variable {base base' : Nat} {left right : SymbolTable} {w w' : World} {h h' : Heap}
  {v v' u u' : Value}

/-- A value that refers, if to anything, to a cell from `base` on and below `a`. -/
def Low (base a : Nat) (v : Value) : Prop := ∀ b : Nat, v = .pair b → base ≤ b ∧ b < a

/-- From `base` on, cells refer to older ones only. -/
structure Descends (base : Nat) (h : Heap) : Prop where
  start : base ≤ h.size
  cars : ∀ a : Nat, base ≤ a → a < h.size → Low base a (h.car a)
  cdrs : ∀ a : Nat, base ≤ a → a < h.size → Low base a (h.cdr a)

structure OnFresh (base base' : Nat) (left right : SymbolTable) (w : World) (h h' : Heap) :
    Prop where
  heaps : OnHeaps left right w h h'
  first : Descends base h
  second : Descends base' h'

/-- Corresponding values that refer to new cells only. -/
structure World.Fresh (base base' : Nat) (w : World) (v v' : Value) : Prop where
  values : w.Values v v'
  left : ∀ a : Nat, v = .pair a → base ≤ a
  right : ∀ a : Nat, v' = .pair a → base' ≤ a

theorem World.Fresh.mono (fresh : w.Fresh base base' v v') (le : w.Within w') :
    w'.Fresh base base' v v' := ⟨fresh.values.mono le, fresh.left, fresh.right⟩

theorem fresh_of_atom (values : w.Values v v') (atom : v.isPair = false) :
    w.Fresh base base' v v' := by
  refine ⟨values, ?_, ?_⟩
  · rintro a rfl
    cases atom
  · rintro a rfl
    rw [values.isPair_eq] at atom
    cases atom

theorem Descends.grown (descends : Descends base h) {room : h.size < h.capacity}
    (car : Low base h.size v) (cdr : Low base h.size u) :
    Descends base (h.grown ⟨v, u⟩ room) := by
  have old (a : Nat) (low : base ≤ a) (lt : a < (h.grown ⟨v, u⟩ room).size) :
      a < h.size ∧ (h.grown ⟨v, u⟩ room).cell a = h.cell a ∨
        a = h.size ∧ (h.grown ⟨v, u⟩ room).cell a = ⟨v, u⟩ := by
    rw [Heap.size_grown] at lt
    by_cases here : a = h.size
    · subst here
      exact .inr ⟨rfl, Heap.cell_grown_size ..⟩
    · exact .inl ⟨by omega, Heap.cell_grown_of_ne here⟩
  refine ⟨?_, ?_, ?_⟩
  · rw [Heap.size_grown]
    exact Nat.le_succ_of_le descends.start
  · intro a low lt
    rw [Heap.car]
    rcases old a low lt with ⟨lt, cell⟩ | ⟨rfl, cell⟩ <;> rw [cell]
    · exact descends.cars a low lt
    · exact car
  · intro a low lt
    rw [Heap.cdr]
    rcases old a low lt with ⟨lt, cell⟩ | ⟨rfl, cell⟩ <;> rw [cell]
    · exact descends.cdrs a low lt
    · exact cdr

theorem World.Heaps.low (heaps : w.Heaps h h') (fresh : w.Fresh base base' v v') :
    Low base h.size v ∧ Low base' h'.size v' := by
  obtain ⟨values, above, above'⟩ := fresh
  cases values with
  | @pair a b cells =>
    obtain ⟨lt, lt'⟩ := heaps.owned a b cells
    refine ⟨?_, ?_⟩
    · rintro c eq
      cases eq
      exact ⟨above a rfl, lt⟩
    · rintro c eq
      cases eq
      exact ⟨above' b rfl, lt'⟩
  | _ => exact ⟨nofun, nofun⟩

theorem Descends.ends_cons (descends : Descends base h) (car : Low base h.size v)
    (cdr : Low base h.size u) :
    Ends (Heap.cons v u) h
      (fun v h => Descends base h ∧ ∀ a : Nat, v = .pair a → base ≤ a)
      (fun _ h => Descends base h) := by
  rw [Heap.ends_cons]
  refine ⟨?_, fun _ => descends⟩
  intro room
  refine ⟨descends.grown car cdr, ?_⟩
  intro a eq
  cases eq
  exact descends.start

theorem sim_freshCons (car : w.Fresh base base' v v') (cdr : w.Fresh base base' u u') :
    Sim (OnFresh base base' left right) w (World.Fresh base base') (Heap.cons v u)
      (Heap.cons v' u') := by
  intro h h' states
  obtain ⟨lowCar, lowCar'⟩ := states.heaps.heaps.low car
  obtain ⟨lowCdr, lowCdr'⟩ := states.heaps.heaps.low cdr
  have made : Sim (OnHeaps left right) w World.Values (Heap.cons v u) (Heap.cons v' u') :=
    sim_cons car.values cdr.values
  have agree := made h h' states.heaps
  refine agree.and_ends (states.first.ends_cons lowCar lowCdr)
    (states.second.ends_cons lowCar' lowCdr') ?_ fun _ _ _ heaps first second =>
      ⟨heaps, first, second⟩
  intro w' a b s t heaps values first second
  exact ⟨⟨heaps, first.1, second.1⟩, values, first.2, second.2⟩

theorem sim_freshList {vs vs' : List Value}
    (items : List.Forall₂ (w.Fresh base base') vs vs') :
    Sim (OnFresh base base' left right) w (World.Fresh base base') (Heap.list vs)
      (Heap.list vs') :=
  Sim.foldrM items (fun _ _ _ le fresh => fresh.mono le) (fresh_of_atom .nil rfl)
    fun _ _ _ _ _ _ car cdr => sim_freshCons car cdr

theorem sim_freshRead {α β : Type} {Q : World → α → β → Prop} {f : Heap → α} {g : Heap → β}
    (same : ∀ h h', OnFresh base base' left right w h h' → Q w (f h) (g h')) :
    Sim (OnFresh base base' left right) w Q (Heap.read f) (Heap.read g) := by
  intro h h' states
  exact .ok (.refl w) states (same h h' states)

theorem fresh_wellKnown {i : Symbol} (lt : i < Symbol.wellKnown.length) :
    w.Fresh base base' (.ident i) (.ident i) :=
  fresh_of_atom (.ident (w.names_wellKnown lt)) rfl

theorem sim_quoted (fresh : w.Fresh base base' v v') :
    Sim (OnFresh base base' left right) w (World.Fresh base base') (Template.quoted v)
      (Template.quoted v') :=
  sim_freshList (.cons (fresh_wellKnown (by decide)) (.cons fresh .nil))

theorem sim_unquoted (fresh : w.Fresh base base' v v') :
    Sim (OnFresh base base' left right) w (World.Fresh base base') (Template.unquoted v)
      (Template.unquoted v') := by
  refine (sim_freshCons fresh (fresh_of_atom .nil rfl)).bind ?_
  intro w₁ u u' le cells
  exact sim_freshCons (fresh_wellKnown (by decide)) cells

/-- The height suffices for templates that only refer to cells up to that of the value. -/
def Enough (height : Nat) (v : Value) : Prop :=
  1 ≤ height ∧ ∀ a : Nat, v = .pair a → a + 2 ≤ height

theorem Enough.item {height a : Nat} (enough : Enough (height + 1) (.pair a)) {v : Value}
    (low : Low base a v) : Enough height v := by
  have room := enough.2 a rfl
  refine ⟨by omega, ?_⟩
  intro b eq
  have lt := (low b eq).2
  omega

theorem Low.mono {a b : Nat} (low : Low base a v) (le : a ≤ b) : Low base b v := by
  intro c eq
  exact ⟨(low c eq).1, Nat.lt_of_lt_of_le (low c eq).2 le⟩

/-- The elements of a new list refer to cells before it. -/
theorem Descends.items (descends : Descends base h) {as : List Addr} (spine : h.Spine v as)
    {a : Nat} (low : Low base (a + 1) v) : ∀ x ∈ as.map h.car, Low base a x := by
  induction spine with
  | nil => simp
  | @cons c as owned _ ih =>
    obtain ⟨above, lt⟩ := low c rfl
    have le : c ≤ a := Nat.le_of_lt_succ lt
    have first := (descends.cars c above owned).mono le
    have next := (descends.cdrs c above owned).mono (Nat.le_succ_of_le le)
    simp only [List.map_cons, List.mem_cons, forall_eq_or_imp]
    exact ⟨first, ih next⟩

theorem forall₂_and {α β : Type} {r : α → β → Prop} {p : α → Prop} {q : β → Prop} {xs : List α}
    {ys : List β} (all : List.Forall₂ r xs ys) (left : ∀ x ∈ xs, p x) (right : ∀ y ∈ ys, q y) :
    List.Forall₂ (fun x y => r x y ∧ p x ∧ q y) xs ys := by
  induction all with
  | nil => exact .nil
  | cons first _ ih =>
    rw [List.forall_mem_cons] at left right
    exact .cons ⟨first, left.1, right.1⟩ (ih left.2 right.2)

theorem OnFresh.items (states : OnFresh base base' left right w h h') {a b : Nat}
    (fresh : w.Fresh base base' (.pair a) (.pair b)) :
    Option.Rel (List.Forall₂ fun x y => w.Fresh base base' x y ∧ Low base a x ∧ Low base' b y)
      (h.toList? (.pair a)) (h'.toList? (.pair b)) := by
  have heaps := states.heaps.heaps
  have lists := heaps.toList? fresh.values
  cases here : h.toList? (.pair a) with
  | none =>
    rw [here] at lists
    generalize h'.toList? (.pair b) = y at lists ⊢
    cases lists
    exact .none
  | some xs =>
    cases there : h'.toList? (.pair b) with
    | none =>
      rw [here, there] at lists
      cases lists
    | some ys =>
      rw [here, there] at lists
      obtain ⟨as, spine, rfl⟩ := heaps.spine_of_collect fresh.values here
      obtain ⟨bs, spine', rfl⟩ := heaps.swap.spine_of_collect fresh.values.swap there
      have top : Low base (a + 1) (.pair a) := by
        rintro c eq
        cases eq
        exact ⟨fresh.left a rfl, Nat.lt_succ_self a⟩
      have top' : Low base' (b + 1) (.pair b) := by
        rintro c eq
        cases eq
        exact ⟨fresh.right b rfl, Nat.lt_succ_self b⟩
      have low := states.first.items spine top
      have low' := states.second.items spine' top'
      cases lists with
      | some all =>
        refine .some ((forall₂_and all low low').imp ?_)
        intro x y both
        obtain ⟨values, low, low'⟩ := both
        exact ⟨⟨values, fun c eq => (low c eq).1, fun c eq => (low' c eq).1⟩, low, low'⟩

theorem OnFresh.unquoted (states : OnFresh base base' left right w h h') {a b : Nat}
    (fresh : w.Fresh base base' (.pair a) (.pair b)) :
    Option.Rel (w.Fresh base base') (h.carOf? (h.cdr a)) (h'.carOf? (h'.cdr b)) := by
  have heaps := states.heaps.heaps
  obtain ⟨lt, lt'⟩ := heaps.low fresh
  have cdrs : w.Values (h.cdr a) (h'.cdr b) := by
    cases fresh.values with
    | pair cells => exact heaps.cdrs a b cells
  have low := states.first.cdrs a (lt a rfl).1 (lt a rfl).2
  have low' := states.second.cdrs b (lt' b rfl).1 (lt' b rfl).2
  generalize h.cdr a = u at cdrs low ⊢
  generalize h'.cdr b = u' at cdrs low' ⊢
  cases cdrs with
  | @pair c d cells =>
    obtain ⟨owned, owned'⟩ := heaps.owned c d cells
    have item := states.first.cars c (low c rfl).1 owned
    have item' := states.second.cars d (low' d rfl).1 owned'
    exact .some ⟨heaps.cars c d cells, fun e eq => (item e eq).1, fun e eq => (item' e eq).1⟩
  | _ => exact .none

theorem World.Values.eq_wellKnown_iff (values : w.Values v v') {i : Symbol}
    (lt : i < Symbol.wellKnown.length) : v = .ident i ↔ v' = .ident i := by
  cases values with
  | ident names => simp [names.eq_wellKnown_iff lt]
  | _ => simp

theorem sim_expandWithin (height height' : Nat) (fresh : w.Fresh base base' v v')
    (enough : Enough height v) (enough' : Enough height' v') :
    Sim (OnFresh base base' left right) w (World.Fresh base base')
      (Template.expandWithin height v) (Template.expandWithin height' v') := by
  induction height generalizing height' w v v' with
  | zero => exact absurd enough.1 (by decide)
  | succ height ih =>
    obtain ⟨height', rfl⟩ : ∃ n, height' = n + 1 := ⟨height' - 1, by have := enough'.1; omega⟩
    obtain ⟨values, _, _⟩ := id fresh
    cases values with
    | @pair a b cells =>
      rw [Template.expandWithin, Template.expandWithin]
      have heads : Sim (OnFresh base base' left right) w World.Values (Heap.read (·.car a))
          (Heap.read (·.car b)) :=
        sim_freshRead fun h h' states => states.heaps.heaps.cars a b cells
      refine heads.bind ?_
      intro w₁ u u' le₁ head
      have fresh₁ := fresh.mono le₁
      have same := head.eq_wellKnown_iff (i := .unquote) (by decide)
      by_cases mark : u = .ident .unquote
      · rw [if_pos mark, if_pos (same.mp mark)]
        have expressions : Sim (OnFresh base base' left right) w₁
            (fun w' => Option.Rel (w'.Fresh base base')) (Heap.read fun h => h.carOf? (h.cdr a))
            (Heap.read fun h => h.carOf? (h.cdr b)) :=
          sim_freshRead fun h h' states => states.unquoted fresh₁
        refine expressions.bind ?_
        intro w₂ x y le₂ found
        cases found with
        | none => exact .throw (.other rfl)
        | some fresh => exact .pure fresh
      · rw [if_neg mark, if_neg fun there => mark (same.mpr there)]
        have elements : Sim (OnFresh base base' left right) w₁
            (fun w' => Option.Rel (List.Forall₂ fun x y =>
              w'.Fresh base base' x y ∧ Low base a x ∧ Low base' b y))
            (Heap.read (·.toList? (.pair a))) (Heap.read (·.toList? (.pair b))) :=
          sim_freshRead fun h h' states => states.items fresh₁
        refine elements.bind ?_
        intro w₂ x y le₂ lists
        cases lists with
        | none => exact .throw (.other rfl)
        | some all =>
          refine Sim.foldrM (P := fun w' x y => w'.Fresh base base' x y ∧ Low base a x ∧
            Low base' b y) all (fun w' x y le both => ⟨both.1.mono le, both.2⟩)
            (fresh_of_atom .nil rfl) ?_
          intro w₃ x y c d le₃ item built
          refine (ih height' item.1 (enough.item item.2.1) (enough'.item item.2.2)).bind ?_
          intro w₄ e e' le₄ expanded
          exact sim_freshList (.cons (fresh_wellKnown (by decide))
            (.cons expanded (.cons (built.mono le₄) .nil)))
    | _ => exact sim_quoted fresh

theorem sim_expand (fresh : w.Fresh base base' v v') :
    Sim (OnFresh base base' left right) w (World.Fresh base base') (Template.expand v)
      (Template.expand v') := by
  have sizes : Sim (OnFresh base base' left right) w
      (fun _ n n' => Enough (n + 1) v ∧ Enough (n' + 1) v') (Heap.read Heap.size)
      (Heap.read Heap.size) := by
    refine sim_freshRead fun h h' states => ?_
    obtain ⟨low, low'⟩ := states.heaps.heaps.low fresh
    refine ⟨⟨by omega, ?_⟩, by omega, ?_⟩
    · intro a eq
      have lt := (low a eq).2
      omega
    · intro a eq
      have lt := (low' a eq).2
      omega
  refine sizes.bind ?_
  intro w₁ n n' le enough
  exact sim_expandWithin _ _ (fresh.mono le) enough.1 enough.2

open Reading

structure OnReadings (base base' : Nat) (w : World) (r r' : Reading) : Prop where
  source : r.source = r'.source
  fresh : OnFresh base base' r.symbols r'.symbols w r.heap r'.heap

section Readers

variable {α β : Type} {Q : World → α → β → Prop}

theorem sim_inReader {x : HeapM α} {y : HeapM β}
    (sim : ∀ left right, Sim (OnFresh base base' left right) w Q x y) :
    Sim (OnReadings base base') w Q (Reading.onHeap x) (Reading.onHeap y) := by
  intro r r' states
  obtain ⟨source, h, symbols⟩ := r
  obtain ⟨source', h', symbols'⟩ := r'
  obtain ⟨same, fresh⟩ := states
  have agree := sim symbols symbols' h h' fresh
  unfold Reading.onHeap
  dsimp only
  generalize x h = s at agree ⊢
  generalize y h' = s' at agree ⊢
  cases agree with
  | ok le fresh values => exact .ok le ⟨same, fresh⟩ values
  | error le fresh errors => exact .error le ⟨same, fresh⟩ errors
  | leftFull loose => exact .leftFull loose
  | rightFull loose => exact .rightFull loose

theorem sim_refuse (cause : ParseError) :
    Sim (OnReadings base base') w Q (Reading.fail cause : ReadM α)
      (Reading.fail cause : ReadM β) := .throw (.other rfl)

end Readers

theorem sim_next? : Sim (OnReadings base base') w (fun _ => Eq) next? next? := by
  intro r r' states
  obtain ⟨source, h, symbols⟩ := r
  obtain ⟨source', h', symbols'⟩ := r'
  obtain ⟨rfl, fresh⟩ := states
  unfold next?
  dsimp only
  cases Token.next? source with
  | ok t rest => exact .ok (.refl w) ⟨rfl, fresh⟩ rfl
  | error cause rest => exact .error (.refl w) ⟨rfl, fresh⟩ (.other rfl)

theorem sim_next : Sim (OnReadings base base') w (fun _ => Eq) next next := by
  refine sim_next?.bind ?_
  intro w₁ t t' le same
  subst same
  cases t with
  | some t => exact .pure rfl
  | none => exact sim_refuse _

theorem sim_peek? : Sim (OnReadings base base') w (fun _ => Eq) peek? peek? := by
  intro r r' states
  unfold peek?
  rw [states.source]
  cases Token.peek? r'.source with
  | ok t => exact .ok (.refl w) states rfl
  | error cause => exact .error (.refl w) states (.other rfl)

def World.name (w : World) (s : String) : World :=
  { w with left := (w.left.intern s).2, right := (w.right.intern s).2 }

theorem within_name (w : World) (s : String) : w.Within (w.name s) :=
  ⟨fun _ _ => id, w.left.within_intern s, w.right.within_intern s, Iff.rfl⟩

theorem World.Heaps.name (heaps : w.Heaps h h') (s : String) : (w.name s).Heaps h h' where
  owned := heaps.owned
  injective := heaps.injective
  functional := heaps.functional
  cars a b cells := (heaps.cars a b cells).mono (within_name w s)
  cdrs a b cells := (heaps.cdrs a b cells).mono (within_name w s)
  exact exact := by
    obtain ⟨same, tables, cells⟩ := heaps.exact exact
    refine ⟨same, ?_, cells⟩
    show (w.left.intern s).2 = (w.right.intern s).2
    rw [tables]

theorem names_intern (w : World) (s : String) :
    (w.name s).Names (w.left.intern s).1 (w.right.intern s).1 :=
  ⟨w.left.intern_lt_count s, w.right.intern_lt_count s,
    (w.left.name_intern s).trans (w.right.name_intern s).symm⟩

theorem sim_intern (name : String) :
    Sim (OnReadings base base') w World.Names (Reading.intern name) (Reading.intern name) := by
  intro r r' states
  obtain ⟨source, h, symbols⟩ := r
  obtain ⟨source', h', symbols'⟩ := r'
  obtain ⟨rfl, heaps, first, second⟩ := states
  obtain ⟨rfl, rfl, heaps⟩ := heaps
  exact .ok (within_name w name) ⟨rfl, ⟨rfl, rfl, heaps.name name⟩, first, second⟩
    (names_intern w name)

theorem sim_atom (word : String) :
    Sim (OnReadings base base') w (World.Fresh base base') (Reading.atom word)
      (Reading.atom word) := by
  unfold Reading.atom
  split
  · exact .pure (fresh_of_atom .nil rfl)
  · split
    · exact .pure (fresh_of_atom .truth rfl)
    · refine (sim_intern word).bind ?_
      intro w₁ i j le names
      exact .pure (fresh_of_atom (.ident names) rfl)

theorem sim_elements {element element' : Token → ReadM Value}
    (elements : ∀ w t, Sim (OnReadings base base') w (World.Fresh base base') (element t)
      (element' t)) (bound : List Char) {read read' : List Value}
    (items : List.Forall₂ (w.Fresh base base') read read') :
    Sim (OnReadings base base') w (fun w' => List.Forall₂ (w'.Fresh base base'))
      (Reading.elements element bound read) (Reading.elements element' bound read') := by
  induction bound generalizing w read read' with
  | nil => exact sim_refuse _
  | cons _ bound ih =>
    refine sim_next?.bind ?_
    intro w₁ t t' le₁ same
    subst same
    have items := items.imp fun _ _ fresh => fresh.mono le₁
    have more (t : Token) : Sim (OnReadings base base') w₁
        (fun w' => List.Forall₂ (w'.Fresh base base'))
        (do Reading.elements element bound ((← element t) :: read))
        (do Reading.elements element' bound ((← element' t) :: read')) := by
      refine (elements w₁ t).bind ?_
      intro w₂ v v' le₂ fresh
      exact ih (.cons fresh (items.imp fun _ _ fresh => fresh.mono le₂))
    cases t with
    | none => exact sim_refuse _
    | some t =>
      cases t with
      | closing => exact .pure (List.rel_reverse items)
      | _ => exact more _

theorem sim_unquote {datum datum' : Token → ReadM Value}
    (data : ∀ w t, Sim (OnReadings base base') w (World.Fresh base base') (datum t) (datum' t)) :
    Sim (OnReadings base base') w (World.Fresh base base') (Reading.unquote datum)
      (Reading.unquote datum') := by
  have work (w : World) : Sim (OnReadings base base') w (World.Fresh base base')
      (do Reading.onHeap (Template.unquoted (← datum (← next))))
      (do Reading.onHeap (Template.unquoted (← datum' (← next)))) := by
    refine sim_next.bind ?_
    intro w₁ t t' le₁ same
    subst same
    refine (data w₁ t).bind ?_
    intro w₂ v v' le₂ fresh
    exact sim_inReader fun _ _ => sim_unquoted fresh
  refine sim_peek?.bind ?_
  intro w₁ t t' le₁ same
  subst same
  split
  · exact sim_refuse _
  · exact work w₁

theorem sim_datum (room templates : Nat) (token : Token) :
    Sim (OnReadings base base') w (World.Fresh base base') (Reading.datum room templates token)
      (Reading.datum room templates token) := by
  induction room generalizing w templates token with
  | zero => exact sim_refuse _
  | succ room ih =>
    cases token with
    | opening =>
      have bounds : Sim (OnReadings base base') w (fun _ => Eq)
          (fun r => .ok r.source.unread r) (fun r => .ok r.source.unread r) := by
        intro r r' states
        have same : r.source.unread = r'.source.unread := by rw [states.source]
        exact .ok (.refl w) states same
      refine bounds.bind ?_
      intro w₁ bound bound' le₁ same
      subst same
      refine (sim_elements (fun w t => ih templates t) bound .nil).bind ?_
      intro w₂ vs vs' le₂ items
      exact sim_inReader fun _ _ => sim_freshList items
    | closing => exact sim_refuse _
    | quote =>
      refine sim_next.bind ?_
      intro w₁ t t' le₁ same
      subst same
      refine (ih templates t).bind ?_
      intro w₂ v v' le₂ fresh
      exact sim_inReader fun _ _ => sim_quoted fresh
    | backquote =>
      refine sim_next.bind ?_
      intro w₁ t t' le₁ same
      subst same
      refine (ih (templates + 1) t).bind ?_
      intro w₂ v v' le₂ fresh
      exact sim_inReader fun _ _ => sim_expand fresh
    | comma =>
      cases templates with
      | zero => exact sim_refuse _
      | succ outer => exact sim_unquote fun w t => ih outer t
    | atSign => exact sim_refuse _
    | int n => exact .pure (fresh_of_atom (.int n) rfl)
    | ident word => exact sim_atom word

theorem sim_form? :
    Sim (OnReadings base base') w (fun w' => Option.Rel (w'.Fresh base base')) Reading.form?
      Reading.form? := by
  have ends : Sim (OnReadings base base') w (fun _ => Eq) atEnd atEnd := by
    intro r r' states
    obtain ⟨source, h, symbols⟩ := r
    obtain ⟨source', h', symbols'⟩ := r'
    obtain ⟨rfl, fresh⟩ := states
    exact .ok (.refl w) ⟨rfl, fresh⟩ rfl
  refine ends.bind ?_
  intro w₁ done done' le₁ same
  subst same
  cases done with
  | true => exact .pure .none
  | false =>
    refine sim_next.bind ?_
    intro w₂ t t' le₂ same
    subst same
    refine (sim_datum maxNesting 0 t).bind ?_
    intro w₃ v v' le₃ fresh
    exact .pure (.some fresh)

end Parallel

end SecdLisp
