import SecdLisp.Proofs.Reference.Layout
import SecdLisp.Proofs.Running

/-!
# The same work in front of two continuations

Code is put together from its end, in front of a continuation. Where the same is done in front of
two continuations, the two heaps have the same cells, but for the link that leads from the code to
the continuation. No cell leads into the code, so work that does not start from the code sees none
of it and does the same on both sides.
-/

namespace SecdLisp

/-- How far two such pieces of work have come: the cells of the code in front of the continuation, the
first one first, and the number of all cells. -/
structure Front where
  cells : List Addr
  size : Nat

namespace Front

variable {f f' f'' : Front} {writes : Bool} {k k' v u c c' : Value} {a b : Addr}

def code (f : Front) (k : Value) : Value :=
  match f.cells with
  | [] => k
  | a :: _ => .pair a

/-- The value does not dangle, and it is none of the cells of the code. -/
def Outside (f : Front) (v : Value) : Prop := ∀ a, v = .pair a → a < f.size ∧ a ∉ f.cells

@[simp] theorem outside_nil : f.Outside .nil := nofun

@[simp] theorem outside_truth : f.Outside .truth := nofun

@[simp] theorem outside_int (n : Int64) : f.Outside (.int n) := nofun

@[simp] theorem outside_ident (name : Symbol) : f.Outside (.ident name) := nofun

@[simp] theorem outside_op (o : Opcode) : f.Outside (.op o) := nofun

theorem outside_pair_iff : f.Outside (.pair a) ↔ a < f.size ∧ a ∉ f.cells := by
  constructor
  · exact fun outside => outside a rfl
  · intro here b eq
    cases eq
    exact here

theorem outside_ofBool (b : Bool) : f.Outside (.ofBool b) := by
  cases b <;> exact nofun

/-- Cells were added. Work that writes puts new ones in front of the code; other work leaves it what
it is. -/
structure Moves (writes : Bool) (f f' : Front) : Prop where
  size : f.size ≤ f'.size
  new : ∀ a ∈ f'.cells, a ∈ f.cells ∨ f.size ≤ a
  still : writes = false → f'.cells = f.cells

theorem Moves.refl (writes : Bool) (f : Front) : f.Moves writes f :=
  ⟨Nat.le_refl _, fun _ => .inl, fun _ => rfl⟩

theorem Moves.trans (first : f.Moves writes f') (second : f'.Moves writes f'') :
    f.Moves writes f'' where
  size := Nat.le_trans first.size second.size
  new a mem := by
    obtain before | new := second.new a mem
    · exact first.new a before
    · exact .inr (Nat.le_trans first.size new)
  still apart := (second.still apart).trans (first.still apart)

theorem Moves.weaken (moves : f.Moves false f') : f.Moves writes f' :=
  ⟨moves.size, moves.new, fun _ => moves.still rfl⟩

theorem Outside.later (outside : f.Outside v) (moves : f.Moves writes f') : f'.Outside v := by
  intro a eq
  obtain ⟨lt, out⟩ := outside a eq
  refine ⟨Nat.lt_of_lt_of_le lt moves.size, fun mem => ?_⟩
  obtain before | new := moves.new a mem
  · exact out before
  · exact Nat.not_le_of_lt lt new

theorem outside_all_later {vs : List Value} (outside : ∀ v ∈ vs, f.Outside v)
    (moves : f.Moves writes f') : ∀ v ∈ vs, f'.Outside v :=
  fun v mem => (outside v mem).later moves

/-- What words are put in front of on the two sides: the code in front of the continuations if the
work writes, else code that has nothing to do with it. -/
inductive Codes (k k' : Value) (f : Front) : Bool → Value → Value → Prop where
  | front : Codes k k' f true (f.code k) (f.code k')
  | apart {c : Value} (outside : f.Outside c) : Codes k k' f false c c

theorem codes_apart_iff : Codes k k' f false c c' ↔ c' = c ∧ f.Outside c := by
  constructor
  · intro codes
    cases codes with
    | apart outside => exact ⟨rfl, outside⟩
  · rintro ⟨rfl, outside⟩
    exact .apart outside

theorem code_congr (same : f'.cells = f.cells) (k : Value) : f'.code k = f.code k := by
  unfold code
  rw [same]

theorem Codes.later (codes : Codes k k' f writes c c') (moves : f.Moves false f') :
    Codes k k' f' writes c c' := by
  cases codes with
  | front =>
    rw [← code_congr (moves.still rfl), ← code_congr (moves.still rfl)]
    exact .front
  | apart outside => exact .apart (outside.later moves)

variable {σ α β : Type} {R : Front → σ → σ → Prop} {P : Front → α → α → Prop}
  {Q : Front → β → β → Prop} {p : Front → α → Prop}

/-- The two sides come to the same. -/
inductive Lockstep (R : Front → σ → σ → Prop) (writes : Bool) (f : Front) (P : Front → α → α → Prop) :
    EStateM.Result Error σ α → EStateM.Result Error σ α → Prop where
  | ok {f' : Front} {a b : α} {s t : σ} (moves : f.Moves writes f') (states : R f' s t)
    (values : P f' a b) : Lockstep R writes f P (.ok a s) (.ok b t)
  | error {f' : Front} {e : Error} {s t : σ} (moves : f.Moves writes f') (states : R f' s t) :
    Lockstep R writes f P (.error e s) (.error e t)

def Steps (R : Front → σ → σ → Prop) (writes : Bool) (f : Front) (P : Front → α → α → Prop)
    (x y : EStateM Error σ α) : Prop := ∀ s t, R f s t → Lockstep R writes f P (x s) (y t)

/-- The work sees nothing of the code: it leaves it what it is and comes to the same value on both
sides. -/
abbrev Blind (R : Front → σ → σ → Prop) (f : Front) (p : Front → α → Prop)
    (x : EStateM Error σ α) : Prop := Steps R false f (fun f' a b => b = a ∧ p f' a) x x

theorem Lockstep.of_moves {r r' : EStateM.Result Error σ α} (lockstep : Lockstep R writes f' P r r')
    (moves : f.Moves writes f') : Lockstep R writes f P r r' := by
  cases lockstep with
  | ok later states values => exact .ok (moves.trans later) states values
  | error later states => exact .error (moves.trans later) states

theorem steps_pure {a b : α} (values : P f a b) :
    Steps R writes f P (pure a : EStateM Error σ α) (pure b) :=
  fun _ _ states => .ok (.refl writes f) states values

theorem steps_throw (e : Error) : Steps R writes f P (throw e : EStateM Error σ α) (throw e) :=
  fun _ _ states => .error (.refl writes f) states

theorem blind_pure {a : α} (value : p f a) : Blind R f p (pure a) := steps_pure ⟨rfl, value⟩

theorem Steps.mono {P' : Front → α → α → Prop} {x y : EStateM Error σ α}
    (steps : Steps R writes f P x y) (imp : ∀ f' a b, P f' a b → P' f' a b) :
    Steps R writes f P' x y := by
  intro s t states
  have lockstep := steps s t states
  generalize x s = r at lockstep ⊢
  generalize y t = r' at lockstep ⊢
  cases lockstep with
  | ok moves states values => exact .ok moves states (imp _ _ _ values)
  | error moves states => exact .error moves states

theorem Steps.bind_of {early : Bool} {x y : EStateM Error σ α} {g g' : α → EStateM Error σ β}
    (first : Steps R early f P x y) (weaken : ∀ f', f.Moves early f' → f.Moves writes f')
    (next : ∀ f' a b, f.Moves early f' → P f' a b → Steps R writes f' Q (g a) (g' b)) :
    Steps R writes f Q (x >>= g) (y >>= g') := by
  intro s t states
  show Lockstep R writes f Q (EStateM.bind x g s) (EStateM.bind y g' t)
  unfold EStateM.bind
  have lockstep := first s t states
  generalize x s = r at lockstep ⊢
  generalize y t = r' at lockstep ⊢
  cases lockstep with
  | ok moves states values =>
    exact (next _ _ _ moves values _ _ states).of_moves (weaken _ moves)
  | error moves states => exact .error (weaken _ moves) states

theorem Steps.bind {x y : EStateM Error σ α} {g g' : α → EStateM Error σ β}
    (first : Steps R writes f P x y)
    (next : ∀ f' a b, f.Moves writes f' → P f' a b → Steps R writes f' Q (g a) (g' b)) :
    Steps R writes f Q (x >>= g) (y >>= g') := first.bind_of (fun _ => id) next

/-- Work goes on with the value that both sides have come to. -/
theorem Blind.bind {x : EStateM Error σ α} {g g' : α → EStateM Error σ β} (first : Blind R f p x)
    (next : ∀ f' a, f.Moves false f' → p f' a → Steps R writes f' Q (g a) (g' a)) :
    Steps R writes f Q (x >>= g) (x >>= g') := by
  refine Steps.bind_of first (fun _ => Moves.weaken) fun f' a b moves values => ?_
  obtain ⟨rfl, value⟩ := values
  exact next f' b moves value

theorem steps_foldlM {g g' : Value → Value → EStateM Error σ Value} {vs : List Value}
    (items : ∀ v ∈ vs, f.Outside v) (codes : Codes k k' f writes c c')
    (body : ∀ f' v c c', f'.Outside v → Codes k k' f' writes c c' →
      Steps R writes f' (fun f => Codes k k' f writes) (g c v) (g' c' v)) :
    Steps R writes f (fun f => Codes k k' f writes) (vs.foldlM g c) (vs.foldlM g' c') := by
  induction vs generalizing f c c' with
  | nil => exact steps_pure codes
  | cons v vs ih =>
    rw [List.forall_mem_cons] at items
    rw [List.foldlM_cons, List.foldlM_cons]
    exact (body f v c c' items.1 codes).bind fun f' d d' moves codes =>
      ih (outside_all_later items.2 moves) codes

/-- Two heaps with the same cells, but for the link from the code to its continuation, which is `k` in
the first and `k'` in the second. What the cells hold leads past the code. -/
structure Twins (k k' : Value) (f : Front) (h h' : Heap) : Prop where
  size : h.size = f.size
  size' : h'.size = f.size
  capacity : h'.capacity = h.capacity
  car : ∀ a, h'.car a = h.car a
  cdr : ∀ a, a ∉ f.cells → h'.cdr a = h.cdr a
  cars : ∀ a, f.Outside (h.car a)
  cdrs : ∀ a, a ∉ f.cells → f.Outside (h.cdr a)
  owned : ∀ a ∈ f.cells, a < f.size
  path : Reference.Path h (f.code k) f.cells k
  path' : Reference.Path h' (f.code k') f.cells k'

variable {h h' : Heap}

theorem twins_refl (closed : h.Closed) (k k' : Value) : Twins k k' ⟨[], h.size⟩ h h where
  size := rfl
  size' := rfl
  capacity := rfl
  car _ := rfl
  cdr _ _ := rfl
  cars a b eq := ⟨(closed a).1 b eq, List.not_mem_nil⟩
  cdrs a _ b eq := ⟨(closed a).2 b eq, List.not_mem_nil⟩
  owned := nofun
  path := .nil
  path' := .nil

/-- A cell is put into a heap: a new one, or one in place of what was there. -/
structure Puts (a : Addr) (cell : Cell) (h t : Heap) : Prop where
  here : t.cell a = cell
  others : ∀ b, b ≠ a → t.cell b = h.cell b
  lt : a < t.size
  size_le : h.size ≤ t.size
  capacity : t.capacity = h.capacity

theorem puts_grown (h : Heap) (cell : Cell) (room : h.size < h.capacity) :
    Puts h.size cell h (h.grown cell room) where
  here := Heap.cell_grown_size h cell room
  others _ ne := Heap.cell_grown_of_ne ne
  lt := by simp
  size_le := by simp
  capacity := rfl

theorem puts_updated {h : Heap} (lt : a < h.size) (change : Cell → Cell) :
    Puts a (change (h.cell a)) h (h.updated a change) where
  here := Heap.cell_updated_self lt change
  others _ ne := Heap.cell_updated_of_ne ne change
  lt := by simpa using lt
  size_le := by simp
  capacity := rfl

def put (writes : Bool) (f : Front) (a : Addr) (size : Nat) : Front :=
  ⟨if writes then a :: f.cells else f.cells, size⟩

theorem moves_put {size : Nat} (le : f.size ≤ size) (new : writes = true → f.size ≤ a) :
    f.Moves writes (f.put writes a size) where
  size := le
  new b mem := by
    cases writes with
    | false => exact .inl mem
    | true =>
      obtain rfl | mem := List.mem_cons.mp mem
      · exact .inr (new rfl)
      · exact .inl mem
  still apart := by
    subst apart
    rfl

theorem mem_put {size : Nat} : b ∈ (f.put writes a size).cells ↔
    writes = true ∧ b = a ∨ b ∈ f.cells := by
  cases writes <;> simp [put]

theorem path_put {t : Heap} {size : Nat} (path : Reference.Path h (f.code k) f.cells k)
    (puts : Puts a ⟨v, c⟩ h t) (out : a ∉ f.cells) (front : writes = true → c = f.code k) :
    Reference.Path t ((f.put writes a size).code k) (f.put writes a size).cells k := by
  have kept : Reference.Path t (f.code k) f.cells k := path.congr fun b mem =>
    congrArg Cell.cdr (puts.others b fun eq => out (eq ▸ mem))
  cases writes with
  | false => exact kept
  | true =>
    refine .cons ?_
    rw [Heap.cdr, puts.here, front rfl]
    exact kept

namespace Twins

variable (twins : Twins k k' f h h')

include twins

theorem size_eq : h'.size = h.size := twins.size'.trans twins.size.symm

theorem cell_eq (out : a ∉ f.cells) : h'.cell a = h.cell a := by
  have car : (h'.cell a).car = (h.cell a).car := twins.car a
  have cdr : (h'.cell a).cdr = (h.cell a).cdr := twins.cdr a out
  cases here : h.cell a
  cases here' : h'.cell a
  rw [here, here'] at car cdr
  rw [Cell.mk.injEq]
  exact ⟨car, cdr⟩

theorem halves (outside : f.Outside (.pair a)) : f.Outside (h.car a) ∧ f.Outside (h.cdr a) :=
  ⟨twins.cars a, twins.cdrs a (outside a rfl).2⟩

/-- The words of the code lead past it, and what they lead to is the same on both sides. -/
theorem outside_of_reachable (outside : f.Outside v) (reached : h.Reachable v a) :
    f.Outside (.pair a) := by
  induction reached with
  | root here => exact here ▸ outside
  | car _ link ih => exact link ▸ (twins.halves ih).1
  | cdr _ link ih => exact link ▸ (twins.halves ih).2

variable {t t' : Heap}

theorem put (puts : Puts a ⟨v, c⟩ h t) (puts' : Puts a ⟨v, c'⟩ h' t') (size : t'.size = t.size)
    (out : a ∉ f.cells) (new : writes = true → f.size ≤ a) (word : f.Outside v)
    (codes : Codes k k' f writes c c') : Twins k k' (f.put writes a t.size) t t' := by
  have moves : f.Moves writes (f.put writes a t.size) := moves_put (twins.size ▸ puts.size_le) new
  have front (eq : writes = true) : c = f.code k ∧ c' = f.code k' := by
    cases codes with
    | front => exact ⟨rfl, rfl⟩
    | apart => cases eq
  -- Where the cell is none of the code, it links to the same on both sides.
  have apart (free : a ∉ (f.put writes a t.size).cells) : c' = c ∧ f.Outside c := by
    cases codes with
    | front => exact (free (List.mem_cons_self ..)).elim
    | apart outside => exact ⟨rfl, outside⟩
  have before {b : Addr} (free : b ∉ (f.put writes a t.size).cells) : b ∉ f.cells :=
    fun mem => free (mem_put.mpr (.inr mem))
  refine ⟨rfl, size, ?_, fun b => ?_, fun b free => ?_, fun b => ?_, fun b free => ?_,
    fun b mem => ?_, path_put twins.path puts out fun eq => (front eq).1,
    path_put twins.path' puts' out fun eq => (front eq).2⟩
  · rw [puts'.capacity, puts.capacity]
    exact twins.capacity
  · rw [Heap.car, Heap.car]
    by_cases eq : b = a
    · rw [eq, puts.here, puts'.here]
    · rw [puts.others b eq, puts'.others b eq]
      exact twins.car b
  · rw [Heap.cdr, Heap.cdr]
    by_cases eq : b = a
    · rw [eq, puts.here, puts'.here]
      exact (apart (eq ▸ free)).1
    · rw [puts.others b eq, puts'.others b eq]
      exact twins.cdr b (before free)
  · rw [Heap.car]
    by_cases eq : b = a
    · rw [eq, puts.here]
      exact word.later moves
    · rw [puts.others b eq]
      exact (twins.cars b).later moves
  · rw [Heap.cdr]
    by_cases eq : b = a
    · rw [eq, puts.here]
      exact (apart (eq ▸ free)).2.later moves
    · rw [puts.others b eq]
      exact (twins.cdrs b (before free)).later moves
  · obtain ⟨_, rfl⟩ | mem := mem_put.mp mem
    · exact puts.lt
    · exact Nat.lt_of_lt_of_le (twins.owned b mem) moves.size

end Twins

end Front

end SecdLisp
