import SecdLisp.Proofs.Graph
import SecdLisp.Proofs.Names

/-!
# Two computations side by side

The same work is done on two heaps with two symbol tables. Cells of one stand for cells of the
other, and this is one to one; numbers of names stand for each other if the names are the same.
Work is parallel if it keeps this and has results that stand for each other. Where the heaps may
have different sizes, nothing is said once one of them is full.
-/

namespace SecdLisp

namespace Parallel

/-- How the two sides correspond. An exact world is one where they are the same. -/
structure World where
  cells : Addr → Addr → Prop
  left : SymbolTable
  right : SymbolTable
  exact : Prop

namespace World

structure Names (w : World) (i j : Symbol) : Prop where
  left : i < w.left.count
  right : j < w.right.count
  same : w.left.name i = w.right.name j

inductive Values (w : World) : Value → Value → Prop where
  | nil : Values w .nil .nil
  | truth : Values w .truth .truth
  | int (n : Int64) : Values w (.int n) (.int n)
  | ident {i j : Symbol} (names : w.Names i j) : Values w (.ident i) (.ident j)
  | op (o : Opcode) : Values w (.op o) (.op o)
  | pair {a b : Addr} (cells : w.cells a b) : Values w (.pair a) (.pair b)

structure Machines (w : World) (r r' : Registers) : Prop where
  stack : w.Values r.stack r'.stack
  env : w.Values r.env r'.env
  code : w.Values r.code r'.code
  dump : w.Values r.dump r'.dump

/-- Errors are the same up to the registers that they carry. -/
inductive Errors (w : World) : Error → Error → Prop where
  | runtime {f : Fault} {r r' : Registers} (machines : w.Machines r r') :
    Errors w (.runtime f r) (.runtime f r')
  | other {e : Error} (none : e.registers? = none) : Errors w e e

/-- More cells and names correspond. -/
structure Within (w w' : World) : Prop where
  cells : ∀ a b, w.cells a b → w'.cells a b
  left : w.left.Within w'.left
  right : w.right.Within w'.right
  exact : w'.exact ↔ w.exact

/-- Corresponding cells hold corresponding values. -/
structure Heaps (w : World) (h h' : Heap) : Prop where
  owned : ∀ a b, w.cells a b → a < h.size ∧ b < h'.size
  injective : ∀ a a' b, w.cells a b → w.cells a' b → a = a'
  functional : ∀ a b b', w.cells a b → w.cells a b' → b = b'
  cars : ∀ a b, w.cells a b → w.Values (h.car a) (h'.car b)
  cdrs : ∀ a b, w.cells a b → w.Values (h.cdr a) (h'.cdr b)
  exact : w.exact → h = h' ∧ w.left = w.right ∧ ∀ a b, w.cells a b ↔ a = b ∧ a < h.size

variable {w w' w'' : World}

theorem Within.refl (w : World) : w.Within w := ⟨fun _ _ => id, .refl _, .refl _, Iff.rfl⟩

theorem Within.trans (first : w.Within w') (second : w'.Within w'') : w.Within w'' :=
  ⟨fun a b cells => second.cells a b (first.cells a b cells), first.left.trans second.left,
    first.right.trans second.right, second.exact.trans first.exact⟩

theorem Names.mono {i j : Symbol} (names : w.Names i j) (le : w.Within w') : w'.Names i j := by
  obtain ⟨left, right, same⟩ := names
  refine ⟨Nat.lt_of_lt_of_le left le.left.count_le, Nat.lt_of_lt_of_le right le.right.count_le, ?_⟩
  rw [le.left.name left, le.right.name right, same]

theorem Values.mono {v v' : Value} (values : w.Values v v') (le : w.Within w') :
    w'.Values v v' := by
  cases values with
  | nil => exact .nil
  | truth => exact .truth
  | int n => exact .int n
  | ident names => exact .ident (names.mono le)
  | op o => exact .op o
  | pair cells => exact .pair (le.cells _ _ cells)

theorem Machines.mono {r r' : Registers} (machines : w.Machines r r') (le : w.Within w') :
    w'.Machines r r' :=
  ⟨machines.stack.mono le, machines.env.mono le, machines.code.mono le, machines.dump.mono le⟩

theorem Names.inj {i i' j : Symbol} (first : w.Names i j) (second : w.Names i' j) : i = i' := by
  have same := first.same.trans second.same.symm
  exact SymbolTable.name_injective first.left second.left same

theorem Names.functional {i j j' : Symbol} (first : w.Names i j) (second : w.Names i j') :
    j = j' := by
  have same := first.same.symm.trans second.same
  exact SymbolTable.name_injective first.right second.right same

theorem names_wellKnown (w : World) {i : Symbol} (lt : i < Symbol.wellKnown.length) :
    w.Names i i := by
  have here : Symbol.wellKnown[i]? = some Symbol.wellKnown[i] := List.getElem?_eq_getElem lt
  obtain ⟨left, name⟩ := w.left.name_of_wellKnown here
  obtain ⟨right, name'⟩ := w.right.name_of_wellKnown here
  exact ⟨left, right, by rw [name, name']⟩

theorem Names.eq_wellKnown_iff {i j : Symbol} (names : w.Names i j) {k : Symbol}
    (lt : k < Symbol.wellKnown.length) : i = k ↔ j = k := by
  have known := w.names_wellKnown lt
  constructor
  · rintro rfl
    exact names.functional known
  · rintro rfl
    exact names.inj known

theorem Names.lt_wellKnown_iff {i j : Symbol} (names : w.Names i j) {k : Nat}
    (le : k ≤ Symbol.wellKnown.length) : i < k ↔ j < k := by
  constructor
  · intro lt
    rwa [(names.eq_wellKnown_iff (Nat.lt_of_lt_of_le lt le)).mp rfl]
  · intro lt
    rwa [(names.eq_wellKnown_iff (Nat.lt_of_lt_of_le lt le)).mpr rfl]

/-- What tells apart only well-known names is the same on both sides. -/
theorem Names.apply_eq {α : Type} {f : Symbol → α} {i j : Symbol} (names : w.Names i j) (c : α)
    (beyond : ∀ k, Symbol.wellKnown.length ≤ k → f k = c) : f i = f j := by
  by_cases lt : i < Symbol.wellKnown.length
  · rw [(names.eq_wellKnown_iff lt).mp rfl]
  · have notLt : ¬j < Symbol.wellKnown.length := fun lt' =>
      lt ((names.lt_wellKnown_iff (Nat.le_refl _)).mpr lt')
    rw [beyond i (Nat.le_of_not_lt lt), beyond j (Nat.le_of_not_lt notLt)]

variable {h h' : Heap} {v v' u u' : Value}

theorem Values.eq_iff (heaps : w.Heaps h h') (first : w.Values v v') (second : w.Values u u') :
    v = u ↔ v' = u' := by
  cases first <;> cases second <;> simp
  case ident.ident first i j second =>
    constructor
    · rintro rfl
      exact first.functional second
    · rintro rfl
      exact first.inj second
  case pair.pair first a b second =>
    constructor
    · rintro rfl
      exact heaps.functional _ _ _ first second
    · rintro rfl
      exact heaps.injective _ _ _ first second

theorem Values.kind_eq (values : w.Values v v') : v.kind = v'.kind := by
  cases values <;> rfl

theorem Values.isNil_eq (values : w.Values v v') : v.isNil = v'.isNil := by
  cases values <;> rfl

theorem Values.isPair_eq (values : w.Values v v') : v.isPair = v'.isPair := by
  cases values <;> rfl

theorem Values.isTruthy_eq (values : w.Values v v') : v.isTruthy = v'.isTruthy := by
  rw [Value.isTruthy, Value.isTruthy, values.isNil_eq]

theorem values_ofBool (w : World) (b : Bool) : w.Values (.ofBool b) (.ofBool b) := by
  cases b with
  | true => exact .truth
  | false => exact .nil

/-! In an exact world, what corresponds is the same. -/

theorem Names.eq_of_exact {i j : Symbol} (heaps : w.Heaps h h') (exact : w.exact)
    (names : w.Names i j) : i = j := by
  obtain ⟨left, right, named⟩ := names
  obtain ⟨_, tables, _⟩ := heaps.exact exact
  rw [← tables] at right named
  exact SymbolTable.name_injective left right named

theorem Values.eq_of_exact (heaps : w.Heaps h h') (exact : w.exact) (values : w.Values v v') :
    v = v' := by
  obtain ⟨_, _, same⟩ := heaps.exact exact
  cases values with
  | nil | truth | int | op => rfl
  | ident names => rw [names.eq_of_exact heaps exact]
  | pair cells => rw [((same _ _).mp cells).1]

theorem Errors.eq_of_exact {e e' : Error} (heaps : w.Heaps h h') (exact : w.exact)
    (errors : w.Errors e e') : e = e' := by
  cases errors with
  | @runtime f r r' machines =>
    obtain ⟨stack, env, code, dump⟩ := r
    obtain ⟨stack', env', code', dump'⟩ := r'
    obtain rfl : stack = stack' := machines.stack.eq_of_exact heaps exact
    obtain rfl : env = env' := machines.env.eq_of_exact heaps exact
    obtain rfl : code = code' := machines.code.eq_of_exact heaps exact
    obtain rfl : dump = dump' := machines.dump.eq_of_exact heaps exact
    rfl
  | other => rfl

def add (w : World) (a b : Addr) : World :=
  { w with cells := fun a' b' => w.cells a' b' ∨ a' = a ∧ b' = b }

theorem within_add (w : World) (a b : Addr) : w.Within (w.add a b) :=
  ⟨fun _ _ => .inl, .refl _, .refl _, Iff.rfl⟩

end World

variable {σ τ α β γ δ : Type}

inductive Agree (R : World → σ → τ → Prop) (w : World) (Q : World → α → β → Prop) :
    EStateM.Result Error σ α → EStateM.Result Error τ β → Prop where
  | ok {w' : World} {a : α} {b : β} {s : σ} {t : τ} (le : w.Within w') (states : R w' s t)
    (values : Q w' a b) : Agree R w Q (.ok a s) (.ok b t)
  | error {w' : World} {e e' : Error} {s : σ} {t : τ} (le : w.Within w') (states : R w' s t)
    (errors : w'.Errors e e') : Agree R w Q (.error e s) (.error e' t)
  | leftFull {s : σ} {r : EStateM.Result Error τ β} (loose : ¬w.exact) :
    Agree R w Q (.error .heapFull s) r
  | rightFull {t : τ} {r : EStateM.Result Error σ α} (loose : ¬w.exact) :
    Agree R w Q r (.error .heapFull t)

/-- From states that correspond, the results correspond. -/
def Sim (R : World → σ → τ → Prop) (w : World) (Q : World → α → β → Prop)
    (x : EStateM Error σ α) (y : EStateM Error τ β) : Prop :=
  ∀ s t, R w s t → Agree R w Q (x s) (y t)

variable {R : World → σ → τ → Prop} {w w' : World} {P : World → α → β → Prop}
  {Q : World → γ → δ → Prop}

theorem Agree.of_within {r : EStateM.Result Error σ α} {r' : EStateM.Result Error τ β}
    (agree : Agree R w' P r r') (le : w.Within w') : Agree R w P r r' := by
  have loose (not : ¬w'.exact) : ¬w.exact := fun exact => not (le.exact.mpr exact)
  cases agree with
  | ok le' states values => exact .ok (le.trans le') states values
  | error le' states errors => exact .error (le.trans le') states errors
  | leftFull not => exact .leftFull (loose not)
  | rightFull not => exact .rightFull (loose not)

theorem Sim.pure {a : α} {b : β} (values : P w a b) :
    Sim R w P (pure a : EStateM Error σ α) (pure b : EStateM Error τ β) :=
  fun _ _ states => .ok (.refl w) states values

theorem Sim.throw {e e' : Error} (errors : w.Errors e e') :
    Sim R w P (throw e : EStateM Error σ α) (throw e' : EStateM Error τ β) :=
  fun _ _ states => .error (.refl w) states errors

theorem Sim.bind {x : EStateM Error σ α} {y : EStateM Error τ β} {f : α → EStateM Error σ γ}
    {g : β → EStateM Error τ δ} (first : Sim R w P x y)
    (next : ∀ w' a b, w.Within w' → P w' a b → Sim R w' Q (f a) (g b)) :
    Sim R w Q (x >>= f) (y >>= g) := by
  intro s t states
  show Agree R w Q (EStateM.bind x f s) (EStateM.bind y g t)
  unfold EStateM.bind
  have agree := first s t states
  generalize x s = r at agree ⊢
  generalize y t = r' at agree ⊢
  cases agree with
  | ok le states values => exact (next _ _ _ le values _ _ states).of_within le
  | error le states errors => exact .error le states errors
  | leftFull loose => exact .leftFull loose
  | rightFull loose => exact .rightFull loose

theorem Agree.and_ends {R' : World → σ → τ → Prop} {P' : World → α → β → Prop}
    {x : EStateM Error σ α} {y : EStateM Error τ β} {s : σ} {t : τ} {p : α → σ → Prop}
    {q : β → τ → Prop} {A : σ → Prop} {B : τ → Prop} (agree : Agree R w P (x s) (y t))
    (first : Ends x s p fun _ => A) (second : Ends y t q fun _ => B)
    (ok : ∀ w' a b s t, R w' s t → P w' a b → p a s → q b t → R' w' s t ∧ P' w' a b)
    (error : ∀ w' s t, R w' s t → A s → B t → R' w' s t) : Agree R' w P' (x s) (y t) := by
  unfold Ends at first second
  generalize x s = r at agree first ⊢
  generalize y t = r' at agree second ⊢
  cases agree with
  | ok le states values =>
    obtain ⟨states, values⟩ := ok _ _ _ _ _ states values first second
    exact .ok le states values
  | error le states errors => exact .error le (error _ _ _ states first second) errors
  | leftFull loose => exact .leftFull loose
  | rightFull loose => exact .rightFull loose

/-- The accumulators and elements that correspond go into the work on both sides. -/
theorem Sim.foldlM {f : γ → α → EStateM Error σ γ} {g : δ → β → EStateM Error τ δ}
    {xs : List α} {ys : List β} {c : γ} {d : δ} (elements : List.Forall₂ (P w) xs ys)
    (mono : ∀ w' a b, w.Within w' → P w a b → P w' a b)
    (start : Q w c d)
    (body : ∀ w' c d a b, w.Within w' → Q w' c d → P w' a b → Sim R w' Q (f c a) (g d b)) :
    Sim R w Q (xs.foldlM f c) (ys.foldlM g d) := by
  suffices ∀ w', w.Within w' → Q w' c d → Sim R w' Q (xs.foldlM f c) (ys.foldlM g d) from
    this w (.refl w) start
  clear start
  induction elements generalizing c d with
  | nil =>
    intro w' le values
    exact .pure values
  | cons element _ ih =>
    intro w' le values
    rw [List.foldlM_cons, List.foldlM_cons]
    exact (body w' _ _ _ _ le values (mono w' _ _ le element)).bind fun w'' c d le' values =>
      ih w'' (le.trans le') values

theorem Sim.foldrM {f : α → γ → EStateM Error σ γ} {g : β → δ → EStateM Error τ δ}
    {xs : List α} {ys : List β} {c : γ} {d : δ} (elements : List.Forall₂ (P w) xs ys)
    (mono : ∀ w' a b, w.Within w' → P w a b → P w' a b) (start : Q w c d)
    (body : ∀ w' a b c d, w.Within w' → P w' a b → Q w' c d → Sim R w' Q (f a c) (g b d)) :
    Sim R w Q (xs.foldrM f c) (ys.foldrM g d) := by
  induction elements with
  | nil => exact .pure start
  | cons element _ ih =>
    rw [List.foldrM_cons, List.foldrM_cons]
    exact ih.bind fun w' c d le values => body w' _ _ _ _ le (mono w' _ _ le element) values

end Parallel

end SecdLisp
