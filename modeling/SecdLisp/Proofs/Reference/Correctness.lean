import SecdLisp.Proofs.Reference.Compiled
import SecdLisp.Proofs.Reference.Simulation

/-!
# The compiler is correct

Whatever compiles and spells an expression is compiled to code that delivers the expression's
value. A form that is compiled and run below an empty global frame is a case of this.
-/

namespace SecdLisp

namespace Reference

open Layout

variable {ω : Type} {s s' : Compile.State ω} {ctx : Compile.Context ω} {room fuel : Nat}
  {x code : Value} {e : Expr} {means : Value → Datum → Prop} {P : Program} {g : Nat} {L : Layout}
  {σ σ' : Store} {h : Heap} {locals : Locals} {E k : Value} {d : Datum}

/-- What compiles and spells an expression is compiled to code that delivers the expression's
value: from every stack, dump and environment that mirrors the scopes, the machine gets to the
continuation with the value on the stack, and the heap then mirrors the store that evaluation
leaves, unless the heap is full before. -/
theorem compiled_delivers (compiled : Compile.expression room ctx x k s = .ok code s')
    (spells : Spells s.heap s.globals.macros means ctx.scopes x e)
    (literals : ∀ v d, means v d → P.means v d) (covers : P.Covers s s')
    (mirrors : Mirrors P g L σ h) (env : L.EnvAt g locals E)
    (scopes : locals.map Prod.fst = ctx.scopes)
    (value : eval fuel ⟨locals, P.table, g⟩ e σ = some (d, σ')) (symbols : SymbolTable)
    (S D : Value) :
    Leads symbols (Delivers P g h.size L h S E k D d σ') ⟨S, E, code, D⟩ h := by
  have sound := expression_code room compiled spells ⟨.refl _, rfl⟩
  have code := sound.2 P literals covers
  rw [← scopes] at code
  exact simulates_eval symbols P g fuel _ _ _ _ _ _ _ _ _ _ _ _ value code mirrors env

/-- The program that compiling added to a heap. Its literals are no pairs. -/
def Program.between (s s' : Compile.State ω) : Program where
  code a := if s.heap.size ≤ a ∧ a < s'.heap.size then some (s'.heap.cell a) else none
  means := (Layout.mk (fun _ => none) [] []).Means
  table := s'.globals.functions

/-- The layout of a heap where one cell holds the global frame and the rest is code. -/
def Layout.global (P : Program) (a : Addr) (next : Value) : Layout where
  role b := if b = a then some (.holder 0 next) else (P.code b).map .fixed
  objects := []
  frames := [a]

theorem Program.between_covers (s s' : Compile.State ω) : (Program.between s s').Covers s s' :=
  ⟨fun _ le lt => if_pos ⟨le, lt⟩, List.prefix_rfl⟩

theorem Program.code_between {a : Addr} {c : Cell} (here : (Program.between s s').code a = some c) :
    s.heap.size ≤ a ∧ a < s'.heap.size ∧ s'.heap.cell a = c := by
  change (if s.heap.size ≤ a ∧ a < s'.heap.size then some (s'.heap.cell a) else none) = _ at here
  split at here
  next both => exact ⟨both.1, both.2, Option.some.inj here⟩
  next => cases here

theorem role_of_global {a b : Addr} {next : Value} {r : Role}
    (role : (Layout.global P a next).role b = some r) :
    b = a ∧ r = .holder 0 next ∨ ∃ c, P.code b = some c ∧ r = .fixed c := by
  change (if b = a then _ else _) = _ at role
  split at role
  next eq => exact .inl ⟨eq, (Option.some.inj role).symm⟩
  next =>
    obtain ⟨c, code, eq⟩ := Option.map_eq_some_iff.mp role
    exact .inr ⟨c, code, eq.symm⟩

/-- Before the first form is run, the heap mirrors a store that has nothing but an empty global
frame. -/
theorem mirrors_global {a : Addr} {next : Value} (owned : a < s.heap.size)
    (le : s.heap.size ≤ s'.heap.size) (holder : s'.heap.cell a = ⟨.nil, next⟩)
    (table : s'.globals.functions.length < 2 ^ 63) :
    Mirrors (.between s s') 0 (.global (.between s s') a next) ⟨[], [.empty]⟩ s'.heap where
  owned b r role := by
    obtain ⟨rfl, _⟩ | ⟨c, code, _⟩ := role_of_global role
    · exact Nat.lt_of_lt_of_le owned le
    · exact (Program.code_between code).2.1
  fixed b c role := by
    obtain ⟨_, eq⟩ | ⟨c', code, eq⟩ := role_of_global role
    · cases eq
    · cases eq
      exact (Program.code_between code).2.2
  links b f next' role := by
    obtain ⟨rfl, eq⟩ | ⟨c, _, eq⟩ := role_of_global role
    · cases eq
      exact congrArg Cell.cdr holder
    · cases eq
  code b c code := by
    have ne : b ≠ a := by
      rintro rfl
      exact Nat.not_lt_of_le (Program.code_between code).1 owned
    show (if b = a then _ else _) = _
    rw [if_neg ne, code]
    rfl
  literals _ _ := id
  table := table
  distinct := List.nodup_nil
  objectCount := rfl
  frameCount := rfl
  objects id b o here := by cases here
  frames f b slots here there := by
    match f with
    | 0 =>
      cases here
      cases there
      have head : s'.heap.car a = .nil := congrArg Cell.car holder
      refine ⟨⟨next, if_pos rfl⟩, [], .nil, ?_⟩
      rw [head]
      exact ⟨.nil, nofun, .nil, rfl⟩
    | f + 1 => cases here

/-- The form `(let (x) (41) (+ x 1))`, at the address 10, above the global environment. The name
`x` has the number 24. -/
def sum : Compile.State Unit where
  heap := ⟨#[⟨.nil, .nil⟩, ⟨.nil, .pair 0⟩, ⟨.int 1, .nil⟩, ⟨.ident 24, .pair 2⟩,
    ⟨.ident Builtin.add.symbol, .pair 3⟩, ⟨.int 41, .nil⟩, ⟨.ident 24, .nil⟩, ⟨.pair 4, .nil⟩,
    ⟨.pair 5, .pair 7⟩, ⟨.pair 6, .pair 8⟩, ⟨.ident 3, .pair 9⟩], 100, by decide, by decide⟩
  globals := ⟨.pair 1, [], []⟩
  record := ()

def sumContext : Compile.Context Unit := ⟨.initial, 0, ⟨fun _ => id, fun _ _ _ _ _ => id⟩, [], 0⟩

def sumExpr : Expr :=
  .bind [.plain 24] [.quote (.int 41)] (.builtin .add [.ident 24, .quote (.int 1)])

theorem spells_sum : Spells sum.heap [] (Layout.mk (fun _ => none) [] []).Means [] (.pair 10)
    sumExpr := by
  have lists (a : Addr) (as : List Addr) (spine : sum.heap.Spine (.pair a) as) :
      sum.heap.Lists (.pair a) (as.map sum.heap.car) := ⟨as, spine, rfl⟩
  refine @Spells.bind _ _ _ _ _ (.pair 6) (.pair 5) (.pair 4) [24] [.int 41] _ _ 3 rfl
    (lists 10 [10, 9, 8, 7] ?_) (lists 6 [6] ?_) (lists 5 [5] ?_) rfl ?_ ?_
  · exact .cons (by decide) (.cons (by decide) (.cons (by decide) (.cons (by decide) .nil)))
  · exact .cons (by decide) .nil
  · exact .cons (by decide) .nil
  · intro p mem
    obtain rfl : p = (.int 41, .quote (.int 41)) := List.mem_singleton.mp mem
    exact .atom (.inr (.inl ⟨41, rfl⟩)) rfl
  · refine @Spells.builtin _ _ _ _ _ [.ident 24, .int 1] _ .add (lists 4 [4, 3, 2] ?_) rfl ?_
    · exact .cons (by decide) (.cons (by decide) (.cons (by decide) .nil))
    · intro p mem
      rcases List.mem_cons.mp mem with rfl | mem
      · exact .ident 24
      · obtain rfl : p = (.int 1, .quote (.int 1)) := List.mem_singleton.mp mem
        exact .atom (.inr (.inl ⟨1, rfl⟩)) rfl

def namesNone : EStateM.Result Error (Compile.State ω) Value → Bool
  | .ok _ s' => s'.globals.functions.isEmpty
  | .error _ _ => false

theorem compiles_of_namesNone {r : EStateM.Result Error (Compile.State ω) Value}
    (ok : namesNone r = true) : ∃ code s', r = .ok code s' ∧ s'.globals.functions = [] := by
  cases r with
  | ok code s' => exact ⟨code, s', rfl, List.isEmpty_iff.mp ok⟩
  | error _ _ => cases ok

/-- The code of the form leaves 42 on the stack. -/
theorem sum_delivers : ∃ code s', Compile.expression 4 sumContext (.pair 10) .nil sum = .ok code s' ∧
    Leads .initial (fun r h => ∃ a, r = ⟨.pair a, .pair 1, .nil, .nil⟩ ∧ h.car a = .int 42)
      ⟨.nil, .pair 1, code, .nil⟩ s'.heap := by
  have compiles : namesNone (Compile.expression 4 sumContext (.pair 10) .nil sum) = true := by
    decide +kernel
  obtain ⟨code, s', run, table⟩ := compiles_of_namesNone compiles
  obtain ⟨adds, _⟩ := expression_code 4 run spells_sum ⟨.refl _, rfl⟩
  have holder : s'.heap.cell 1 = ⟨.nil, .pair 0⟩ := adds.heap.cell 1 (by decide)
  have mirrors := mirrors_global (s := sum) (by decide) adds.heap.size_le holder
    (by rw [table]; decide)
  have env : (Layout.global (.between sum s') 1 (.pair 0)).EnvAt 0 [] (.pair 1) := .globals rfl rfl
  have value : eval 4 ⟨[], s'.globals.functions, 0⟩ sumExpr ⟨[], [.empty]⟩ =
      some (.int 42, ⟨[], [.empty, ⟨[.int 41], .nil⟩]⟩) := rfl
  refine ⟨code, s', run, ?_⟩
  refine (compiled_delivers run spells_sum (fun _ _ => id) (Program.between_covers sum s')
    mirrors env rfl value .initial .nil .nil).trans ?_
  rintro _ h ⟨L, a, v, rfl, _, _, cell, _, means⟩
  exact .here ⟨a, rfl, (congrArg Cell.car cell).trans (means_int_iff.mp means)⟩

end Reference

end SecdLisp
