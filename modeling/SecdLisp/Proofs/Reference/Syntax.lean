import SecdLisp.Compile.Expression
import SecdLisp.Proofs.Graph
import SecdLisp.Proofs.Reference.Semantics

/-!
# How expressions are spelled

The concrete syntax of the language without macros, as lists on the heap. Which expression a
value spells depends on the scopes around it, since a local name hides a macro.
-/

namespace SecdLisp

namespace Reference

open Compile (Special)

/-- Parameter lists. The last parameter may be a rest parameter, marked in front of its name or
after it. -/
inductive Parameters (h : Heap) : List Value → Frame → Prop where
  | nil : Parameters h [] []
  | plain {name : Symbol} {items : List Value} {params : Frame} (ordinary : name ≠ .rest)
    (others : Parameters h items params) :
    Parameters h (.ident name :: items) (.plain name :: params)
  | marked {name : Symbol} : Parameters h [.ident .rest, .ident name] [.rest name]
  | annotated {a : Addr} {name : Symbol} (items : h.Lists (.pair a) [.ident name, .ident .rest]) :
    Parameters h [.pair a] [.rest name]

/-- The operator of an application: a pair, or a name that has no other meaning. -/
inductive Callee (macros : List Symbol) (scopes : List Frame) : Value → Prop where
  | pair (a : Addr) : Callee macros scopes (.pair a)
  | ident {name : Symbol} (ordinary : Special.ofSymbol? name = none) (notList : name ≠ .list)
    (notBuiltin : Builtin.ofSymbol? name = none)
    (noMacro : Frame.locate? scopes name ≠ none ∨ name ∉ macros) :
    Callee macros scopes (.ident name)

/-- The expression that a value spells. Quoted data are whatever `means` says. -/
inductive Spells (h : Heap) (macros : List Symbol) (means : Value → Datum → Prop) :
    List Frame → Value → Expr → Prop where
  | nil {scopes : List Frame} : Spells h macros means scopes .nil .nil
  | atom {scopes : List Frame} {v : Value} {d : Datum}
    (constant : v = .truth ∨ (∃ n, v = .int n) ∨ ∃ o, v = .op o) (literal : means v d) :
    Spells h macros means scopes v (.quote d)
  | ident {scopes : List Frame} (name : Symbol) :
    Spells h macros means scopes (.ident name) (.ident name)
  | quote {scopes : List Frame} {v x : Value} {d : Datum} {keyword : Symbol}
    (special : Special.ofSymbol? keyword = some .quotation)
    (items : h.Lists v [.ident keyword, x]) (literal : means x d) :
    Spells h macros means scopes v (.quote d)
  | function {scopes : List Frame} {v ps x : Value} {names : List Value} {params : Frame}
    {body : Expr} {keyword : Symbol} (special : Special.ofSymbol? keyword = some .function)
    (items : h.Lists v [.ident keyword, ps, x]) (list : h.Lists ps names)
    (spelled : Parameters h names params)
    (inner : Spells h macros means (params :: scopes) x body) :
    Spells h macros means scopes v (.function params body)
  | cond {scopes : List Frame} {v x y z : Value} {test consequent alternative : Expr}
    {keyword : Symbol} (special : Special.ofSymbol? keyword = some .conditional)
    (items : h.Lists v [.ident keyword, x, y, z]) (first : Spells h macros means scopes x test)
    (second : Spells h macros means scopes y consequent)
    (third : Spells h macros means scopes z alternative) :
    Spells h macros means scopes v (.cond test consequent alternative)
  | condShort {scopes : List Frame} {v x y : Value} {test consequent : Expr} {keyword : Symbol}
    (special : Special.ofSymbol? keyword = some .conditional)
    (items : h.Lists v [.ident keyword, x, y]) (first : Spells h macros means scopes x test)
    (second : Spells h macros means scopes y consequent) :
    Spells h macros means scopes v (.cond test consequent .nil)
  | bind {scopes : List Frame} {v ns vs x : Value} {names : List Symbol} {xs : List Value}
    {values : List Expr} {body : Expr} {keyword : Symbol}
    (special : Special.ofSymbol? keyword = some .binding)
    (items : h.Lists v [.ident keyword, ns, vs, x]) (bound : h.Lists ns (names.map .ident))
    (list : h.Lists vs xs) (count : xs.length = values.length)
    (outer : ∀ p ∈ xs.zip values, Spells h macros means scopes p.1 p.2)
    (inner : Spells h macros means (names.map .plain :: scopes) x body) :
    Spells h macros means scopes v (.bind (names.map .plain) values body)
  | recursive {scopes : List Frame} {v ns vs x : Value} {names : List Symbol} {xs : List Value}
    {values : List Expr} {body : Expr} {keyword : Symbol}
    (special : Special.ofSymbol? keyword = some .recursiveBinding)
    (items : h.Lists v [.ident keyword, ns, vs, x]) (bound : h.Lists ns (names.map .ident))
    (list : h.Lists vs xs) (count : xs.length = values.length)
    (within : ∀ p ∈ xs.zip values, Spells h macros means (names.map .plain :: scopes) p.1 p.2)
    (inner : Spells h macros means (names.map .plain :: scopes) x body) :
    Spells h macros means scopes v (.recursive (names.map .plain) values body)
  | assign {scopes : List Frame} {v x : Value} {name : Symbol} {value : Expr} {keyword : Symbol}
    (special : Special.ofSymbol? keyword = some .assignment)
    (items : h.Lists v [.ident keyword, .ident name, x])
    (inner : Spells h macros means scopes x value) :
    Spells h macros means scopes v (.assign name value)
  | list {scopes : List Frame} {v : Value} {xs : List Value} {args : List Expr}
    (items : h.Lists v (.ident .list :: xs))
    (count : xs.length = args.length)
    (inner : ∀ p ∈ xs.zip args, Spells h macros means scopes p.1 p.2) :
    Spells h macros means scopes v (.list args)
  | builtin {scopes : List Frame} {v : Value} {xs : List Value} {args : List Expr} (b : Builtin)
    (items : h.Lists v (.ident b.symbol :: xs))
    (count : xs.length = args.length)
    (inner : ∀ p ∈ xs.zip args, Spells h macros means scopes p.1 p.2) :
    Spells h macros means scopes v (.builtin b args)
  | apply {scopes : List Frame} {v head : Value} {xs : List Value} {operator : Expr}
    {args : List Expr} (items : h.Lists v (head :: xs)) (callee : Callee macros scopes head)
    (first : Spells h macros means scopes head operator)
    (count : xs.length = args.length)
    (inner : ∀ p ∈ xs.zip args, Spells h macros means scopes p.1 p.2) :
    Spells h macros means scopes v (.apply operator args)

end Reference

end SecdLisp
