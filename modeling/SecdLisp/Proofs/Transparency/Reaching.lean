import SecdLisp.Proofs.Reference.Compiled
import SecdLisp.Proofs.Transparency.Forms

/-!
# On the way to an expression

From a form the compiler comes to one of the expressions that are evaluated in it, and from there to
one of those inside of it. Another form is the same but for one such expression. It has lists of its
own on the way there, which are set aside; everything else in the two forms corresponds.
-/

namespace SecdLisp

namespace Frame

variable {h : Heap} {form : String} {ns vs expr body : Value} {values : List Value} {frame : Frame}

end Frame

namespace Heap

/-- The elements of a list whose cells are all set aside. -/
def ListsAside (aside : Addr → Prop) (h : Heap) (v : Value) (vs : List Value) : Prop :=
  ∃ as, h.Spine v as ∧ (∀ a ∈ as, aside a) ∧ vs = as.map h.car

theorem ListsAside.lists {aside : Addr → Prop} {base h : Heap} {v : Value} {vs : List Value}
    (list : base.ListsAside aside v vs) (sets : SetsAside aside base h) : h.Lists v vs := by
  obtain ⟨as, spine, own, rfl⟩ := list
  refine ⟨as, ?_, ?_⟩
  · induction spine with
    | nil => exact .nil
    | @cons a as owned _ ih =>
      rw [List.forall_mem_cons] at own
      refine .cons (sets.owned a own.1) ?_
      rw [sets.cdr_eq own.1]
      exact ih own.2
  · exact List.map_congr_left fun a mem => (sets.car_eq (own a mem)).symm

end Heap

namespace Compile

variable {ω : Type}

/-- The forms that bind names for their bodies. -/
def Special.Binds (form : Special) : Prop := form = .binding ∨ form = .recursiveBinding

/-- The compiler comes from an expression to one of its parts, counted from zero in the order in
which they are compiled. -/
def Point.Arrives (p : Point ω) (i : Nat) (q : Point ω) : Prop :=
  ∃ room, p.room = room + 1 ∧
    (Script.expression p.context p.expr p.rest).Arrives room p.context p.state i q

/-- From an expression the compiler comes to one that is evaluated in it, at any depth. The same
expression of another form differs from the first one there only, and its lists on the way there are
set aside in the heap that the other form starts from. -/
inductive Reaches (w : Parallel.World) (aside : Addr → Prop) (base : Heap) :
    Point ω → Value → Point ω → Value → Prop where
  | here (p : Point ω) (v : Value) : Reaches w aside base p v p v
  | argument {p q r : Point ω} {head head' e e' v x : Value}
    {before before' after after' : List Value} {i : Nat}
    (list : p.state.heap.Lists p.expr (head :: (before ++ e :: after)))
    (list' : base.ListsAside aside v (head' :: (before' ++ e' :: after')))
    (heads : w.Values head head') (preceding : List.Forall₂ w.Values before before')
    (following : List.Forall₂ w.Values after after')
    (evaluated : Evaluated head before.length after.length i) (arrives : p.Arrives i q)
    (rest : Reaches w aside base q e' r x) : Reaches w aside base p v r x
  /-- The body of a binding form. -/
  | body {p q r : Point ω} {name : Symbol} {form : Special} {ns ns' vs vs' e e' v x : Value}
    (named : Special.ofSymbol? name = some form) (binds : form.Binds)
    (list : p.state.heap.Lists p.expr [.ident name, ns, vs, e])
    (list' : base.ListsAside aside v [.ident name, ns', vs', e'])
    (names : w.Values ns ns') (values : w.Values vs vs') (arrives : p.Arrives 0 q)
    (rest : Reaches w aside base q e' r x) : Reaches w aside base p v r x
  /-- One of the values of a binding form. -/
  | value {p q r : Point ω} {name : Symbol} {form : Special} {ns ns' vs vs' b b' e e' v x : Value}
    {before before' after after' : List Value}
    (named : Special.ofSymbol? name = some form) (binds : form.Binds)
    (list : p.state.heap.Lists p.expr [.ident name, ns, vs, b])
    (list' : base.ListsAside aside v [.ident name, ns', vs', b'])
    (values : p.state.heap.Lists vs (before ++ e :: after))
    (values' : base.ListsAside aside vs' (before' ++ e' :: after'))
    (names : w.Values ns ns') (bodies : w.Values b b')
    (preceding : List.Forall₂ w.Values before before')
    (following : List.Forall₂ w.Values after after') (arrives : p.Arrives (before.length + 1) q)
    (rest : Reaches w aside base q e' r x) : Reaches w aside base p v r x

section Lists

variable {room i : Nat} {ctx : Context ω} {v head k : Value} {args : List Value} {s : State ω}
  {q : Point ω}

/-- A form that is a list is compiled as its head and its other elements say. -/
theorem Script.run_of_lists (list : s.heap.Lists v (head :: args)) (part : Part ω) :
    (expression ctx v k).run part ctx s = (compound ctx head args k).run part ctx s := by
  obtain ⟨a, rfl, _, rfl, rest⟩ := list.uncons
  have read : (onHeap (Heap.read fun h => (h.car a, h.toList? (h.cdr a))) : CompileM ω _) s =
      .ok (s.heap.car a, some args) s := by
    rw [← rest.toList?]
    rfl
  exact bind_of_eq_ok read

end Lists

end Compile

namespace Parallel

open World Compile

variable {ω : Type} {symbols : SymbolTable} {aside : Addr → Prop} {base : Heap} {w : World}

section Points

variable {room i : Nat} {ctx' : Context ω} {recorder : Recorder ω} {s' : State ω}
  {e e' k' v head head' : Value} {args args' : List Value} {p q : Point ω}

end Points

end Parallel

end SecdLisp
