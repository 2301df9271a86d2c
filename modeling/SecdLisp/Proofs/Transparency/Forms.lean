import SecdLisp.Proofs.Transparency.Swap

/-!
# One argument in place of another

Whichever of the arguments of a form is evaluated, the form is compiled in step with the same form
that has another expression in its place.
-/

namespace SecdLisp

namespace Compile

variable {ω : Type} {room : Nat} {ctx : Context ω} {s : State ω} {i : Nat} {q : Point ω}

theorem Script.compound_of_plain {name : Symbol} {args : List Value} {k : Value}
    (plain : Plain name) : compound ctx (.ident name) args k = applied ctx name args k := by
  rw [compound, Script.named, plain.special, plain.builtin]
  exact if_neg plain.list

end Compile

namespace Parallel

open World Compile

variable {ω : Type} {symbols : SymbolTable} {aside : Addr → Prop} {base : Heap} {w : World}
  {room i : Nat} {ctx ctx' : Context ω} {e e' v v' u u' k k' : Value}
  {before before' after after' : List Value} {frame? frame'? : Option Frame} {f f' : Frame}
  {next next' : Value → Script ω}

section Contexts

variable (contexts : Contexts symbols symbols w ctx ctx')

include contexts

section Lists

variable (preceding : List.Forall₂ w.Values before before')
  (following : List.Forall₂ w.Values after after') (rest : w.Values k k')

include preceding following rest

end Lists

section Forms

variable (rest : w.Values k k')

include rest

end Forms

section Compound

variable (preceding : List.Forall₂ w.Values before before')
  (following : List.Forall₂ w.Values after after') (rest : w.Values k k')

include preceding following rest

end Compound

end Contexts

end Parallel

end SecdLisp
