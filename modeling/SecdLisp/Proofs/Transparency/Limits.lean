import SecdLisp.Proofs.Transparency.Script

/-!
# Limits of compiling

How deep expressions and expansions may nest, and how many cells the heap has, only decides whether
compiling meets a limit. What meets none comes out the same with more room to nest, and out of fewer
expansions.
-/

namespace SecdLisp

/-- The errors of the limits on nesting, on expansions and on the heap. -/
inductive Error.IsLimit : Error → Prop where
  | heap : IsLimit .heapFull
  | nesting {form : String} : IsLimit (.malformed form .nestedTooDeeply)
  | expansions {form : String} : IsLimit (.malformed form .expansionTooDeep)

namespace Compile

variable {ω σ α β : Type} {x y : EStateM Error σ α} {f g : α → EStateM Error σ β} {s : σ}

def Limited (r : EStateM.Result Error σ α) : Prop := ∃ e s, r = .error e s ∧ e.IsLimit

theorem Limited.bind (limited : Limited (x s)) : Limited ((x >>= f) s) := by
  obtain ⟨e, s', run, limit⟩ := limited
  exact ⟨e, s', bind_of_eq_error run, limit⟩

/-- The first meets a limit, or both have the same outcome. -/
def UpTo (x y : EStateM Error σ α) : Prop := ∀ s, Limited (x s) ∨ x s = y s

theorem UpTo.refl (x : EStateM Error σ α) : UpTo x x := fun _ => .inr rfl

theorem UpTo.bind (first : UpTo x y) (next : ∀ a, UpTo (f a) (g a)) : UpTo (x >>= f) (y >>= g) := by
  intro s
  obtain limited | same := first s
  · exact .inl limited.bind
  · cases run : x s with
    | ok a s' =>
      rw [bind_of_eq_ok run, bind_of_eq_ok (same ▸ run)]
      exact next a s'
    | error e s' =>
      rw [bind_of_eq_error run, bind_of_eq_error (same ▸ run)]
      exact .inr rfl

def Context.outOf (ctx : Context ω) (n : Nat) : Context ω := { ctx with expansions := n }

theorem Context.inside_outOf (ctx : Context ω) (n : Nat) (frame? : Option Frame) :
    (ctx.outOf n).inside frame? = (ctx.inside frame?).outOf n := by
  cases frame? <;> rfl

theorem Context.expansions_inside (ctx : Context ω) (frame? : Option Frame) :
    (ctx.inside frame?).expansions = ctx.expansions := by
  cases frame? <;> rfl

variable {part part' : Part ω} {ctx : Context ω} {n slot : Nat} {name : Symbol} {args : List Value}
  {v k : Value}

theorem expansion_eq (few : ctx.expansions < maxExpansions) :
    expansion part ctx name slot args k = (do
      let result ← callMacro ctx slot args
      report ctx (.expanded (ctx.name name))
      part ctx.expanded result k) := by
  unfold expansion callMacro
  rw [if_neg (Nat.not_le.mpr few)]
  simp only [bind_assoc]

theorem limited_expansion (many : maxExpansions ≤ ctx.expansions) (s : State ω) :
    Limited (expansion part ctx name slot args k s) := by
  unfold expansion
  rw [if_pos many]
  exact ⟨_, s, rfl, .expansions⟩

/-- What a part needs no more of than another. -/
def Needs (part part' : Part ω) : Prop :=
  ∀ ctx n v k, n ≤ ctx.expansions → UpTo (part ctx v k) (part' (ctx.outOf n) v k)

theorem Needs.expansion (needs : Needs part part') (le : n ≤ ctx.expansions) :
    UpTo (expansion part ctx name slot args k) (expansion part' (ctx.outOf n) name slot args k) := by
  by_cases few : ctx.expansions < maxExpansions
  · rw [expansion_eq few, expansion_eq (Nat.lt_of_le_of_lt le few)]
    exact (UpTo.refl _).bind fun result => (UpTo.refl _).bind fun _ =>
      needs ctx.expanded (n + 1) result k (Nat.succ_le_succ le)
  · exact fun s => .inl (limited_expansion (Nat.le_of_not_lt few) s)

theorem Needs.run (needs : Needs part part') (script : Script ω) (le : n ≤ ctx.expansions) :
    UpTo (script.run part ctx) (script.run part' (ctx.outOf n)) := by
  induction script with
  | done code => exact .refl _
  | work x next ih => exact (UpTo.refl x).bind fun a => ih a
  | part frame? expr k next ih =>
    refine UpTo.bind ?_ fun code => ih code
    rw [Context.inside_outOf]
    exact needs (ctx.inside frame?) n expr k (ctx.expansions_inside frame? ▸ le)
  | call name slot args k => exact needs.expansion le

theorem Needs.whole (needs : Needs part part') : Needs (whole part) (whole part') := by
  intro ctx n v k le
  rw [← Script.run_expression, ← Script.run_expression]
  exact needs.run (Script.expression ctx v k) le

/-- More room, and fewer expansions that a form came out of, make no difference to compiling it if it
meets no limit. -/
theorem expression_needs {room room' : Nat} (le : room ≤ room') :
    Needs (expression room : Part ω) (expression room') := by
  induction room generalizing room' with
  | zero => exact fun ctx n v k _ s => .inl ⟨_, s, rfl, .nesting⟩
  | succ room ih =>
    obtain ⟨room', rfl⟩ := Nat.exists_eq_add_one_of_ne_zero (Nat.ne_zero_of_lt le)
    exact (ih (Nat.le_of_succ_le_succ le)).whole

end Compile

end SecdLisp
