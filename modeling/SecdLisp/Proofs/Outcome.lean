/-!
# How stateful work ends

Work on a state ends in a value or in an error, and leaves a state either way.
-/

namespace SecdLisp

variable {ε σ α β : Type}

theorem bind_eq_ok {x : EStateM ε σ α} {f : α → EStateM ε σ β} {s s' : σ} {b : β} :
    (x >>= f) s = .ok b s' ↔ ∃ a s₁, x s = .ok a s₁ ∧ f a s₁ = .ok b s' := by
  show EStateM.bind x f s = _ ↔ _
  unfold EStateM.bind
  cases x s <;> simp [and_assoc]

theorem pure_eq_ok {a b : α} {s s' : σ} :
    (pure a : EStateM ε σ α) s = .ok b s' ↔ b = a ∧ s' = s := by
  simp [pure, EStateM.pure, eq_comm]

theorem bind_of_eq_ok {x : EStateM ε σ α} {f : α → EStateM ε σ β} {s s' : σ} {a : α}
    (run : x s = .ok a s') : (x >>= f) s = f a s' := by
  show EStateM.bind x f s = _
  rw [EStateM.bind, run]

theorem bind_of_eq_error {x : EStateM ε σ α} {f : α → EStateM ε σ β} {s s' : σ} {e : ε}
    (run : x s = .error e s') : (x >>= f) s = .error e s' := by
  show EStateM.bind x f s = _
  rw [EStateM.bind, run]

/-- Work that starts in `s` ends in a value and a state that satisfy `p`, or in an error and a
state that satisfy `q`. -/
def Ends (x : EStateM ε σ α) (s : σ) (p : α → σ → Prop) (q : ε → σ → Prop) : Prop :=
  match x s with
  | .ok a s => p a s
  | .error e s => q e s

namespace Ends

variable {x : EStateM ε σ α} {s : σ} {p p' : α → σ → Prop} {q q' : ε → σ → Prop}

theorem mono (ends : Ends x s p q) (value : ∀ a s, p a s → p' a s)
    (error : ∀ e s, q e s → q' e s) : Ends x s p' q' := by
  revert ends
  unfold Ends
  cases x s with
  | ok a s' => exact value a s'
  | error e s' => exact error e s'

theorem of_forall (value : ∀ a s', p a s') (error : ∀ e s', q e s') : Ends x s p q := by
  unfold Ends
  cases x s with
  | ok a s' => exact value a s'
  | error e s' => exact error e s'

theorem of_eq_ok (ends : Ends x s p q) {a : α} {s' : σ} (run : x s = .ok a s') : p a s' := by
  rwa [Ends, run] at ends

theorem of_eq_error (ends : Ends x s p q) {e : ε} {s' : σ} (run : x s = .error e s') : q e s' := by
  rwa [Ends, run] at ends

end Ends

/-- The state that work leaves, however it ends. -/
def left (x : EStateM ε σ α) (s : σ) : σ :=
  match x s with
  | .ok _ s => s
  | .error _ s => s

def value? (x : EStateM ε σ α) (s : σ) : Option α :=
  match x s with
  | .ok a _ => some a
  | .error _ _ => none

theorem Ends.of_left {x : EStateM ε σ α} {s : σ} {p : σ → Prop} (holds : p (left x s)) :
    Ends x s (fun _ => p) fun _ => p := by
  revert holds
  unfold Ends SecdLisp.left
  cases x s <;> exact id

theorem Ends.left {x : EStateM ε σ α} {s : σ} {p : σ → Prop}
    (ends : Ends x s (fun _ => p) fun _ => p) : p (left x s) := by
  revert ends
  unfold Ends SecdLisp.left
  cases x s <;> exact id

theorem eq_ok_of_value? {x : EStateM ε σ α} {s : σ} {a : α} (found : value? x s = some a) :
    x s = .ok a (left x s) := by
  unfold value? at found
  unfold left
  cases run : x s <;> rw [run] at found <;> cases found
  rfl

def error? (x : EStateM ε σ α) (s : σ) : Option ε :=
  match x s with
  | .ok _ _ => none
  | .error e _ => some e

theorem eq_error_of_error? {x : EStateM ε σ α} {s : σ} {e : ε} (found : error? x s = some e) :
    x s = .error e (left x s) := by
  unfold error? at found
  unfold left
  cases run : x s <;> rw [run] at found <;> cases found
  rfl

theorem left_of_eq_ok {x : EStateM ε σ α} {s s' : σ} {a : α} (run : x s = .ok a s') :
    left x s = s' := by rw [left, run]

theorem left_of_eq_error {x : EStateM ε σ α} {s s' : σ} {e : ε} (run : x s = .error e s') :
    left x s = s' := by rw [left, run]

theorem left_bind {x : EStateM ε σ α} {f : α → EStateM ε σ β} {s : σ} : left (x >>= f) s =
    match x s with
    | .ok a s => left (f a) s
    | .error _ s => s := by
  show left (EStateM.bind x f) s = _
  unfold left EStateM.bind
  cases x s <;> rfl

@[simp] theorem ends_pure {a : α} {s : σ} {p : α → σ → Prop} {q : ε → σ → Prop} :
    Ends (pure a) s p q ↔ p a s := Iff.rfl

@[simp] theorem ends_bind {x : EStateM ε σ α} {f : α → EStateM ε σ β} {s : σ}
    {p : β → σ → Prop} {q : ε → σ → Prop} :
    Ends (x >>= f) s p q ↔ Ends x s (fun a s => Ends (f a) s p q) q := by
  show (match EStateM.bind x f s with | .ok b s => _ | .error e s => _) ↔ _
  unfold EStateM.bind Ends
  cases x s <;> rfl

@[simp] theorem ends_map {x : EStateM ε σ α} {f : α → β} {s : σ} {p : β → σ → Prop}
    {q : ε → σ → Prop} : Ends (f <$> x) s p q ↔ Ends x s (fun a s => p (f a) s) q := by
  show (match EStateM.map f x s with | .ok b s => _ | .error e s => _) ↔ _
  unfold EStateM.map Ends
  cases x s <;> rfl

end SecdLisp
