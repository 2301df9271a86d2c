import SecdLisp.Heap
import SecdLisp.Proofs.Outcome

/-!
# Contracts

A contract says which states a world describes and which worlds may come after it. Work keeps a
contract if it leads from every state that a world describes to one that a later world describes,
whether it ends in a value or in an error.
-/

namespace SecdLisp

structure Contract (W σ : Type) where
  /-- A world may come after another. -/
  le : W → W → Prop
  holds : W → σ → Prop
  /-- The error only refers to what the world has. -/
  error : W → Error → Prop
  refl : ∀ w, le w w
  trans : ∀ {w w' w''}, le w w' → le w' w'' → le w w''

namespace Contract

variable {W σ α β : Type} {C : Contract W σ} {w w' : W} {p p' : W → α → Prop} {q : W → β → Prop}

def Keeps (C : Contract W σ) (w : W) (p : W → α → Prop) (x : EStateM Error σ α) : Prop :=
  ∀ s, C.holds w s → Ends x s (fun a s' => ∃ w', C.le w w' ∧ C.holds w' s' ∧ p w' a)
    fun e s' => ∃ w', C.le w w' ∧ C.holds w' s' ∧ C.error w' e

theorem keeps_pure {a : α} (value : p w a) : C.Keeps w p (pure a) :=
  fun _ holds => ⟨w, C.refl w, holds, value⟩

theorem keeps_throw {e : Error} (error : C.error w e) : C.Keeps w p (throw e) :=
  fun _ holds => ⟨w, C.refl w, holds, error⟩

theorem Keeps.bind {x : EStateM Error σ α} {f : α → EStateM Error σ β} (first : C.Keeps w p x)
    (next : ∀ w' a, C.le w w' → p w' a → C.Keeps w' q (f a)) : C.Keeps w q (x >>= f) := by
  intro s holds
  rw [ends_bind]
  refine (first s holds).mono ?_ fun _ _ => id
  rintro a s' ⟨w', le, holds', value⟩
  refine (next w' a le value s' holds').mono ?_ ?_
  · rintro b s'' ⟨w'', le', rest⟩
    exact ⟨w'', C.trans le le', rest⟩
  · rintro e s'' ⟨w'', le', rest⟩
    exact ⟨w'', C.trans le le', rest⟩

theorem Keeps.mono {x : EStateM Error σ α} (keeps : C.Keeps w p x)
    (imp : ∀ w' a, C.le w w' → p w' a → p' w' a) : C.Keeps w p' x := by
  intro s holds
  refine (keeps s holds).mono ?_ fun _ _ => id
  rintro a s' ⟨w', le, holds', value⟩
  exact ⟨w', le, holds', imp w' a le value⟩

/-- Work on a list keeps a contract if the work on each element does, in every later world. -/
theorem keeps_foldlM {γ : Type} {f : γ → α → EStateM Error σ γ} {r : W → γ → Prop} {xs : List α}
    {c : γ} (elements : ∀ x ∈ xs, p w x) (later : ∀ w' x, C.le w w' → p w x → p w' x)
    (start : r w c) (body : ∀ w' c x, C.le w w' → r w' c → p w' x → C.Keeps w' r (f c x)) :
    C.Keeps w r (xs.foldlM f c) := by
  suffices ∀ w', C.le w w' → r w' c → C.Keeps w' r (xs.foldlM f c) from this w (C.refl w) start
  clear start
  induction xs generalizing c with
  | nil =>
    intro w' _ start
    exact keeps_pure start
  | cons x xs ih =>
    intro w' le start
    rw [List.forall_mem_cons] at elements
    rw [List.foldlM_cons]
    refine (body w' c x le start (later w' x le elements.1)).bind fun w'' c' le' next => ?_
    exact ih elements.2 w'' (C.trans le le') next

theorem keeps_foldrM {γ : Type} {f : α → γ → EStateM Error σ γ} {r : W → γ → Prop} {xs : List α}
    {c : γ} (elements : ∀ x ∈ xs, p w x) (later : ∀ w' x, C.le w w' → p w x → p w' x)
    (start : r w c) (body : ∀ w' x c, C.le w w' → p w' x → r w' c → C.Keeps w' r (f x c)) :
    C.Keeps w r (xs.foldrM f c) := by
  induction xs with
  | nil => exact keeps_pure start
  | cons x xs ih =>
    rw [List.forall_mem_cons] at elements
    rw [List.foldrM_cons]
    exact (ih elements.2).bind fun w' c le next => body w' x c le (later w' x le elements.1) next

section Looking

variable {C : Contract W Heap} {f : Heap → α}

theorem keeps_seen (value : ∀ h, C.holds w h → p w (f h)) : C.Keeps w p (Heap.read f) :=
  fun h holds => ⟨w, C.refl w, holds, value h holds⟩

theorem keeps_seen_bind {g : α → HeapM β} (next : ∀ h, C.holds w h → C.Keeps w q (g (f h))) :
    C.Keeps w q (Heap.read f >>= g) := fun h holds => next h holds h holds

end Looking

end Contract

end SecdLisp
