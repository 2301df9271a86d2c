import SecdLisp.Proofs.Addressing
import SecdLisp.Proofs.Reference.Changes
import SecdLisp.Proofs.Reference.Steps

/-!
# Lexical addresses

The address that a name is compiled to leads, in the machine's environment, to the slot where
the evaluator has its binding.
-/

namespace SecdLisp

namespace Reference

open Layout

variable {P : Program} {g n : Nat} {L : Layout} {σ : Store} {h h' : Heap}

/-- In the heap, a binding is in the frame that a cell of the environment holds. -/
structure BoundAt (L : Layout) (h : Heap) (E : Value) (depth : Nat) (b : Binding) : Prop where
  positive : 0 < depth ∧ 0 < b.index
  few : b.index < 2 ^ 63
  holder : ∃ a, h.frameHolder? E depth = some a ∧ L.frames[b.frame]? = some a

theorem Layout.EnvAt.inner {locals : Locals} {E : Value} (env : L.EnvAt g locals E)
    (links : ∀ a f next, L.role a = some (.holder f next) → h.cdr a = next) {name : Symbol}
    {b : Binding} (found : locals.find? name = some b) :
    ∃ depth, Frame.locate? (locals.map Prod.fst) name = some ⟨depth, b.index, b.formal⟩ ∧
      depth ≤ locals.length ∧ BoundAt L h E depth b := by
  induction env with
  | globals _ _ => cases found
  | @within params f locals a next frame role few older inner rest ih =>
    rw [Locals.find?] at found
    rw [List.map_cons, Frame.locate?]
    rcases here : params.find? name with _ | ⟨index, formal⟩ <;> rw [here] at found
    · obtain ⟨depth, located, le, ⟨positive, few', c, holder, frame'⟩⟩ := ih found
      refine ⟨depth + 1, by simp only [located]; rfl, Nat.succ_le_succ le,
        ⟨Nat.succ_pos _, positive.2⟩, few', c, ?_, frame'⟩
      exact frameHolder?_next (links a f next role) positive.1 holder
    · cases found
      obtain ⟨positive, le⟩ := find?_bounds here
      exact ⟨1, rfl, by simp, ⟨Nat.one_pos, positive⟩, Nat.lt_of_le_of_lt le few, a, rfl, frame⟩

theorem Layout.EnvAt.outer {locals : Locals} {E : Value} (env : L.EnvAt g locals E)
    (links : ∀ a f next, L.role a = some (.holder f next) → h.cdr a = next) {name : Symbol}
    (missing : locals.find? name = none) :
    Frame.locate? (locals.map Prod.fst) name = none ∧
      ∃ a, h.frameHolder? E (locals.length + 1) = some a ∧ L.frames[g]? = some a := by
  induction env with
  | @globals a next frame role => exact ⟨rfl, a, rfl, frame⟩
  | @within params f locals a next frame role few older inner rest ih =>
    rw [Locals.find?] at missing
    rw [List.map_cons, Frame.locate?]
    rcases here : params.find? name with _ | ⟨index, formal⟩ <;> rw [here] at missing
    · obtain ⟨notLocated, b, holder, frame'⟩ := ih missing
      refine ⟨by simp only [notLocated]; rfl, b, ?_, frame'⟩
      exact frameHolder?_next (links a f next role) (Nat.succ_pos _) holder
    · cases missing

theorem Layout.EnvAt.length_lt {locals : Locals} {E : Value} (env : L.EnvAt g locals E) {bound : Nat}
    (older : ∀ p ∈ locals, p.2 < bound) (inner : g < bound) : locals.length < bound := by
  induction env generalizing bound with
  | globals _ _ => exact Nat.zero_lt_of_lt inner
  | @within params f locals a next frame role few older' inner' rest ih =>
    have lt := ih older' inner'
    have le := older _ (List.mem_cons_self ..)
    rw [List.length_cons]
    omega

theorem Layout.EnvAt.frames_lt {locals : Locals} {E : Value} (env : L.EnvAt g locals E) :
    g < L.frames.length ∧ ∀ p ∈ locals, p.2 < L.frames.length := by
  induction env with
  | globals frame _ => exact ⟨(List.getElem?_eq_some_iff.mp frame).1, by simp⟩
  | @within params f locals a next frame role few older' inner' rest ih =>
    refine ⟨ih.1, fun p mem => ?_⟩
    rcases List.mem_cons.mp mem with rfl | mem
    · exact (List.getElem?_eq_some_iff.mp frame).1
    · exact ih.2 p mem

theorem Mirrors.frames_length_le (mirrors : Mirrors P g L σ h) : L.frames.length ≤ h.size := by
  have holds (f : Nat) (lt : f < L.frames.length) :
      ∃ next, L.role L.frames[f] = some (.holder f next) := by
    have known : f < σ.frames.length := by rwa [← mirrors.frameCount]
    exact (mirrors.frames f _ _ (List.getElem?_eq_getElem lt) (List.getElem?_eq_getElem known)).1
  refine Heap.length_le_of_nodup (List.nodup_iff_injective_getElem.mpr fun i j same => ?_)
    fun a mem => ?_
  · obtain ⟨next, role⟩ := holds i i.2
    obtain ⟨next', role'⟩ := holds j j.2
    have eq : L.frames[i.1] = L.frames[j.1] := same
    rw [eq] at role
    have number := (Role.holder.inj (Option.some.inj (role.symm.trans role'))).1
    exact Fin.ext number
  · obtain ⟨f, lt, rfl⟩ := List.mem_iff_getElem.mp mem
    obtain ⟨next, role⟩ := holds f lt
    exact mirrors.owned _ _ role

theorem Layout.EnvAt.length_lt_word {locals : Locals} {E : Value} (env : L.EnvAt g locals E)
    (mirrors : Mirrors P g L σ h) : locals.length + 1 < 2 ^ 63 := by
  obtain ⟨inner, older⟩ := env.frames_lt
  have few := env.length_lt older inner
  have le := mirrors.frames_length_le
  have word := h.size_lt_word
  have big : UInt32.size < 2 ^ 63 := by decide
  omega

theorem address?_of_address {depth index : Nat} {v : Value}
    (address : Address P.code depth index v) (held : Holds P.code h) (positive : 0 < depth ∧ 0 < index)
    (few : depth < 2 ^ 63 ∧ index < 2 ^ 63) : Machine.address? h v = some (depth, index) := by
  obtain ⟨a, rfl, code⟩ := address
  exact Machine.address?_of_cell (held _ _ code) positive few

theorem Mirrors.holds (mirrors : Mirrors P g L σ h) : Holds P.code h :=
  fun a c code => mirrors.fixed a c (mirrors.code a c code)

/-- The operand for a name spells an address that leads to the name's binding. -/
theorem placed_bound (mirrors : Mirrors P g L σ h) {locals : Locals} {E v : Value}
    (env : L.EnvAt g locals E) {name : Symbol} {formal : Formal} {b : Binding}
    (placed : Placed P (locals.map Prod.fst) name formal v)
    (found : Env.find? ⟨locals, P.table, g⟩ name = some b) :
    b.formal = formal ∧
      ∃ depth, Machine.address? h v = some (depth, b.index) ∧ BoundAt L h E depth b := by
  have few := env.length_lt_word mirrors
  rw [Env.find?] at found
  rcases local? : Locals.find? locals name with _ | b' <;> rw [local?] at found
  · obtain ⟨missing, a, holder, frame⟩ := env.outer mirrors.links local?
    obtain ⟨slot, global, rfl⟩ := Option.map_eq_some_iff.mp found
    cases placed with
    | inner located _ =>
      rw [missing] at located
      cases located
    | outer _ known address =>
      have eq : slot = _ := Option.some.inj (global.symm.trans known)
      subst eq
      obtain ⟨i, here, eq⟩ := Option.map_eq_some_iff.mp global
      have lt : i < P.table.length := by
        obtain ⟨lt, _⟩ := List.idxOf?_eq_some_iff.mp here
        exact lt
      have short := mirrors.table
      have positive : 0 < slot ∧ slot < 2 ^ 63 := by omega
      refine ⟨rfl, locals.length + 1, ?_, ⟨Nat.succ_pos _, positive.1⟩, positive.2, a, holder, frame⟩
      rw [List.length_map] at address
      exact address?_of_address address mirrors.holds ⟨Nat.succ_pos _, positive.1⟩ ⟨few, positive.2⟩
  · cases found
    obtain ⟨depth, located, le, bound⟩ := env.inner mirrors.links local?
    cases placed with
    | inner located' address =>
      cases located.symm.trans located'
      refine ⟨rfl, depth, ?_, bound⟩
      exact address?_of_address address mirrors.holds bound.positive ⟨by omega, bound.few⟩
    | outer missing _ _ =>
      rw [missing] at located
      cases located

end Reference

end SecdLisp
