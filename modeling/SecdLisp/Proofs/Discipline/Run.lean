import SecdLisp.Proofs.Discipline.Memory
import SecdLisp.Proofs.Run

/-!
# Honest runs

An honest run that starts from checked code is an orderly one. After each instruction a later world
describes the heap, in which everything that the history has shown so far is as it was.
-/

namespace SecdLisp

namespace Discipline

open Machine

namespace World

variable {w w' : World} {history : List Moment} {m : Moment} {symbols : SymbolTable}
  {r : Registers} {v : Value} {a : Addr} {c : Cell}

/-- The world after an instruction: what it left on the stack is a closure, a list or a pair that
never changes. -/
structure Follows (w' : World) (m : Moment) : Prop where
  heap : m.after = w'.heap
  typed : w'.Typed
  made : ∀ a ∈ m.made?, w'.Made a
  linked : ∀ a, m.Links a → w'.Linked a
  pair : ∀ a, m.instruction? = some (.ident Builtin.cons.symbol) → m.left? = some (.pair a) →
    w'.Holds a (w'.heap.cell a)
  rest : ∀ v, m.instruction? = some (.op .ldr) → m.left? = some v → w'.Framed (some 0) v

theorem follows_of_end (heap : m.after = w'.heap) (typed : w'.Typed)
    (ended : ∀ r h, m.outcome ≠ .ok (.running r) h) : w'.Follows m := by
  have none : m.left? = none := by
    unfold Moment.left?
    split
    next r h ran => exact (ended r h ran).elim
    next => rfl
  refine ⟨heap, typed, fun a makes => ?_, fun a links => ?_, fun a _ left => ?_, fun v _ left => ?_⟩
  · obtain ⟨_, r, h, ran, _⟩ := Moment.made?_eq_some makes
    exact (ended r h ran).elim
  · cases none.symm.trans links.2
  · cases none.symm.trans left
  · cases none.symm.trans left

theorem follows_of_left {i : Value} {r' : Registers} (typed : w'.Typed)
    (fetched : m.instruction? = some i) (left : w'.Left i (.running r'))
    (ran : m.outcome = .ok (.running r') w'.heap) : w'.Follows m := by
  have top {v : Value} (here : m.left? = some v) : w'.heap.carOf? r'.stack = some v := by
    rwa [Moment.left?, ran] at here
  have instruction {j : Value} (here : m.instruction? = some j) : i = j :=
    Option.some.inj (fetched.symm.trans here)
  refine ⟨by rw [Moment.after, ran], typed, fun a makes => ?_, fun a ⟨cons, here⟩ => ?_,
    fun a cons here => ?_, fun v load here => ?_⟩
  · obtain ⟨ldf, r₁, h₁, ran₁, here⟩ := Moment.made?_eq_some makes
    cases ran.symm.trans ran₁
    obtain rfl := instruction ldf
    exact left.2 _ here
  · obtain rfl := instruction cons
    exact left.2 _ (top here)
  · obtain rfl := instruction cons
    obtain ⟨lt, role⟩ := left.2 _ (top here) rfl
    exact ⟨lt, by rw [role]; trivial, rfl⟩
  · obtain rfl := instruction load
    exact left.2 v (top here)

/-- What is shown by an instruction, or before it, never changes. -/
theorem Recalls.shows (recalls : w.Recalls history) (typed : w.Typed) (ready : w.Ready r)
    (le : w.Le w') (follows : w'.Follows ⟨symbols, r, w.heap⟩)
    (shows : Shows history ⟨symbols, r, w.heap⟩ a c) : w'.Holds a c := by
  cases shows with
  | cons builtin left => exact follows.heap ▸ follows.pair a builtin left
  | rest load left inside =>
    rw [follows.heap] at inside ⊢
    exact follows.typed.holds_inList (follows.rest _ load left) inside
  | closure makes =>
    obtain ⟨lt, role⟩ := follows.made a makes
    refine ⟨lt, ?_, by rw [follows.heap]⟩
    rcases role with role | role <;> rw [role] <;> trivial
  | code inside => exact (ready.coded.codeCell inside).mono le
  | list takes inside linked apart =>
    obtain ⟨d, mem, links⟩ := linked
    have shown := (typed.visible_inList (ready.takes takes) inside a rfl).2
    rcases recalls.linked d mem a links with ⟨lt, pending | done⟩ | ⟨d', mem', calls⟩
    · rw [pending] at shown
      exact shown.elim
    · exact Holds.mono ⟨lt, by rw [done]; trivial, rfl⟩ le
    · exact (apart d' mem' calls).elim

theorem Recalls.snoc (recalls : w.Recalls history) (typed : w.Typed) (ready : w.Ready r)
    (moves : w.Moves (w.Turns r) w') (follows : w'.Follows ⟨symbols, r, w.heap⟩) :
    w'.Recalls (history ++ [⟨symbols, r, w.heap⟩]) where
  made m mem a makes := by
    rcases List.mem_append.mp mem with old | new
    · exact (recalls.made m old a makes).mono moves.le
    · obtain rfl := List.mem_singleton.mp new
      exact follows.made a makes
  linked m mem a links := by
    rcases List.mem_append.mp mem with old | new
    · rcases recalls.linked m old a links with ⟨lt, role⟩ | ⟨d, mem', calls⟩
      · have lt' := Nat.lt_of_lt_of_le lt moves.le.size
        rcases role with pending | done
        · rcases moves.pending a lt pending with still | done | ⟨list, called, inside⟩
          · exact .inl ⟨lt', .inl still⟩
          · exact .inl ⟨lt', .inr done⟩
          · have here : (⟨symbols, r, w.heap⟩ : Moment) ∈ history ++ [⟨symbols, r, w.heap⟩] :=
              List.mem_append_right history (List.mem_singleton_self _)
            exact .inr ⟨_, here, list, called, inside⟩
        · exact .inl ⟨lt', .inr ((moves.le.role a lt (by rw [done]; nofun)).trans done)⟩
      · exact .inr ⟨d, List.mem_append_left _ mem', calls⟩
    · obtain rfl := List.mem_singleton.mp new
      exact .inl (follows.linked a links)
  showed a c showed := by
    rcases showed.snoc with before | now
    · exact (recalls.showed a c before).mono moves.le
    · exact recalls.shows typed ready moves.le follows now
  past m mem := by
    rcases List.mem_append.mp mem with old | new
    · exact (recalls.past m old).mono moves.le
    · obtain rfl := List.mem_singleton.mp new
      exact ⟨w, moves.le, rfl, typed, ready⟩

def Onward (w : World) (history : List Moment) (h : Heap) (w' : World) :
    Prop :=
  w.Le w' ∧ h = w'.heap ∧ w'.Typed ∧ w'.Recalls history

def Goes (w : World) : Outcome → Prop
  | .running r => w.Ready r
  | .halted r => ∃ own, w.Stack [.value] own r.stack

end World

variable {w : World} {history : List Moment} {r : Registers}

/-- An honest instruction of checked code is orderly, and what it shows is not forgotten. -/
theorem step_disciplined (symbols : SymbolTable) (typed : w.Typed) (ready : w.Ready r)
    (recalls : w.Recalls history) (honest : Honest (history ++ [⟨symbols, r, w.heap⟩])) :
    (Moment.mk symbols r w.heap).Orderly w.root ∧
      Ends (step symbols r) w.heap
        (fun o h => ∃ w', w.Onward (history ++ [⟨symbols, r, w.heap⟩]) h w' ∧ w'.Goes o)
        fun _ h => ∃ w', w.Onward (history ++ [⟨symbols, r, w.heap⟩]) h w' := by
  -- The calls so far were honest, so the next one calls a closure.
  have closure (call : w.heap.carOf? r.code = some (.op .ap)) (a : Addr)
      (top : w.heap.carOf? r.stack = some (.pair a)) : w.Made a := by
    obtain ⟨d, mem, makes⟩ := honest history _ List.prefix_rfl a (Moment.popped?_of_ap call top)
    exact recalls.made d mem a makes
  obtain ⟨i, fetched, keeps⟩ := keeps_step symbols ready closure
  have ends := keeps w.heap ⟨rfl, typed⟩
  have orderly : (Moment.mk symbols r w.heap).Orderly w.root := by
    refine ⟨fun e h failed => ?_, fun halts => ready.halts halts⟩
    obtain ⟨_, _, _, ordinary⟩ := ends.of_eq_error failed
    exact ordinary
  refine ⟨orderly, ?_⟩
  have outcome : (Moment.mk symbols r w.heap).outcome = step symbols r w.heap := rfl
  unfold Ends at ends ⊢
  generalize step symbols r w.heap = result at ends outcome ⊢
  cases result with
  | error e h =>
    obtain ⟨w', moves, ⟨rfl, typed'⟩, _⟩ := ends
    have follows : w'.Follows ⟨symbols, r, w.heap⟩ :=
      World.follows_of_end (by rw [Moment.after, outcome]) typed' (by simp [outcome])
    exact ⟨w', moves.le, rfl, typed', recalls.snoc typed ready moves follows⟩
  | ok o h =>
    obtain ⟨w', moves, ⟨rfl, typed'⟩, left⟩ := ends
    cases o with
    | halted r' =>
      have follows : w'.Follows ⟨symbols, r, w.heap⟩ :=
        World.follows_of_end (by rw [Moment.after, outcome]) typed' (by simp [outcome])
      exact ⟨w', ⟨moves.le, rfl, typed', recalls.snoc typed ready moves follows⟩, left⟩
    | running r' =>
      have follows : w'.Follows ⟨symbols, r, w.heap⟩ :=
        World.follows_of_left typed' fetched left outcome
      exact ⟨w', ⟨moves.le, rfl, typed', recalls.snoc typed ready moves follows⟩, left.1⟩

/-- A run of checked code is orderly as long as it is honest. -/
theorem runFrom_disciplined (symbols : SymbolTable) (steps : Nat) (typed : w.Typed)
    (ready : w.Ready r) (recalls : w.Recalls history)
    (disciplined : Disciplined w.root history) :
    Disciplined w.root (history ++ moments symbols steps r w.heap) ∧
      (Honest (history ++ moments symbols steps r w.heap) →
        Ends (runFrom symbols steps r) w.heap
          (fun v h => ∃ w', w.Onward (history ++ moments symbols steps r w.heap) h w' ∧
            w'.Visible v)
          fun _ h => ∃ w', w.Onward (history ++ moments symbols steps r w.heap) h w') := by
  induction steps generalizing w r history with
  | zero =>
    rw [moments, List.append_nil]
    exact ⟨disciplined, fun _ => ⟨w, .refl w, rfl, typed, recalls⟩⟩
  | succ steps ih =>
    have disciplined : Disciplined w.root (history ++ [⟨symbols, r, w.heap⟩]) :=
      disciplined.snoc fun honest => (step_disciplined symbols typed ready recalls honest).1
    rw [moments, List.append_cons]
    by_cases honest : Honest (history ++ [⟨symbols, r, w.heap⟩])
    · have ends := (step_disciplined symbols typed ready recalls honest).2
      unfold Ends at ends ⊢
      rw [runFrom_succ]
      generalize step symbols r w.heap = result at ends ⊢
      cases result with
      | error e h =>
        rw [List.append_nil]
        exact ⟨disciplined, fun _ => ends⟩
      | ok o h =>
        obtain ⟨w', onward, goes⟩ := ends
        cases o with
        | halted r' =>
          rw [List.append_nil]
          obtain ⟨own, stack⟩ := goes
          cases stack with
          | cons top fits _ =>
            refine ⟨disciplined, fun _ => ⟨w', onward, ?_⟩⟩
            rw [onward.2.1, top.carOf?]
            exact fits.2
        | running r' =>
          obtain ⟨le, rfl, typed', recalls'⟩ := onward
          rw [← le.root] at disciplined ⊢
          obtain ⟨rest, ends⟩ := ih typed' goes recalls' disciplined
          refine ⟨rest, fun whole => (ends whole).mono ?_ ?_⟩
          · rintro v h ⟨w₁, ⟨le₁, onward⟩, visible⟩
            exact ⟨w₁, ⟨le.trans le₁, onward⟩, visible⟩
          · rintro e h ⟨w₁, le₁, onward⟩
            exact ⟨w₁, le.trans le₁, onward⟩
    · exact ⟨disciplined.append honest _,
        fun whole => (honest (whole.mono (List.prefix_append ..))).elim⟩

end Discipline

end SecdLisp
