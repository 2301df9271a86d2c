import SecdLisp.Proofs.Turns
import SecdLisp.Proofs.Upkeep.Termination

/-!
# The capacity of a heap

A heap with more room makes a difference only after the smaller one has refused a cell, and a heap
refuses a cell only when all its room is in use.
-/

namespace SecdLisp

open Bench

def Turn.outcome (turn : Turn) : EStateM.Result Error Session Value :=
  match turn.result with
  | .ok v => .ok v turn.after
  | .error e => .error e turn.after

namespace Session

variable {source : Source} {s s' t t' : Session} {turns : List Turn} {steps : Nat} {exact : Prop}
  {α : Type} {e : Error}

theorem outcome_turn (steps : Nat) (expr : Value) (s : Session) :
    (turn steps expr s).outcome = (do run steps (← compile steps expr)) s := by
  unfold turn
  cases compiled : compile steps expr s with
  | error e t => rw [bind_of_eq_error compiled]; rfl
  | ok code t =>
    rw [bind_of_eq_ok compiled]
    dsimp only
    cases run steps code t <;> rfl

theorem heedless_turn (steps : Nat) (expr : Value) :
    bench.Heedless exact (do run steps (← compile steps expr)) :=
  (heedless_compile steps expr).bind fun code => heedless_run steps code

/-- The turn of a form differs only where the smaller heap is full. -/
theorem turn_alike (steps : Nat) (expr : Value) (alike : bench.Alike exact s s') :
    (turn steps expr s').result = (turn steps expr s).result ∧
        bench.Alike exact (turn steps expr s).after (turn steps expr s').after ∨
      (turn steps expr s).result = .error .heapFull := by
  have matched := heedless_turn steps expr s s' alike
  rw [← outcome_turn, ← outcome_turn] at matched
  unfold Turn.outcome at matched
  cases first : (turn steps expr s).result <;> cases second : (turn steps expr s').result <;>
    rw [first, second] at matched <;> cases matched
  case error.error.error alike => exact .inl ⟨rfl, alike⟩
  case ok.ok.ok alike => exact .inl ⟨rfl, alike⟩
  all_goals exact .inr rfl

/-- Sessions that only the room tells apart take the same turns, unless there comes one for which
the smaller has no room. -/
theorem Turns.alike (course : Turns steps source s turns t) (alike : bench.Alike exact s s') :
    (∃ turns' t', Turns steps source s' turns' t' ∧ turns'.map Turn.result = turns.map Turn.result ∧
      bench.Alike exact t t') ∨ ∃ turn ∈ turns, turn.result = .error .heapFull := by
  induction course generalizing s' with
  | @done source rest s t found =>
    have matched := heedless_readNext source s s' alike
    rw [found] at matched
    generalize found' : readNext source s' = r' at matched
    cases matched with
    | ok alike => exact .inl ⟨[], _, .done found', rfl, alike⟩
  | @unread source s t e refused =>
    have matched := heedless_readNext source s s' alike
    rw [refused] at matched
    generalize refused' : readNext source s' = r' at matched
    cases matched with
    | error alike => exact .inl ⟨_, _, .unread refused', rfl, alike⟩
    | full => exact .inr ⟨_, List.mem_singleton_self _, rfl⟩
  | @read source rest s t u expr turns found later ih =>
    have matched := heedless_readNext source s s' alike
    rw [found] at matched
    generalize found' : readNext source s' = r' at matched
    cases matched with
    | ok alike =>
      rcases turn_alike steps expr alike with ⟨same, alike⟩ | full
      · rcases ih alike with ⟨turns', u', later', same', alike⟩ | ⟨turn, mem, full⟩
        · refine .inl ⟨_, u', .read found' later', ?_, alike⟩
          rw [List.map_cons, List.map_cons, same, same']
        · exact .inr ⟨turn, List.mem_cons_of_mem _ mem, full⟩
      · exact .inr ⟨_, List.mem_cons_self, full⟩

theorem alike_of_create {cells cells' : Nat} {level level' : LogLevel} (le : cells ≤ cells')
    (made : create cells level = .ok s) (made' : create cells' level' = .ok s') :
    bench.Alike False s s' := by
  have work : Heap.bench.Heedless False Globals.create :=
    (Heap.heedless_list _).bind fun _ => heedless_pure _
  have start : Heap.bench.Alike False (Heap.ofCapacity cells) (Heap.ofCapacity cells') :=
    ⟨⟨rfl, by simp only [Heap.bench, id, Heap.capacity_ofCapacity]; omega, False.elim⟩, trivial⟩
  have matched := work _ _ start
  unfold create at made made'
  generalize Globals.create (Heap.ofCapacity cells) = r at made matched
  generalize Globals.create (Heap.ofCapacity cells') = r' at made' matched
  cases matched with
  | ok alike =>
    cases made
    cases made'
    exact ⟨alike.heap, rfl, rfl⟩
  | error => cases made
  | full => cases made

theorem turn_lasts (steps : Nat) (expr : Value) (s : Session) :
    s.heap.Lasts (turn steps expr s).after.heap ∧
      ((turn steps expr s).result = .error .heapFull → (turn steps expr s).after.heap.Full) := by
  have ends := ends_of_heedless (heedless_turn steps expr) s
  unfold Ends at ends
  rw [← outcome_turn] at ends
  unfold Turn.outcome at ends
  cases result : (turn steps expr s).result with
  | ok v =>
    rw [result] at ends
    exact ⟨ends, nofun⟩
  | error e =>
    rw [result] at ends
    exact ⟨ends.1, fun same => ends.2 (Except.error.inj same)⟩

/-- The heap is full when a turn tells so, and stays full. -/
theorem Turns.full (course : Turns steps source s turns t) : s.heap.Lasts t.heap ∧
    ∀ turn ∈ turns, turn.result = .error .heapFull → turn.after.heap.Full ∧ t.heap.Full := by
  induction course with
  | @done source rest s t found =>
    exact ⟨(ends_of_heedless (heedless_readNext source) s).of_eq_ok found, by simp⟩
  | @unread source s t e refused =>
    obtain ⟨lasts, full⟩ := (ends_of_heedless (heedless_readNext source) s).of_eq_error refused
    refine ⟨lasts, List.forall_mem_singleton.mpr fun same => ?_⟩
    have full := full (Except.error.inj same)
    exact ⟨full, full⟩
  | @read source rest s t u expr turns found later ih =>
    have first := (ends_of_heedless (heedless_readNext source) s).of_eq_ok found
    obtain ⟨second, full⟩ := turn_lasts steps expr t
    refine ⟨(first.trans second).trans ih.1, List.forall_mem_cons.mpr ⟨fun same => ?_, ih.2⟩⟩
    exact ⟨full same, (full same).lasts ih.1⟩

theorem full_of_answered {values : α → List Value} {x : SessionM α}
    (work : bench.Heedless True x) (refused : .error .heapFull ∈ (answered values x s).2) :
    (answered values x s).1.heap.Full := by
  have ends := ends_of_heedless work s
  unfold Ends at ends
  unfold answered at refused ⊢
  generalize x s = r at ends refused ⊢
  cases r with
  | ok a t => simp at refused
  | error e t =>
    rw [List.mem_singleton] at refused
    exact ends.2 (Except.error.inj refused).symm

theorem full_of_perform (op : Operation) (refused : .error .heapFull ∈ (perform op s).2) :
    (perform op s).1.heap.Full := by
  cases op with
  | intern name => exact full_of_answered (heedless_intern name) refused
  | cons car cdr => exact full_of_answered (heedless_onHeap (Heap.heedless_cons car cdr)) refused
  | store env depth index v =>
    exact full_of_answered (heedless_onHeap (Heap.heedless_store env depth index v)) refused
  | read text => exact full_of_answered (heedless_read text) refused
  | compile steps expr => exact full_of_answered (heedless_compile steps expr) refused
  | run steps code => exact full_of_answered (heedless_run steps code) refused
  | eval steps expr => exact full_of_answered (heedless_eval steps expr) refused
  | evalText steps text =>
    exact full_of_answered (heedless_evalFrom steps text.toList (.ofString text) .nil) refused
  | evalEach steps text =>
    obtain ⟨turns, t, course⟩ := exists_turns_of_text steps text s
    unfold perform at refused ⊢
    dsimp only at refused ⊢
    rw [evalEach_eq_turns course] at refused ⊢
    obtain ⟨turn, mem, full⟩ := List.mem_map.mp refused
    exact (course.full.2 turn mem full).2
  | defineFunction name => exact full_of_answered (heedless_defineFunction name) refused
  | defineMacro name => exact full_of_answered (heedless_defineMacro name) refused
  | capture => exact (List.not_mem_nil refused).elim
  | restore image => exact full_of_answered (heedless_restore image) refused

/-- If the outcomes of a text in a new session report no want of room, they are the same in every
new session with more room, and so are the cells, the names and the globals that it is left with.
And want of room is reported, by any operation on any session and for any form of a text, only if
all room is in use. -/
theorem capacity_matters_only_if_full {cells cells' : Nat} {level level' : LogLevel}
    (le : cells ≤ cells') (made : create cells level = .ok s)
    (made' : create cells' level' = .ok s') (steps : Nat) (text : String) :
    ((∀ r ∈ (evalEach steps text s).1, r ≠ .error .heapFull) →
      (evalEach steps text s').1 = (evalEach steps text s).1 ∧
      (evalEach steps text s').2.heap.cells = (evalEach steps text s).2.heap.cells ∧
      (evalEach steps text s').2.symbols = (evalEach steps text s).2.symbols ∧
      (evalEach steps text s').2.globals = (evalEach steps text s).2.globals) ∧
    ∀ t : Session,
      (∀ op, .error .heapFull ∈ (perform op t).2 →
        (perform op t).1.heap.size = (perform op t).1.heap.capacity) ∧
      ∀ turns u, Turns steps (.ofString text) t turns u →
        ∀ turn ∈ turns, turn.result = .error .heapFull →
          turn.after.heap.size = turn.after.heap.capacity := by
  refine ⟨fun enough => ?_, fun t => ⟨fun op => full_of_perform op, ?_⟩⟩
  · obtain ⟨turns, t, course⟩ := exists_turns_of_text steps text s
    rw [evalEach_eq_turns course] at enough ⊢
    rcases course.alike (alike_of_create le made made') with
      ⟨turns', t', course', same, alike⟩ | ⟨turn, mem, full⟩
    · rw [evalEach_eq_turns course', same]
      exact ⟨rfl, alike.heap.cells.symm, alike.same.1.symm, alike.same.2.symm⟩
    · exact (enough _ (by simpa using ⟨turn, mem, full⟩) rfl).elim
  · exact fun turns u course turn mem full => (course.full.2 turn mem full).1

/-- There is room for a form that the machine refuses to carry out, and more makes no difference. -/
theorem capacity_matters_only_if_full_fresh :
    (∀ r ∈ (evalEach 4 "(car 1)" fresh).1, r ≠ .error .heapFull) ∧
    (evalEach 4 "(car 1)" spacious).1 = (evalEach 4 "(car 1)" fresh).1 := by
  have made : create 64 .quiet = .ok spacious := rfl
  have enough : ∀ r ∈ (evalEach 4 "(car 1)" fresh).1, r ≠ .error .heapFull := by decide +kernel
  have same := capacity_matters_only_if_full (by decide) create_fresh made 4 "(car 1)"
  exact ⟨enough, (same.1 enough).1⟩

end Session

end SecdLisp
