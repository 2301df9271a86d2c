import SecdLisp.Proofs.Globals.Passage
import SecdLisp.Proofs.Parallel.Restored
import SecdLisp.Proofs.Turns
import SecdLisp.Proofs.Upkeep.Leftovers
import SecdLisp.Shell.Repl

/-!
# Showing code

The code of a form can be shown without running it. That makes cells, and it may make names known.
Nothing that is evaluated later refers to these cells, and names without a slot mean nothing; so the
results are the same as if the code had never been asked for, unless the form gave a name a slot.
-/

namespace SecdLisp

namespace Parallel

open World Session

variable {w w' : World} {s s' t t' : Session} {v v' : Value} {e e' : Error} {source : Source}
  {turns turns' : List Turn} {steps : Nat} {text : String}

inductive World.Results (w : World) : Except Error Value → Except Error Value → Prop where
  | ok {v v' : Value} (values : w.Values v v') : Results w (.ok v) (.ok v')
  | error {e e' : Error} (errors : w.Errors e e') : Results w (.error e) (.error e')

theorem World.Errors.mono (errors : w.Errors e e') (le : w.Within w') : w'.Errors e e' := by
  cases errors with
  | runtime machines => exact .runtime (machines.mono le)
  | other none => exact .other none

theorem World.Results.mono {r r' : Except Error Value} (results : w.Results r r')
    (le : w.Within w') : w'.Results r r' := by
  cases results with
  | ok values => exact .ok (values.mono le)
  | error errors => exact .error (errors.mono le)

def Overflows (rs : List (Except Error Value)) : Prop := .error .heapFull ∈ rs

/-- Two sides that have come to corresponding results, or to a full heap on one of them. -/
def Conclude (w : World) (s t : Session) (rs rs' : List (Except Error Value)) : Prop :=
  Overflows rs ∨ Overflows rs' ∨
    ∃ w', w.Within w' ∧ OnSessions w' s t ∧ List.Forall₂ w'.Results rs rs'

theorem Conclude.cons {s₁ t₁ : Session} {r r' : Except Error Value}
    {rs rs' : List (Except Error Value)} (le : w.Within w') (first : Conclude w' s₁ t₁ [r] [r'])
    (others : ∀ w₁, OnSessions w₁ s₁ t₁ → Conclude w₁ s t rs rs') :
    Conclude w s t (r :: rs) (r' :: rs') := by
  obtain full | full | ⟨w₁, le₁, states, results⟩ := first
  · exact .inl (List.mem_cons.mpr (.inl (List.mem_singleton.mp full)))
  · exact .inr (.inl (List.mem_cons.mpr (.inl (List.mem_singleton.mp full))))
  obtain full | full | ⟨w₂, le₂, states, more⟩ := others w₁ states
  · exact .inl (List.mem_cons_of_mem _ full)
  · exact .inr (.inl (List.mem_cons_of_mem _ full))
  cases results with
  | cons result _ =>
    exact .inr (.inr ⟨w₂, (le.trans le₁).trans le₂, states, .cons (result.mono le₂) more⟩)

theorem turn_concludes (steps : Nat) (states : OnSessions w s t) (values : w.Values v v') :
    Conclude w (turn steps v s).after (turn steps v' t).after [(turn steps v s).result]
      [(turn steps v' t).result] := by
  have compiles := sim_compile steps values s t states
  unfold turn
  generalize compile steps v s = c at compiles
  generalize compile steps v' t = c' at compiles
  cases compiles with
  | error le states errors => exact .inr (.inr ⟨_, le, states, .cons (.error errors) .nil⟩)
  | leftFull => exact .inl (List.mem_singleton_self _)
  | rightFull => exact .inr (.inl (List.mem_singleton_self _))
  | @ok w₁ code code' s₁ t₁ le states codes =>
    have runs := sim_runCode steps codes s₁ t₁ states
    dsimp only
    generalize Session.run steps code s₁ = r at runs
    generalize Session.run steps code' t₁ = r' at runs
    cases runs with
    | ok le' states results => exact .inr (.inr ⟨_, le.trans le', states, .cons (.ok results) .nil⟩)
    | error le' states errors => exact .inr (.inr ⟨_, le.trans le', states, .cons (.error errors) .nil⟩)
    | leftFull => exact .inl (List.mem_singleton_self _)
    | rightFull => exact .inr (.inl (List.mem_singleton_self _))

/-- The forms of a text come to corresponding results, one after the other. -/
theorem turns_conclude (course : Turns steps source s turns s')
    (course' : Turns steps source t turns' t') (states : OnSessions w s t) :
    Conclude w s' t' (turns.map Turn.result) (turns'.map Turn.result) := by
  induction course generalizing w t turns' with
  | @done source _ _ _ found =>
    have read := sim_readNext source _ _ states
    rw [found] at read
    cases course' with
    | done found' =>
      rw [found'] at read
      cases read with
      | ok le states _ => exact .inr (.inr ⟨_, le, states, .nil⟩)
    | unread refused =>
      rw [refused] at read
      cases read with
      | rightFull => exact .inr (.inl (List.mem_singleton_self _))
    | read found' later =>
      rw [found'] at read
      cases read with
      | ok _ _ items => cases items.forms
  | @unread source _ _ _ refused =>
    have read := sim_readNext source _ _ states
    rw [refused] at read
    cases course' with
    | done found' =>
      rw [found'] at read
      cases read with
      | leftFull => exact .inl (List.mem_singleton_self _)
    | unread refused' =>
      rw [refused'] at read
      cases read with
      | error le states errors => exact .inr (.inr ⟨_, le, states, .cons (.error errors) .nil⟩)
      | leftFull => exact .inl (List.mem_singleton_self _)
      | rightFull => exact .inr (.inl (List.mem_singleton_self _))
    | read found' later =>
      rw [found'] at read
      cases read with
      | leftFull => exact .inl (List.mem_singleton_self _)
  | @read source _ _ _ _ _ _ found later ih =>
    have read := sim_readNext source _ _ states
    rw [found] at read
    cases course' with
    | done found' =>
      rw [found'] at read
      cases read with
      | ok _ _ items => cases items.forms
    | unread refused =>
      rw [refused] at read
      cases read with
      | rightFull => exact .inr (.inl (List.mem_singleton_self _))
    | read found' later' =>
      rw [found'] at read
      cases read with
      | ok le states items =>
        obtain ⟨forms, same⟩ := items
        dsimp only at forms same
        subst same
        cases forms with
        | some form =>
          exact (turn_concludes steps states form).cons le fun _ states => ih later' states

theorem evalEach_concludes (steps : Nat) (text : String) (states : OnSessions w s t) :
    Conclude w (evalEach steps text s).2 (evalEach steps text t).2
      (evalEach steps text s).1.toList (evalEach steps text t).1.toList := by
  obtain ⟨turns, s', course⟩ := exists_turns_of_text steps text s
  obtain ⟨turns', t', course'⟩ := exists_turns_of_text steps text t
  rw [evalEach_eq_turns course, evalEach_eq_turns course']
  exact turns_conclude course course' states

end Parallel

namespace Session

open Parallel

variable {w : Parallel.World} {s t : Session} {v : Value} {steps : Nat} {text : String}

/-- All results of several texts, one after the other. The results of a text are printed when it
has been evaluated. -/
def eachAll : List (Nat × String) → Session → List (List Shown)
  | [], _ => []
  | (steps, text) :: inputs, s =>
    (evalEach steps text s).1.toList.map (evalEach steps text s).2.shownResult ::
      eachAll inputs (evalEach steps text s).2

theorem overflow_mem {rs : List (Except Error Value)} (full : Overflows rs) (s : Session) :
    .overflow ∈ rs.map s.shownResult := List.mem_map.mpr ⟨_, full, rfl⟩

theorem map_shownResult_eq (states : OnSessions w s t) {rs rs' : List (Except Error Value)}
    (results : List.Forall₂ w.Results rs rs') : rs.map s.shownResult = rs'.map t.shownResult := by
  induction results with
  | nil => rw [List.map_nil, List.map_nil]
  | cons first _ ih =>
    rw [List.map_cons, List.map_cons, ih]
    cases first with
    | ok values =>
      dsimp only [shownResult]
      rw [states.print_eq values]
    | error errors => rw [states.shownResult_eq errors]

theorem eachAll_eq (states : OnSessions w s t) (inputs : List (Nat × String))
    (left : ∀ seen ∈ eachAll inputs s, .overflow ∉ seen)
    (right : ∀ seen ∈ eachAll inputs t, .overflow ∉ seen) :
    eachAll inputs s = eachAll inputs t := by
  induction inputs generalizing w s t with
  | nil => rfl
  | cons input inputs ih =>
    obtain ⟨steps, text⟩ := input
    rw [eachAll, List.forall_mem_cons] at left right
    obtain full | full | ⟨w', le, states, results⟩ := evalEach_concludes steps text states
    · exact (left.1 (overflow_mem full _)).elim
    · exact (right.1 (overflow_mem full _)).elim
    rw [eachAll, eachAll, map_shownResult_eq states results, ih states left.2 right.2]

/-- A session side by side with one that has more cells and names. -/
def common (s t : Session) : Parallel.World :=
  ⟨fun a b => a = b ∧ a < s.heap.size, s.symbols, t.symbols, False⟩

theorem common_names (within : s.symbols.Within t.symbols) {i : Symbol} (lt : i < s.symbols.count) :
    (common s t).Names i i :=
  ⟨lt, Nat.lt_of_lt_of_le lt within.count_le, (within.name lt).symm⟩

theorem common_values (within : s.symbols.Within t.symbols) (known : s.Knows v) :
    (common s t).Values v v := by
  cases v with
  | nil => exact .nil
  | truth => exact .truth
  | int n => exact .int n
  | ident i => exact .ident (common_names within known)
  | op o => exact .op o
  | pair a => exact .pair ⟨rfl, known⟩

theorem onSessions_of_grows (inRange : s.InRange) (within : s.symbols.Within t.symbols)
    (grows : s.heap.Grows t.heap) (same : t.globals = s.globals) :
    OnSessions (common s t) s t where
  heaps := by
    refine ⟨rfl, rfl, ?_, ?_, ?_, ?_, ?_, False.elim⟩
    · rintro a b ⟨rfl, lt⟩
      exact ⟨lt, Nat.lt_of_lt_of_le lt grows.size_le⟩
    · rintro a a' b ⟨rfl, _⟩ ⟨rfl, _⟩
      rfl
    · rintro a b b' ⟨rfl, _⟩ ⟨rfl, _⟩
      rfl
    · rintro a b ⟨rfl, lt⟩
      rw [grows.car lt]
      exact common_values within (inRange.cells a).1
    · rintro a b ⟨rfl, lt⟩
      rw [grows.cdr lt]
      exact common_values within (inRange.cells a).2
  globals := by
    rw [same]
    exact ⟨common_values within inRange.env,
      List.forall₂_same.mpr fun i mem => common_names within (inRange.functions i mem),
      List.forall₂_same.mpr fun i mem => common_names within (inRange.macros i mem)⟩

/-- The code of the first form of a text. It is not run. -/
def codeOf (steps : Nat) (text : String) : SessionM Value := do
  compile steps (← read text)

theorem showCode_eq (manner : Manner) (text : String) (s : Session) (desk : Desk) :
    ((Repl.showCode manner text s : StateM Desk Session).run desk).1 =
      left (codeOf manner.steps text) s := by
  unfold Repl.showCode codeOf left
  cases (do compile manner.steps (← read text) : SessionM Value) s <;> rfl

/-- No macro is expanded in the form. -/
def Unexpanded (steps : Nat) (text : String) (s : Session) : Prop :=
  ∀ v t, read text s = .ok v t →
    Compile.startedBy t.symbols steps v t.heap t.globals = []

theorem grows_read (text : String) (s : Session) :
    s.heap.Grows (left (read text) s).heap ∧ (left (read text) s).globals = s.globals := by
  obtain ⟨h, symbols, g, log⟩ := s
  have ends := Discipline.takes_growth.keeps_form (w := h) ⟨.ofString text, h, symbols⟩ rfl
  unfold Ends at ends
  rw [read, left_bind]
  unfold onReader
  dsimp only
  cases run : Reading.form ⟨.ofString text, h, symbols⟩ <;>
  · rw [run] at ends
    obtain ⟨_, grows, rfl, _⟩ := ends
    exact ⟨grows, rfl⟩

theorem added_codeOf (inRange : s.InRange) (unexpanded : Unexpanded steps text s) :
    s.symbols.Within (left (codeOf steps text) s).symbols ∧
    s.heap.Grows (left (codeOf steps text) s).heap ∧
    (left (codeOf steps text) s).globals.env = s.globals.env := by
  have reads := keeps_read text s ⟨rfl, inRange⟩
  obtain ⟨grows, same⟩ := grows_read text s
  rw [codeOf, left_bind]
  cases run : read text s with
  | error e t =>
    obtain ⟨_, later, ⟨rfl, _⟩, _⟩ := reads.of_eq_error run
    rw [left_of_eq_error run] at grows
    exact ⟨later.symbols, grows, later.env⟩
  | ok v t =>
    obtain ⟨_, later, ⟨rfl, inRange'⟩, known⟩ := reads.of_eq_ok run
    rw [left_of_eq_ok run] at grows
    have compiles := keeps_compile steps known t ⟨rfl, inRange'⟩
    obtain ⟨env, grows', _⟩ := (compile_traceless steps v t).2.2 inRange' known (unexpanded v t run)
    have within : t.symbols.Within (left (compile steps v) t).symbols := by
      refine Ends.left (p := fun u => t.symbols.Within u.symbols) (compiles.mono ?_ ?_)
      · rintro _ _ ⟨_, later, ⟨rfl, _⟩, _⟩
        exact later.symbols
      · rintro _ _ ⟨_, later, ⟨rfl, _⟩, _⟩
        exact later.symbols
    exact ⟨later.symbols.trans within, grows.trans grows', env.trans later.env⟩

/-- Code that was shown makes no difference to what is evaluated later, if no macro was expanded for
it and it gave no name a slot. -/
theorem showing_unseen (reached : Reached s) (manner : Manner) (desk : Desk)
    (unexpanded : Unexpanded manner.steps text s) :
    let t := ((Repl.showCode manner text s : StateM Desk Session).run desk).1
    t.globals.functions = s.globals.functions → t.globals.macros = s.globals.macros →
    Indistinguishable s t ∧
    ∀ inputs, (∀ seen ∈ eachAll inputs s, .overflow ∉ seen) →
      (∀ seen ∈ eachAll inputs t, .overflow ∉ seen) → eachAll inputs t = eachAll inputs s := by
  intro t functions macros
  have inRange := inRange_of_reached reached
  obtain ⟨within, grows, env⟩ := added_codeOf inRange unexpanded
  rw [← showCode_eq manner text s desk] at within grows env
  have same : t.globals = s.globals := by
    show (⟨t.globals.env, t.globals.functions, t.globals.macros⟩ : Globals) = s.globals
    rw [env, functions, macros]
  have states := onSessions_of_grows inRange within grows same
  exact ⟨states.indistinguishable, fun inputs left right => (eachAll_eq states inputs left right).symm⟩

theorem unexpanded_of_value? (found : value? (read text) s = some v)
    (none : Compile.startedBy (left (read text) s).symbols steps v (left (read text) s).heap
      (left (read text) s).globals = []) : Unexpanded steps text s := by
  intro u t run
  rw [left_of_eq_ok run] at none
  rw [value?, run] at found
  rwa [Option.some.inj found]

/-- The session after the code of a text was shown in a new one. -/
def shown (text : String) : Session :=
  ((Repl.showCode ⟨20, false⟩ text spacious : StateM Desk Session).run default).1

def asking : List (Nat × String) := [(20, "(set x 1)"), (20, "x")]

/-- The code of a list of numbers is shown, and then a variable is assigned and read. -/
theorem showing_list_unseen : Reached spacious ∧ Unexpanded 20 "(list 1 2)" spacious ∧
    eachAll asking (shown "(list 1 2)") = eachAll asking spacious := by
  have made : create 64 .quiet = .ok spacious := rfl
  have found : value? (read "(list 1 2)") spacious = some (.pair 4) := by decide +kernel
  have unexpanded : Unexpanded 20 _ _ := unexpanded_of_value? found (by decide +kernel)
  have unseen := showing_unseen (.created made) ⟨20, false⟩ default unexpanded (by decide +kernel)
    (by decide +kernel)
  exact ⟨.created made, unexpanded, unseen.2 asking (by decide +kernel) (by decide +kernel)⟩

/-- The code of an assignment is shown. After that its variable has a slot, and reading it fails when
it is run and no more when it is compiled. -/
theorem showing_set_seen : Reached spacious ∧ Unexpanded 20 "(set x 1)" spacious ∧
    eachAll [(20, "x")] spacious = [[.failure (.compile (.unknownIdentifier "x")) none]] ∧
    eachAll [(20, "x")] (shown "(set x 1)") =
      [[.failure (.runtime (.unbound 1 1) .empty)
        (some ["nil", "(nil nil)", "([IS:LD] (1 . 1) [IS:HALT])", "nil"])]] := by
  have made : create 64 .quiet = .ok spacious := rfl
  have found : value? (read "(set x 1)") spacious = some (.pair 4) := by decide +kernel
  have unexpanded : Unexpanded 20 _ _ := unexpanded_of_value? found (by decide +kernel)
  exact ⟨.created made, unexpanded, by decide +kernel, by decide +kernel⟩

end Session

end SecdLisp
