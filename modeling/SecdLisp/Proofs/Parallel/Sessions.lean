import SecdLisp.Proofs.Observation
import SecdLisp.Proofs.Parallel.Compile
import SecdLisp.Proofs.Parallel.Print
import SecdLisp.Proofs.Parallel.Reading

/-!
# Sessions side by side

Sessions whose global states correspond read, compile and run a text in parallel, and show the
same of it.
-/

namespace SecdLisp

namespace Parallel

open World Session

structure OnSessions (w : World) (s t : Session) : Prop where
  heaps : OnHeaps s.symbols t.symbols w s.heap t.heap
  globals : w.Tables s.globals t.globals

variable {w w' : World} {s t : Session} {v v' : Value}

theorem sim_compile (steps : Nat) (values : w.Values v v') :
    Sim OnSessions w World.Values (compile steps v) (compile steps v') := by
  intro s t states
  obtain ⟨h, symbols, g, log⟩ := s
  obtain ⟨h', symbols', g', log'⟩ := t
  have before : OnStates symbols symbols' w (⟨h, g, log⟩ : Compile.State Log)
      ⟨h', g', log'⟩ := ⟨states.heaps, states.globals⟩
  have agree := sim_toplevel Log.recorder Log.recorder steps values _ _ before
  unfold compile
  dsimp only
  generalize Compile.toplevel Log.recorder symbols steps v ⟨h, g, log⟩ = r at agree ⊢
  generalize Compile.toplevel Log.recorder symbols' steps v' ⟨h', g', log'⟩ = r' at agree ⊢
  cases agree with
  | ok le after values => exact .ok le ⟨after.heaps, after.globals⟩ values
  | error le after errors => exact .error le ⟨after.heaps, after.globals⟩ errors
  | leftFull loose => exact .leftFull loose
  | rightFull loose => exact .rightFull loose

theorem sim_runCode (steps : Nat) (code : w.Values v v') :
    Sim OnSessions w World.Values (Session.run steps v) (Session.run steps v') := by
  intro s t states
  obtain ⟨h, symbols, g, log⟩ := s
  obtain ⟨h', symbols', g', log'⟩ := t
  have agree := sim_run steps states.globals.env code h h' states.heaps
  unfold Session.run
  dsimp only
  generalize Machine.run symbols steps g.env v h = r at agree ⊢
  generalize Machine.run symbols' steps g'.env v' h' = r' at agree ⊢
  cases agree with
  | ok le heaps values => exact .ok le ⟨heaps, states.globals.mono le⟩ values
  | error le heaps errors => exact .error le ⟨heaps, states.globals.mono le⟩ errors
  | leftFull loose => exact .leftFull loose
  | rightFull loose => exact .rightFull loose

structure World.Items (w : World) (p q : Option Value × Source) : Prop where
  forms : Option.Rel w.Values p.1 q.1
  source : p.2 = q.2

/-- What is read only refers to cells made on the way, of which there are none at the start. -/
theorem sim_readNext (source : Source) :
    Sim OnSessions w World.Items (readNext source) (readNext source) := by
  intro s t states
  obtain ⟨h, symbols, g, log⟩ := s
  obtain ⟨h', symbols', g', log'⟩ := t
  have none (h : Heap) : Descends h.size h := by
    refine ⟨Nat.le_refl _, ?_, ?_⟩
    · intro a le lt
      exact (Nat.not_lt_of_le le lt).elim
    · intro a le lt
      exact (Nat.not_lt_of_le le lt).elim
  have before : OnReadings h.size h'.size w ⟨source, h, symbols⟩ ⟨source, h', symbols'⟩ :=
    ⟨rfl, states.heaps, none h, none h'⟩
  have agree := sim_form? _ _ before
  unfold readNext onReader
  dsimp only
  generalize Reading.form? ⟨source, h, symbols⟩ = r at agree ⊢
  generalize Reading.form? ⟨source, h', symbols'⟩ = r' at agree ⊢
  cases agree with
  | @ok w₁ x y r r' le after fresh =>
    refine .ok le ⟨after.fresh.heaps, states.globals.mono le⟩ ⟨?_, after.source⟩
    cases fresh with
    | none => exact .none
    | some fresh => exact .some fresh.values
  | error le after errors =>
    exact .error le ⟨after.fresh.heaps, states.globals.mono le⟩ errors
  | leftFull loose => exact .leftFull loose
  | rightFull loose => exact .rightFull loose

theorem sim_eval (steps : Nat) (values : w.Values v v') :
    Sim OnSessions w World.Values (eval steps v) (eval steps v') := by
  apply (sim_compile steps values).bind
  intro w₁ c c' le₁ codes
  apply (sim_runCode steps codes).bind
  intro w₂ u u' le₂ results
  have sizes : Sim OnSessions w₂ (fun _ _ _ => True)
      (Session.onHeap (Heap.read Heap.size)) (Session.onHeap (Heap.read Heap.size)) := by
    intro s t states
    exact .ok (.refl w₂) ⟨states.heaps, states.globals⟩ trivial
  apply sizes.bind
  intro w₃ n n' le₃ _
  have reported : Sim OnSessions w₃ (fun _ _ _ => True) (report (.evaluated n))
      (report (.evaluated n')) := by
    intro s t states
    exact .ok (.refl w₃) ⟨states.heaps, states.globals⟩ trivial
  apply reported.bind
  intro w₄ _ _ le₄ _
  exact .pure ((results.mono le₃).mono le₄)

theorem sim_evalFrom (steps : Nat) (bound : List Char) (source : Source)
    (values : w.Values v v') :
    Sim OnSessions w World.Values (evalFrom steps bound source v)
      (evalFrom steps bound source v') := by
  induction bound generalizing w source v v' with
  | nil =>
    unfold evalFrom
    apply (sim_readNext source).bind
    intro w₁ p q le₁ items
    obtain ⟨form, rest⟩ := p
    obtain ⟨form', rest'⟩ := q
    obtain ⟨forms, same⟩ := items
    dsimp only at forms same
    cases forms with
    | none => exact .pure (values.mono le₁)
    | some form =>
      apply (sim_eval steps form).bind
      intro w₂ u u' le₂ results
      exact .pure results
  | cons _ bound ih =>
    unfold evalFrom
    apply (sim_readNext source).bind
    intro w₁ p q le₁ items
    obtain ⟨form, rest⟩ := p
    obtain ⟨form', rest'⟩ := q
    obtain ⟨forms, same⟩ := items
    dsimp only at forms same
    subst same
    cases forms with
    | none => exact .pure (values.mono le₁)
    | some form =>
      apply (sim_eval steps form).bind
      intro w₂ u u' le₂ results
      exact ih rest results

theorem OnSessions.print_eq (states : OnSessions w s t) (values : w.Values v v') :
    s.print v = t.print v' := by
  have same := Parallel.print_eq states.heaps.heaps values
  rwa [states.heaps.left, states.heaps.right] at same

theorem OnSessions.shownResult_eq (states : OnSessions w s t) {e e' : Error}
    (errors : w.Errors e e') : s.shownResult (.error e) = t.shownResult (.error e') := by
  cases errors with
  | runtime machines =>
    simp only [shownResult, Error.withRegisters, Error.registers?, Option.map_some, List.map_cons,
      List.map_nil, states.print_eq machines.stack, states.print_eq machines.env,
      states.print_eq machines.code, states.print_eq machines.dump]
  | other none => simp [shownResult, none]

/-- Two sides that have seen the same and correspond, or parted when a heap was full. -/
inductive Abreast (w : World) : Session × List Shown → Session × List Shown → Prop where
  | same {w' : World} {s t : Session} (seen : List Shown) (le : w.Within w')
    (states : OnSessions w' s t) : Abreast w (s, seen) (t, seen)
  | parted {p q : Session × List Shown} (loose : ¬w.exact) (parted : Parted p.2 q.2) :
    Abreast w p q

theorem Abreast.of_within {p q : Session × List Shown} (abreast : Abreast w' p q)
    (le : w.Within w') : Abreast w p q := by
  cases abreast with
  | same seen le' states => exact .same seen (le.trans le') states
  | parted loose parted => exact .parted (fun exact => loose (le.exact.mpr exact)) parted

def watchOne (steps : Nat) (v : Value) (s : Session) (seen : List Shown) :
    Session × List Shown :=
  (evalOne steps (fun s code => record (s.shownCode code))
    (fun s r => record (s.shownResult r)) v s : StateM (List Shown) Session).run seen

def watchCode (steps : Nat) (code : Value) (s : Session) (seen : List Shown) :
    Session × List Shown :=
  match Session.run steps code s with
  | .error e s => (s, seen ++ [s.shownResult (.error e)])
  | .ok v s => (s, seen ++ [s.shownResult (.ok v)])

theorem watchOne_eq (steps : Nat) (v : Value) (s : Session) (seen : List Shown) :
    watchOne steps v s seen =
      match compile steps v s with
      | .error e s => (s, seen ++ [s.shownResult (.error e)])
      | .ok code s => watchCode steps code s (seen ++ [s.shownCode code]) := by
  unfold watchOne evalOne watchCode
  cases compile steps v s with
  | error e s => rfl
  | ok code s =>
    show StateT.run (do
      record (s.shownCode code)
      match Session.run steps code s with
      | .error e s =>
        record (s.shownResult (.error e))
        return s
      | .ok v s =>
        record (s.shownResult (.ok v))
        return s) seen = _
    dsimp only
    cases Session.run steps code s with
    | error e s' => rfl
    | ok u s' => rfl

/-- What is seen of the next form of a text, and what `more` sees once it is read. -/
def watchNext (source : Source) (s : Session) (seen : List Shown)
    (more : Value → Source → Session → Session × List Shown) : Session × List Shown :=
  match readNext source s with
  | .error e s => (s, seen ++ [s.shownResult (.error e)])
  | .ok (none, _) s => (s, seen)
  | .ok (some v, rest) s => more v rest s

theorem watchFrom_nil (steps : Nat) (source : Source) (s : Session) (seen : List Shown) :
    watchFrom steps [] source s seen =
      watchNext source s seen fun v _ s => watchOne steps v s seen := by
  rw [watchFrom, evalStreamFrom, watchNext]
  cases readNext source s with
  | error e s => rfl
  | ok p s =>
    obtain ⟨form, rest⟩ := p
    cases form <;> rfl

theorem watchFrom_cons (steps : Nat) (c : Char) (bound : List Char) (source : Source)
    (s : Session) (seen : List Shown) :
    watchFrom steps (c :: bound) source s seen =
      watchNext source s seen fun v rest s =>
        watchFrom steps bound rest (watchOne steps v s seen).1 (watchOne steps v s seen).2 := by
  rw [watchFrom, evalStreamFrom, watchNext]
  cases readNext source s with
  | error e s => rfl
  | ok p s =>
    obtain ⟨form, rest⟩ := p
    cases form <;> rfl

/-! What was seen before stays, and after it comes the code of the next form. -/

theorem le_watchCode (steps : Nat) (code : Value) (s : Session) (seen : List Shown) :
    seen <+: (watchCode steps code s seen).2 := by
  unfold watchCode
  split <;> exact List.prefix_append ..

theorem le_watchOne (steps : Nat) (v : Value) (s : Session) (seen : List Shown) :
    seen <+: (watchOne steps v s seen).2 := by
  cases run : compile steps v s with
  | error e s =>
    rw [watchOne_eq, run]
    exact List.prefix_append ..
  | ok code s =>
    rw [watchOne_eq, run]
    exact (List.prefix_append ..).trans (le_watchCode ..)

theorem le_watchNext {more : Value → Source → Session → Session × List Shown}
    {seen : List Shown} (prior : ∀ v rest s, seen <+: (more v rest s).2) (source : Source)
    (s : Session) : seen <+: (watchNext source s seen more).2 := by
  unfold watchNext
  split
  · exact List.prefix_append ..
  · exact List.prefix_rfl
  · exact prior ..

theorem le_watchFrom (steps : Nat) (bound : List Char) (source : Source) (s : Session)
    (seen : List Shown) : seen <+: (watchFrom steps bound source s seen).2 := by
  induction bound generalizing source s seen with
  | nil =>
    rw [watchFrom_nil]
    exact le_watchNext (fun _ _ _ => le_watchOne ..) source s
  | cons c bound ih =>
    rw [watchFrom_cons]
    exact le_watchNext (fun _ _ _ => (le_watchOne ..).trans (ih ..)) source s

theorem watchCode_abreast (steps : Nat) (states : OnSessions w s t) (codes : w.Values v v')
    (seen : List Shown) :
    Abreast w (watchCode steps v s seen) (watchCode steps v' t seen) := by
  have ran := sim_runCode steps codes s t states
  generalize left : Session.run steps v s = r at ran
  generalize right : Session.run steps v' t = r' at ran
  cases ran with
  | ok le states results =>
    rw [watchCode, watchCode, left, right]
    dsimp only [shownResult]
    rw [states.print_eq results]
    exact .same _ le states
  | error le states errors =>
    rw [watchCode, watchCode, left, right]
    dsimp only
    rw [states.shownResult_eq errors]
    exact .same _ le states
  | leftFull loose =>
    refine .parted loose ⟨seen, .inl ⟨?_, le_watchCode ..⟩⟩
    rw [watchCode, left]
    exact List.prefix_rfl
  | rightFull loose =>
    refine .parted loose ⟨seen, .inr ⟨le_watchCode .., ?_⟩⟩
    rw [watchCode, right]
    exact List.prefix_rfl

theorem watchOne_abreast (steps : Nat) (states : OnSessions w s t) (values : w.Values v v')
    (seen : List Shown) :
    Abreast w (watchOne steps v s seen) (watchOne steps v' t seen) := by
  have compiled := sim_compile steps values s t states
  generalize left : compile steps v s = r at compiled
  generalize right : compile steps v' t = r' at compiled
  cases compiled with
  | error le states errors =>
    rw [watchOne_eq, watchOne_eq, left, right]
    dsimp only
    rw [states.shownResult_eq errors]
    exact .same _ le states
  | leftFull loose =>
    refine .parted loose ⟨seen, .inl ⟨?_, le_watchOne ..⟩⟩
    rw [watchOne_eq, left]
    exact List.prefix_rfl
  | rightFull loose =>
    refine .parted loose ⟨seen, .inr ⟨le_watchOne .., ?_⟩⟩
    rw [watchOne_eq, right]
    exact List.prefix_rfl
  | @ok _ code code' s₁ t₁ le states codes =>
    have same : s₁.shownCode code = t₁.shownCode code' :=
      congrArg Shown.code (states.print_eq codes)
    rw [watchOne_eq, watchOne_eq, left, right]
    dsimp only
    rw [same]
    exact (watchCode_abreast steps states codes _).of_within le

theorem watchNext_abreast {more : Value → Source → Session → Session × List Shown}
    {seen : List Shown} (source : Source) (states : OnSessions w s t)
    (prior : ∀ v rest s, seen <+: (more v rest s).2)
    (keeps : ∀ w' v v' rest s t, OnSessions w' s t → w'.Values v v' →
      Abreast w' (more v rest s) (more v' rest t)) :
    Abreast w (watchNext source s seen more) (watchNext source t seen more) := by
  have left := le_watchNext prior source s
  have right := le_watchNext prior source t
  have read := sim_readNext source s t states
  unfold watchNext at left right ⊢
  generalize readNext source s = r at left read ⊢
  generalize readNext source t = r' at right read ⊢
  cases read with
  | error le states errors =>
    dsimp only
    rw [states.shownResult_eq errors]
    exact .same _ le states
  | leftFull loose => exact .parted loose ⟨seen, .inl ⟨List.prefix_rfl, right⟩⟩
  | rightFull loose => exact .parted loose ⟨seen, .inr ⟨left, List.prefix_rfl⟩⟩
  | @ok w₁ p q s₁ t₁ le states items =>
    obtain ⟨form, rest⟩ := p
    obtain ⟨form', rest'⟩ := q
    obtain ⟨forms, same⟩ := items
    dsimp only at forms same
    subst same
    cases forms with
    | none => exact .same seen le states
    | some form => exact (keeps w₁ _ _ rest s₁ t₁ states form).of_within le

theorem watchFrom_abreast (steps : Nat) (bound : List Char) (source : Source)
    (states : OnSessions w s t) (seen : List Shown) :
    Abreast w (watchFrom steps bound source s seen) (watchFrom steps bound source t seen) := by
  induction bound generalizing w source s t seen with
  | nil =>
    rw [watchFrom_nil, watchFrom_nil]
    apply watchNext_abreast source states
    · intro v rest s
      exact le_watchOne ..
    · intro w' v v' rest s t states values
      exact watchOne_abreast steps states values seen
  | cons c bound ih =>
    rw [watchFrom_cons, watchFrom_cons]
    apply watchNext_abreast source states
    · intro v rest s
      exact (le_watchOne ..).trans (le_watchFrom ..)
    · intro w' v v' rest s t states values
      have one := watchOne_abreast steps states values seen
      generalize watchOne steps v s seen = a at one ⊢
      generalize watchOne steps v' t seen = b at one ⊢
      cases one with
      | same seen le states => exact (ih rest states seen).of_within le
      | parted loose parted =>
        exact .parted loose (parted.extend (le_watchFrom ..) (le_watchFrom ..))

theorem watch_abreast (steps : Nat) (text : String) (states : OnSessions w s t) :
    Abreast w (watch steps text s) (watch steps text t) :=
  watchFrom_abreast steps text.toList (.ofString text) states []

/-- Corresponding sessions cannot be told apart. -/
theorem OnSessions.indistinguishable (states : OnSessions w s t) : Indistinguishable s t := by
  refine ⟨fun s t => ∃ w, OnSessions w s t, ⟨?_, ?_⟩, w, states⟩
  · intro s t related steps text
    obtain ⟨w, states⟩ := related
    have abreast := watch_abreast steps text states
    generalize watch steps text s = p at abreast ⊢
    generalize watch steps text t = q at abreast ⊢
    cases abreast with
    | same => exact .inl rfl
    | parted _ parted => exact .inr parted
  · intro s t related steps text left right
    obtain ⟨w, states⟩ := related
    have abreast := watch_abreast steps text states
    generalize watch steps text s = p at abreast left ⊢
    generalize watch steps text t = q at abreast right ⊢
    cases abreast with
    | same _ _ states => exact ⟨_, states⟩
    | parted _ parted =>
      rcases parted.overflow_mem with full | full
      · exact (left full).elim
      · exact (right full).elim

end Parallel

end SecdLisp
