import SecdLisp.Proofs.Discipline.Compile
import SecdLisp.Proofs.Reading
import SecdLisp.Proofs.Upkeep.Termination

/-!
# The discipline of whole sessions

Source forms are read and evaluated in a session one after another, whether they fail or not. All
the instructions that are carried out on the way, in runs of the forms and in runs that expand their
macros, keep to the discipline of the machine.
-/

namespace SecdLisp

namespace Discipline

open Contract Compile Machine

/-- A value that was made of atoms by pairing, as text is read. -/
inductive World.Literal (w : World) : Value → Prop where
  | atom {v} (atom : v.isPair = false) : Literal w v
  | pair {v car cdr} (has : w.Has .plain v car cdr) (first : Literal w car)
    (second : Literal w cdr) : Literal w v

namespace World

variable {w w' : World} {v : Value} {a : Addr}

theorem Literal.mono (literal : w.Literal v) (le : w.Le w') : w'.Literal v := by
  induction literal with
  | atom atom => exact .atom atom
  | pair has _ _ first second => exact .pair (has.mono le trivial) first second

theorem Literal.visible (literal : w.Literal v) : w.Visible v := by
  cases literal with
  | atom atom => exact visible_of_isPair atom
  | pair has => exact has.visible trivial

theorem Literal.plain (literal : w.Literal (.pair a)) : a < w.heap.size ∧ w.role a = .plain ∧
    w.Literal (w.heap.car a) ∧ w.Literal (w.heap.cdr a) := by
  cases literal with
  | atom atom => cases atom
  | pair has first second =>
    obtain ⟨_, eq, lt, role, cell⟩ := has
    cases eq
    rw [Heap.car, Heap.cdr, cell]
    exact ⟨lt, role, first, second⟩

theorem Literal.holds (literal : w.Literal v) (reachable : w.heap.Reachable v a) :
    w.Holds a (w.heap.cell a) := by
  have literal : w.Literal (.pair a) := by
    induction reachable with
    | root here => exact here ▸ literal
    | car _ link ih => exact link ▸ ih.plain.2.2.1
    | cdr _ link ih => exact link ▸ ih.plain.2.2.2
  obtain ⟨lt, role, _⟩ := literal.plain
  exact ⟨lt, role ▸ trivial, rfl⟩

end World

def reading : Contract World Reading where
  le := World.Moves fun _ _ => False
  holds w r := r.heap = w.heap ∧ w.Typed
  error _ _ := True
  refl := World.Moves.refl
  trans := World.Moves.trans

theorem takes_reading : Reading.Takes reading World.Literal where
  later moves literal := literal.mono moves.le
  error _ _ := trivial
  source {w _} _ holds := ⟨w, .refl w, holds⟩
  nil _ := .atom rfl
  truth _ := .atom rfl
  int _ _ := .atom rfl
  wellKnown _ _ _ := .atom rfl
  intern w _ := by
    rintro ⟨source, h, symbols⟩ holds
    exact ⟨w, .refl w, holds, .atom rfl⟩
  cons _ _ first second h holds :=
    (keeps_cons .plain (fun _ => ⟨first.visible, second.visible⟩) h holds).mono
      (fun _ _ ⟨w', moves, holds', has⟩ =>
        ⟨w', moves, holds', .pair has (first.mono moves.le) (second.mono moves.le)⟩)
      fun _ _ ⟨w', moves, holds', _⟩ => ⟨w', moves, holds', trivial⟩
  halves holds literal := holds.1 ▸ literal.plain.2.2

variable {root : Value} {o : Option World} {s : Session} {history : List Moment}

theorem ends_readNext (source : Source)
    (holds : (discipline root).holds o ⟨s.heap, s.globals, history⟩) :
    Ends (Session.readNext source) s
      (fun p s' => ∃ o', (discipline root).le o o' ∧
        (discipline root).holds o' ⟨s'.heap, s'.globals, history⟩ ∧
          ∀ v, p.1 = some v → ∀ w ∈ o', w.Literal v)
      fun _ s' => ∃ o', (discipline root).le o o' ∧
        (discipline root).holds o' ⟨s'.heap, s'.globals, history⟩ := by
  obtain ⟨h, symbols, g, log⟩ := s
  obtain ⟨disciplined, known⟩ := holds
  unfold Session.readNext Session.onReader Ends
  dsimp only
  cases o with
  | none =>
    cases Reading.form? ⟨source, h, symbols⟩ with
    | ok found r => exact ⟨none, nofun, ⟨disciplined, known⟩, nofun⟩
    | error e r => exact ⟨none, nofun, disciplined, known⟩
  | some w =>
    have ends := takes_reading.keeps_form? (w := w) ⟨source, h, symbols⟩ ⟨known.heap, known.typed⟩
    unfold Ends at ends
    generalize Reading.form? ⟨source, h, symbols⟩ = result at ends ⊢
    cases result with
    | ok found r =>
      obtain ⟨w', moves, ⟨same, typed⟩, literal⟩ := ends
      refine ⟨some w', le_some moves.le, ⟨disciplined, same ▸ known.later moves typed⟩, ?_⟩
      rintro v eq _ ⟨⟩
      exact literal v eq
    | error e r =>
      obtain ⟨w', moves, ⟨same, typed⟩, _⟩ := ends
      exact ⟨some w', le_some moves.le, disciplined, same ▸ known.later moves typed⟩

/-- Evaluating a form, with a record of the instructions that are carried out. -/
def evaluation (symbols : SymbolTable) (steps : Nat) (expr : Value) :
    CompileM (List Moment) Value := do
  let code ← toplevel chronicle symbols steps expr
  runNow ⟨symbols, steps, chronicle, [], 0⟩ code

theorem keeps_evaluation (symbols : SymbolTable) (steps : Nat) {expr : Value}
    (shown : Shown o expr) : (discipline root).Keeps o Shown (evaluation symbols steps expr) :=
  (keeps_toplevel symbols steps shown).bind fun _ _ _ checked =>
    keeps_runNow rfl fun w mem => ready_of_code (checked w mem)

end Discipline

namespace Session

open Compile Contract Discipline Machine

/-- The instructions that were carried out once a form is evaluated, after those of a history. -/
def evaluated (steps : Nat) (expr : Value) (s : Session) (history : List Moment) : List Moment :=
  (left (evaluation s.symbols steps expr) ⟨s.heap, s.globals, history⟩).record

/-- A session that started fresh, where source forms were read and evaluated, whether they failed or
not, and all instructions that its machine carried out. -/
inductive Story : Session → List Moment → Prop where
  | created {cells level s} (new : create cells level = .ok s) : Story s []
  | logged {s history} (before : Story s history) (log : Log) : Story { s with log } history
  | read {s history} (before : Story s history) (source : Source) :
    Story (left (readNext source) s) history
  | evaluated {s history source rest expr} (before : Story s history)
    (found : value? (readNext source) s = some (some expr, rest)) (steps : Nat) :
    Story (left (eval steps expr) (left (readNext source) s))
      (evaluated steps expr (left (readNext source) s) history)

variable {s : Session} {history : List Moment} {expr : Value}

/-- Recording the instructions makes no difference to what evaluating a form does to the session. -/
theorem left_eval (inRange : s.InRange) (known : s.Knows expr) (steps : Nat)
    (history : List Moment) :
    let t := left (evaluation s.symbols steps expr) ⟨s.heap, s.globals, history⟩
    (left (eval steps expr) s).heap = t.heap ∧ (left (eval steps expr) s).globals = t.globals := by
  have same := compiled_eq_outcome inRange known chronicle history steps
  obtain ⟨h, symbols, g, log⟩ := s
  unfold compiled compile at same
  unfold eval evaluation left compile
  simp only [bind, EStateM.bind]
  dsimp only at same ⊢
  generalize toplevel Log.recorder symbols steps expr ⟨h, g, log⟩ = logged at same ⊢
  generalize toplevel chronicle symbols steps expr ⟨h, g, history⟩ = recorded at same ⊢
  cases logged with
  | error e t =>
    cases recorded with
    | error e' t' =>
      obtain ⟨⟨⟩, eq⟩ := Prod.ext_iff.mp same
      exact ⟨congrArg Prod.fst eq, congrArg Prod.snd eq⟩
    | ok c' t' => cases same
  | ok c t =>
    cases recorded with
    | error e' t' => cases same
    | ok c' t' =>
      obtain ⟨h₁, g₁, log₁⟩ := t
      obtain ⟨h₂, g₂, history₁⟩ := t'
      cases same
      -- Both sides run the same code on the same heap now.
      unfold run runNow
      dsimp only
      cases Machine.run symbols steps g₁.env c h₁ <;> exact ⟨rfl, rfl⟩

theorem knows_of_readNext {source rest : Source} (inRange : s.InRange)
    (found : value? (readNext source) s = some (some expr, rest)) :
    (left (readNext source) s).Knows expr := by
  obtain ⟨_, _, ⟨rfl, _⟩, known⟩ :=
    (keeps_readNext source s ⟨rfl, inRange⟩).of_eq_ok (eq_ok_of_value? found)
  exact known expr rfl

theorem Story.inRange (story : Story s history) : s.InRange := by
  induction story with
  | created new => exact inRange_of_create new
  | logged _ log ih => exact ⟨ih.cells, ih.env, ih.functions, ih.macros⟩
  | read _ source ih => exact (left_of_keeps (keeps_readNext source) ih).1
  | @evaluated _ _ source _ _ _ found steps ih =>
    have inRange := (left_of_keeps (keeps_readNext source) ih).1
    exact (left_of_keeps (keeps_eval steps (knows_of_readNext ih found)) inRange).1

theorem stands_of_create {cells : Nat} {level : LogLevel} (new : create cells level = .ok s) :
    (World.mk s.heap s.globals.env fun _ => .holder none).Stands s.globals.env
      ⟨s.heap, s.globals, []⟩ := by
  obtain ⟨_, globals, held⟩ := create_eq_ok new
  have size : s.heap.size = 2 := congrArg Array.size held
  have cell (a : Addr) : s.heap.cell a =
      (#[⟨.nil, .nil⟩, ⟨.nil, .pair 0⟩] : Array Cell)[a]?.getD ⟨.nil, .nil⟩ := by
    rw [Heap.cell, held]
  have typed : (World.mk s.heap s.globals.env fun _ => .holder none).Typed := by
    constructor
    · intro a lt
      show World.Framed _ none (s.heap.cell a).car ∧ World.Visible _ (s.heap.cell a).cdr
      rw [cell]
      rcases a with _ | _ | a
      · exact ⟨.inl rfl, World.visible_of_isPair rfl⟩
      · refine ⟨.inl rfl, ?_⟩
        rintro _ ⟨⟩
        exact ⟨size ▸ Nat.zero_lt_two, trivial⟩
      · exact ⟨.inl rfl, World.visible_of_isPair rfl⟩
    · refine ⟨1, 0, congrArg Globals.env globals, ⟨size ▸ Nat.one_lt_two, rfl⟩, ?_,
        size ▸ Nat.zero_lt_two, rfl⟩
      show (s.heap.cell 1).cdr = .pair 0
      rw [cell]
      rfl
  refine ⟨fun before m here => ?_, rfl, typed, World.recalls_nil _, rfl, rfl, fun _ table => ?_⟩
  · have none := List.prefix_nil.mp here
    simp at none
  · rw [globals]
    cases table <;> exact Nat.zero_le _

/-- A session is described by a world, as long as its history was honest. -/
def Described (root : Value) (o : Option World) (s : Session) (history : List Moment) : Prop :=
  (discipline root).holds o ⟨s.heap, s.globals, history⟩

variable {root : Value} {o : Option World}

theorem Described.read (described : Described root o s history) (source : Source) :
    ∃ o', (discipline root).le o o' ∧ Described root o' (left (readNext source) s) history :=
  ((ends_readNext source described).mono (fun _ _ ⟨o', le, holds, _⟩ => ⟨o', le, holds⟩)
    fun _ _ => id).left

theorem Described.eval (described : Described root o s history) (inRange : s.InRange)
    (known : s.Knows expr) (shown : Discipline.Shown o expr) (steps : Nat) :
    ∃ o', (discipline root).le o o' ∧
      Described root o' (left (eval steps expr) s) (evaluated steps expr s history) := by
  obtain ⟨heap, globals⟩ := left_eval inRange known steps history
  unfold Described
  rw [heap, globals]
  exact ((keeps_evaluation s.symbols steps shown _ described).mono
    (fun _ _ ⟨o', le, holds, _⟩ => ⟨o', le, holds⟩)
    fun _ _ ⟨o', le, holds, _⟩ => ⟨o', le, holds⟩).left (p := fun t => ∃ o',
      (discipline root).le o o' ∧ (discipline root).holds o' t)

theorem Described.evaluate {source rest : Source} (described : Described root o s history)
    (inRange : s.InRange) (found : value? (readNext source) s = some (some expr, rest))
    (steps : Nat) : ∃ o', (discipline root).le o o' ∧
      Described root o' (left (Session.eval steps expr) (left (readNext source) s))
        (evaluated steps expr (left (readNext source) s) history) := by
  obtain ⟨o₁, le₁, holds₁, literal⟩ :=
    (ends_readNext source described).of_eq_ok (eq_ok_of_value? found)
  have described₁ : Described root o₁ (left (readNext source) s) history := holds₁
  have inRange₁ := (left_of_keeps (keeps_readNext source) inRange).1
  obtain ⟨o₂, le₂, described₂⟩ := described₁.eval inRange₁ (knows_of_readNext inRange found)
    (fun w mem => (literal expr rfl w mem).visible) steps
  exact ⟨o₂, (discipline root).trans le₁ le₂, described₂⟩

/-- Along a story, what is in the session is described by a world, as long as it was honest. -/
theorem Story.holds (story : Story s history) :
    ∃ o, Described s.globals.env o s history := by
  induction story with
  | created new => exact ⟨some _, disciplined_nil, stands_of_create new⟩
  | logged _ log ih => exact ih
  | @read s history before source ih =>
    obtain ⟨o, described⟩ := ih
    obtain ⟨o', _, described'⟩ := described.read source
    rw [(left_of_keeps (keeps_readNext source) before.inRange).2]
    exact ⟨o', described'⟩
  | @evaluated s history source rest expr before found steps ih =>
    obtain ⟨o, described⟩ := ih
    have inRange := before.inRange
    obtain ⟨o', _, described'⟩ := described.evaluate inRange found steps
    obtain ⟨inRange₁, env₁⟩ := left_of_keeps (keeps_readNext source) inRange
    rw [(left_of_keeps (keeps_eval steps (knows_of_readNext inRange found)) inRange₁).2, env₁]
    exact ⟨o', described'⟩

/-- How a session goes on: forms are read and evaluated, whether that fails or not. -/
inductive Proceeds (s : Session) (history : List Moment) : Session → List Moment → Prop where
  | stays : Proceeds s history s history
  | logged {t later} (before : Proceeds s history t later) (log : Log) :
    Proceeds s history { t with log } later
  | read {t later} (before : Proceeds s history t later) (source : Source) :
    Proceeds s history (left (readNext source) t) later
  | evaluated {t later source rest expr} (before : Proceeds s history t later)
    (found : value? (readNext source) t = some (some expr, rest)) (steps : Nat) :
    Proceeds s history (left (eval steps expr) (left (readNext source) t))
      (evaluated steps expr (left (readNext source) t) later)

variable {t u : Session} {later last : List Moment}

theorem Proceeds.trans (first : Proceeds s history t later) (second : Proceeds t later u last) :
    Proceeds s history u last := by
  induction second with
  | stays => exact first
  | logged _ log ih => exact ih.logged log
  | read _ source ih => exact ih.read source
  | evaluated _ found steps ih => exact ih.evaluated found steps

theorem Proceeds.story (proceeds : Proceeds s history t later) (story : Story s history) :
    Story t later := by
  induction proceeds with
  | stays => exact story
  | logged _ log ih => exact ih.logged log
  | read _ source ih => exact ih.read source
  | evaluated _ found steps ih => exact ih.evaluated found steps

/-- Whatever the compiler and its runs do, what is on record stays there. -/
theorem tracks_prefix (names : Nat) (history : List Moment) :
    Tracks names chronicle fun _ record => history <+: record where
  changes _ _ := id
  event _ := id
  run _ _ _ _ _ kept := kept.trans (List.prefix_append ..)

theorem prefix_evaluated (inRange : s.InRange) (known : s.Knows expr) (steps : Nat)
    (history : List Moment) : history <+: evaluated steps expr s history := by
  obtain ⟨sound, tables⟩ := inRange_iff.mp inRange
  have tracks := tracks_prefix s.symbols.count history
  have run {t : State (List Moment)} {code : Value} (known : t.Knows s.symbols.count code) :
      (Compile.upkeep s.symbols.count fun _ record => history <+: record).Keeps t
        (State.Knows s.symbols.count) (runNow ⟨s.symbols, steps, chronicle, [], 0⟩ code) :=
    Compile.keeps_runNow tracks rfl known
  have keeps := (Compile.keeps_toplevel (s := ⟨s.heap, s.globals, history⟩) tracks steps
    (knows_iff.mp known) (Reading.wellKnown_le_count s.symbols)).bind fun _ _ _ known => run known
  have ends := keeps ⟨s.heap, s.globals, history⟩ ⟨rfl, sound, tables, List.prefix_rfl⟩
  refine Ends.left (p := fun t => history <+: t.record) (ends.mono ?_ ?_)
  · rintro _ _ ⟨_, _, ⟨rfl, _, _, kept⟩, _⟩
    exact kept
  · rintro _ _ ⟨_, _, ⟨rfl, _, _, kept⟩, _⟩
    exact kept

theorem Proceeds.keeps_history (proceeds : Proceeds s history t later) (story : Story s history) :
    history <+: later := by
  induction proceeds with
  | stays => exact List.prefix_rfl
  | logged _ _ ih => exact ih
  | read _ _ ih => exact ih
  | @evaluated _ _ source _ _ before found steps ih =>
    have inRange := (before.story story).inRange
    exact ih.trans (prefix_evaluated (left_of_keeps (keeps_readNext source) inRange).1
      (knows_of_readNext inRange found) steps _)

def Continues (history : List Moment) (s : Session) : Prop :=
  ∃ later, history <+: later ∧ Story s later

/-- A session comes to another if it can proceed to it. -/
def ComesTo (s : Session) (history : List Moment) (t : Session) : Prop :=
  ∃ later, Proceeds s history t later

theorem ComesTo.trans (first : ComesTo s history t) (second : ∀ later, ComesTo t later u) :
    ComesTo s history u := by
  obtain ⟨later, proceeds⟩ := first
  obtain ⟨last, proceeds'⟩ := second later
  exact ⟨last, proceeds.trans proceeds'⟩

theorem Story.continues (story : Story s history) (comes : ComesTo s history t) :
    Continues history t := by
  obtain ⟨later, proceeds⟩ := comes
  exact ⟨later, proceeds.keeps_history story, proceeds.story story⟩

theorem comesTo_read {source : Source} (reads : left (readNext source) s = t) : ComesTo s history t :=
  ⟨history, reads ▸ .read .stays source⟩

theorem comesTo_eval {source rest : Source} (found : readNext source s = .ok (some expr, rest) t)
    (steps : Nat) : ComesTo s history (left (eval steps expr) t) := by
  have answer : value? (readNext source) s = some (some expr, rest) := by rw [value?, found]
  rw [← left_of_eq_ok found]
  exact ⟨_, .evaluated .stays answer steps⟩

theorem comesTo_evalNext (steps : Nat) (source : Source) (last : Value)
    (more : Source → Value → SessionM Value)
    (leads : ∀ rest v t later, ComesTo t later (left (more rest v) t)) :
    ComesTo s history (left (do
      match ← readNext source with
      | (none, _) => return last
      | (some expr, rest) => more rest (← eval steps expr)) s) := by
  rw [left_bind]
  cases found : readNext source s with
  | error e t => exact comesTo_read (left_of_eq_error found)
  | ok p t =>
    obtain ⟨form, rest⟩ := p
    cases form with
    | none => exact comesTo_read (left_of_eq_ok found)
    | some expr =>
      have evaluates : ComesTo s history (left (eval steps expr) t) := comesTo_eval found steps
      dsimp only
      rw [left_bind]
      cases ran : eval steps expr t with
      | error e u => exact left_of_eq_error ran ▸ evaluates
      | ok v u =>
        rw [left_of_eq_ok ran] at evaluates
        exact evaluates.trans fun later => leads rest v u later

theorem comesTo_evalFrom (steps : Nat) (bound : List Char) (source : Source) (last : Value) :
    ComesTo s history (left (evalFrom steps bound source last) s) := by
  induction bound generalizing s history source last with
  | nil =>
    unfold evalFrom
    exact comesTo_evalNext steps source last (fun _ u => pure u) fun _ _ _ later => ⟨later, .stays⟩
  | cons c bound ih =>
    unfold evalFrom
    exact comesTo_evalNext steps source last (evalFrom steps bound) fun rest v _ _ => ih rest v

theorem comesTo_evalOne {source rest : Source} (found : readNext source s = .ok (some expr, rest) t)
    (steps : Nat) (before : Array (Except Error Value)) :
    ComesTo s history ((evalOne steps (fun _ _ => pure ()) collect expr t).run before).1 := by
  have evaluates : ComesTo s history (left (eval steps expr) t) := comesTo_eval found steps
  unfold eval at evaluates
  rw [left_bind] at evaluates
  unfold evalOne
  cases first : compile steps expr t with
  | error e u =>
    rw [first] at evaluates
    exact evaluates
  | ok code u =>
    rw [first] at evaluates
    dsimp only at evaluates ⊢
    rw [left_bind] at evaluates
    cases second : run steps code u with
    | error e u' =>
      rw [second] at evaluates
      exact evaluates
    | ok v u' =>
      rw [second] at evaluates
      obtain ⟨later, proceeds⟩ := evaluates
      exact ⟨later, proceeds.logged u'.log⟩

theorem comesTo_streamNext (steps : Nat) (source : Source) (before : Array (Except Error Value))
    (more : Source → Session → StateM (Array (Except Error Value)) Session)
    (leads : ∀ rest t later before, ComesTo t later ((more rest t).run before).1) :
    ComesTo s history ((match readNext source s with
      | .error e s => do
        collect s (.error e)
        return s
      | .ok (none, _) s => return s
      | .ok (some expr, rest) s => do
        more rest (← evalOne steps (fun _ _ => pure ()) collect expr s)).run before).1 := by
  cases found : readNext source s with
  | error e t => exact comesTo_read (left_of_eq_error found)
  | ok p t =>
    obtain ⟨form, rest⟩ := p
    cases form with
    | none => exact comesTo_read (left_of_eq_ok found)
    | some expr =>
      exact (comesTo_evalOne found steps before).trans fun later => leads rest _ later _

theorem comesTo_evalStreamFrom (steps : Nat) (bound : List Char) (source : Source)
    (before : Array (Except Error Value)) : ComesTo s history
      ((evalStreamFrom steps (fun _ _ => pure ()) collect bound source s).run before).1 := by
  induction bound generalizing s history source before with
  | nil =>
    unfold evalStreamFrom
    exact comesTo_streamNext steps source before (fun _ t => pure t) fun _ _ later _ =>
      ⟨later, .stays⟩
  | cons c bound ih =>
    unfold evalStreamFrom
    exact comesTo_streamNext steps source before
      (evalStreamFrom steps (fun _ _ => pure ()) collect bound) fun rest _ _ before =>
        ih rest before

theorem Story.continues_evalFrom (steps : Nat) (bound : List Char) (source : Source) (last : Value)
    (story : Story s history) : Continues history (left (evalFrom steps bound source last) s) :=
  story.continues (comesTo_evalFrom steps bound source last)

theorem Story.continues_evalStreamFrom (steps : Nat) (bound : List Char) (source : Source)
    (story : Story s history) (before : Array (Except Error Value)) : Continues history
      ((evalStreamFrom steps (fun _ _ => pure ()) collect bound source s).run before).1 :=
  story.continues (comesTo_evalStreamFrom steps bound source before)

/-- Whatever forms are evaluated in a session, every instruction of every run keeps to the
discipline of the machine, as long as all pairs that were called so far were made as closures. Whole
texts are evaluated along such a story, whether the first failure ends their evaluation or not. -/
theorem story_disciplined (story : Story s history) :
    (∀ before m, before ++ [m] <+: history → Honest (before ++ [m]) →
      m.Orderly s.globals.env) ∧
    ∀ steps text, Continues history (left (evalText steps text) s) ∧
      Continues history (evalEach steps text s).2 := by
  obtain ⟨o, disciplined, _⟩ := story.holds
  exact ⟨disciplined, fun steps text => ⟨story.continues_evalFrom steps text.toList _ .nil,
    story.continues_evalStreamFrom steps text.toList _ #[]⟩⟩

/-- A session that is about to define a macro, and one that is about to call it. -/
def defining : Session := left (readNext (.ofString "(defm m (x) x) (m 3)")) spacious

def calling : Session := left (readNext (.ofString "(m 3)")) (left (eval 20 (.pair 6)) defining)

/-- The definition makes a closure, and the call runs it before the form that it expands to. -/
def expanding : List Moment := evaluated 20 (.pair 21) calling (evaluated 20 (.pair 6) defining [])

theorem expanding_disciplined : (∃ m ∈ expanding, m.popped?.isSome) ∧
    ∀ m ∈ expanding, m.Orderly (.pair 1) := by
  have made : create 64 .quiet = .ok spacious := rfl
  have first : value? (readNext (.ofString "(defm m (x) x) (m 3)")) spacious =
      some (some (.pair 6), ⟨14, [' ', '(', 'm', ' ', '3', ')']⟩) := by decide +kernel
  have second : value? (readNext (.ofString "(m 3)")) (left (eval 20 (.pair 6)) defining) =
      some (some (.pair 21), ⟨5, []⟩) := by decide +kernel
  have story : Story (left (eval 20 (.pair 21)) calling) expanding :=
    ((Story.created made).evaluated first 20).evaluated second 20
  have env : (left (eval 20 (.pair 21)) calling).globals.env = .pair 1 := by decide +kernel
  have honest : Honest expanding := by decide +kernel
  refine ⟨by decide +kernel, fun m mem => ?_⟩
  obtain ⟨before, after, split⟩ := List.append_of_mem mem
  have here : before ++ [m] <+: expanding := ⟨after, by rw [split, List.append_assoc]; rfl⟩
  exact env ▸ (story_disciplined story).1 before m here (honest.mono here)

end Session

end SecdLisp
