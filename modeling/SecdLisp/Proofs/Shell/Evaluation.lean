import SecdLisp.Proofs.Text.Grammar
import SecdLisp.Proofs.Upkeep.Termination
import SecdLisp.Shell.Evaluate

/-!
# Evaluating phrases

A text is evaluated phrase by phrase, and where a phrase stands in the text makes no difference. What
comes of a phrase does not depend on the log either.
-/

namespace SecdLisp

/-- What goes to standard output and to standard error. -/
@[ext]
structure Written where
  out : String
  err : String
  deriving DecidableEq, Repr, Inhabited

namespace Written

def nothing : Written := ⟨"", ""⟩

instance : Append Written := ⟨fun x y => ⟨x.out ++ y.out, x.err ++ y.err⟩⟩

@[simp] theorem out_append (x y : Written) : (x ++ y).out = x.out ++ y.out := rfl

@[simp] theorem err_append (x y : Written) : (x ++ y).err = x.err ++ y.err := rfl

theorem nothing_append (x : Written) : nothing ++ x = x := by
  ext1 <;> simp [nothing]

theorem append_nothing (x : Written) : x ++ nothing = x := by
  ext1 <;> simp [nothing]

theorem append_assoc (x y z : Written) : x ++ y ++ z = x ++ (y ++ z) := by
  ext1 <;> simp [String.append_assoc]

def join : List Written → Written
  | [] => nothing
  | x :: xs => x ++ join xs

def ofCode (manner : Manner) (s : Session) (code : Value) : Written :=
  ⟨if manner.showCode then s.print code ++ "\n" else "", ""⟩

def ofResult (s : Session) : Except Error Value → Written
  | .ok v => ⟨s.print v ++ "\n", ""⟩
  | .error e => ⟨"", s.describe e ++ "\n"⟩

end Written

namespace Session

open Reading (Carries Fits Grammatical maxNesting)
open Token (Reads)
open Phrase (tokensAll)

variable {src src' : Source} {p : Phrase} {ps qs : List Phrase} {s t : Session} {v : Value}

/-- Read a phrase, wherever it may be written. -/
def build (p : Phrase) : SessionM Value
  | ⟨heap, symbols, globals, log⟩ =>
    match p.build ⟨⟨0, []⟩, heap, symbols⟩ with
    | .ok v r => .ok v ⟨r.heap, r.symbols, globals, log⟩
    | .error e r => .error e ⟨r.heap, r.symbols, globals, log⟩

theorem readNext_eq (fits : Fits maxNesting 0 p) (reads : Reads src p.tokens src') (s : Session) :
    readNext src s = (do return (some (← build p), src')) s := by
  obtain ⟨h, symbols, g, log⟩ := s
  have carries := Reading.form?_carries fits.1 fits.2 reads ⟨⟨0, []⟩, h, symbols⟩
  rw [ends_map] at carries
  show onReader Reading.form? src _ = EStateM.bind (build p) _ _
  unfold EStateM.bind onReader build
  dsimp only
  cases run : p.build ⟨⟨0, []⟩, h, symbols⟩ with
  | ok v r =>
    have same := (carries.of_eq_ok run).2
    dsimp only at same
    rw [same]
    rfl
  | error e r =>
    obtain ⟨stop, same⟩ := carries.of_eq_error run
    dsimp only at same
    rw [same]

theorem readNext_of_atEnd (done : src.atEnd = true) (s : Session) :
    readNext src s = .ok (none, src.skipBlanks) s := by
  obtain ⟨h, symbols, g, log⟩ := s
  have moves := Reading.moves_form? done h symbols
  unfold readNext onReader
  dsimp only
  rw [moves]

section Streams

variable {m : Type → Type} [Monad m]

/-- Evaluate phrases one by one. If one cannot be read, that is the end. -/
def evalPhrases (steps : Nat) (onCode : Session → Value → m Unit)
    (onResult : Session → Except Error Value → m Unit) : List Phrase → Session → m Session
  | [], s => return s
  | p :: ps, s =>
    match build p s with
    | .error e s => do
      onResult s (.error e)
      return s
    | .ok v s => do
      evalPhrases steps onCode onResult ps (← evalOne steps onCode onResult v s)

variable (steps : Nat) (onCode : Session → Value → m Unit)
  (onResult : Session → Except Error Value → m Unit)

theorem evalStreamFrom_eq (fit : ∀ p ∈ ps, Fits maxNesting 0 p)
    (reads : Reads src (tokensAll ps) src') (done : src'.atEnd = true) {bound : List Char}
    (enough : src.unread.length ≤ bound.length) (s : Session) :
    evalStreamFrom steps onCode onResult bound src s = evalPhrases steps onCode onResult ps s := by
  induction ps generalizing src bound s with
  | nil =>
    cases reads
    rw [evalStreamFrom.eq_def]
    dsimp only
    rw [readNext_of_atEnd done]
    rfl
  | cons p ps ih =>
    rw [List.forall_mem_cons] at fit
    rw [tokensAll] at reads
    obtain ⟨src₁, first, later⟩ := reads.split
    obtain ⟨t, ts, spelled, -, -⟩ := Reading.exists_tokens_eq_cons p
    have first' := first
    rw [spelled] at first'
    obtain ⟨c, bound, rfl, enough'⟩ := first'.exists_bound enough
    rw [evalStreamFrom.eq_def, evalPhrases]
    dsimp only
    rw [readNext_eq fit.1 first]
    cases run : build p s with
    | ok v s =>
      rw [bind_of_eq_ok run]
      refine congrArg (_ >>= ·) (funext fun s => ?_)
      exact ih fit.2 later enough' s
    | error e s => rw [bind_of_eq_error run]

/-- Evaluating a text is evaluating the phrases that it is written with. -/
theorem evalStream_eq {text : String} (grammatical : Grammatical text ps) (s : Session) :
    evalStream steps onCode onResult text s = evalPhrases steps onCode onResult ps s := by
  obtain ⟨⟨src', reads, done⟩, fit⟩ := grammatical
  rw [← Phrase.tokensAll_eq] at reads
  exact evalStreamFrom_eq steps onCode onResult fit reads done (Nat.le_refl _) s

end Streams

/-- The log makes no difference to the work, and the work none to the rest of the session by it. -/
def Relogs {α : Type} (x : SessionM α) (s : Session) (log : Log) : Prop :=
  Ends x s (fun a t => ∃ log', x { s with log } = .ok a { t with log := log' })
    fun e t => ∃ log', x { s with log } = .error e { t with log := log' }

theorem InRange.relog (inRange : s.InRange) (log : Log) : ({ s with log } : Session).InRange :=
  ⟨inRange.cells, inRange.env, inRange.functions, inRange.macros⟩

theorem relogs_build (p : Phrase) (s : Session) (log : Log) : Relogs (build p) s log := by
  obtain ⟨h, symbols, g, log₀⟩ := s
  unfold Relogs Ends build
  dsimp only
  cases p.build ⟨⟨0, []⟩, h, symbols⟩ with
  | ok v r => exact ⟨log, rfl⟩
  | error e r => exact ⟨log, rfl⟩

theorem relogs_run (steps : Nat) (code : Value) (s : Session) (log : Log) :
    Relogs (run steps code) s log := by
  obtain ⟨h, symbols, g, log₀⟩ := s
  unfold Relogs Ends run
  dsimp only
  cases Machine.run symbols steps g.env code h with
  | ok v h' => exact ⟨_, rfl⟩
  | error e h' => exact ⟨_, rfl⟩

theorem relogs_compile (inRange : s.InRange) (known : s.Knows v) (steps : Nat) (log : Log) :
    Relogs (compile steps v) s log := by
  have same : compiled steps v s = compiled steps v { s with log } :=
    (compiled_eq_outcome inRange known Compile.starts [] steps).trans
      (compiled_eq_outcome (inRange.relog log) known Compile.starts [] steps).symm
  obtain ⟨h, symbols, g, log₀⟩ := s
  unfold compiled compile at same
  unfold Relogs Ends compile
  dsimp only at same ⊢
  generalize Compile.toplevel Log.recorder symbols steps v ⟨h, g, log₀⟩ = first at same ⊢
  generalize Compile.toplevel Log.recorder symbols steps v ⟨h, g, log⟩ = second at same ⊢
  cases first with
  | ok code t =>
    cases second with
    | ok code' t' =>
      obtain ⟨h₁, g₁, log₁⟩ := t
      obtain ⟨h₂, g₂, log₂⟩ := t'
      cases same
      exact ⟨log₂, rfl⟩
    | error e t' => cases same
  | error e t =>
    cases second with
    | ok code t' => cases same
    | error e' t' =>
      obtain ⟨h₁, g₁, log₁⟩ := t
      obtain ⟨h₂, g₂, log₂⟩ := t'
      cases same
      exact ⟨log₂, rfl⟩

/-- The log asks for nothing, and there is nothing in it. -/
def Quiet (s : Session) : Prop := s.log = .empty .quiet

theorem tracks_quiet (names : Nat) :
    Compile.Tracks names Log.recorder fun _ log => log = .empty .quiet where
  changes _ _ quiet := quiet
  event e quiet := by
    subst quiet
    exact Log.add_quiet #[] e
  run _ _ _ _ _ quiet := by
    subst quiet
    rfl

theorem quiet_compile (inRange : s.InRange) (known : s.Knows v) (quiet : s.Quiet) (steps : Nat) :
    Ends (compile steps v) s (fun _ t => t.Quiet) fun _ t => t.Quiet := by
  obtain ⟨sound, tables⟩ := inRange_iff.mp inRange
  obtain ⟨h, symbols, g, log⟩ := s
  have expr : (⟨h, g, log⟩ : Compile.State Log).Knows symbols.count v := knows_iff.mp known
  have ends := Compile.keeps_toplevel (tracks_quiet symbols.count) steps expr
    (Reading.wellKnown_le_count symbols) _ ⟨rfl, sound, tables, quiet⟩
  unfold compile Ends at *
  dsimp only at ends ⊢
  generalize Compile.toplevel Log.recorder symbols steps v ⟨h, g, log⟩ = result at ends ⊢
  cases result with
  | ok code t =>
    obtain ⟨_, _, ⟨rfl, _, _, quiet⟩, _⟩ := ends
    exact quiet
  | error e t =>
    obtain ⟨_, _, ⟨rfl, _, _, quiet⟩, _⟩ := ends
    exact quiet

theorem quiet_run (quiet : s.Quiet) (steps : Nat) (code : Value) :
    Ends (run steps code) s (fun _ t => t.Quiet) fun _ t => t.Quiet := by
  obtain ⟨h, symbols, g, log⟩ := s
  obtain rfl : log = .empty .quiet := quiet
  unfold Ends run
  dsimp only
  cases Machine.run symbols steps g.env code h <;> exact rfl

/-- What is written when a form is evaluated, and what becomes of the session. -/
def written (manner : Manner) (v : Value) (s : Session) : Written × Session :=
  match compile manner.steps v s with
  | .error e t => (.ofResult t (.error e), t)
  | .ok code t =>
    match run manner.steps code t with
    | .error e u => (.ofCode manner t code ++ .ofResult u (.error e), u)
    | .ok r u => (.ofCode manner t code ++ .ofResult u (.ok r), u)

variable {manner : Manner} {x : Written} {u : Session}

theorem snd_written (manner : Manner) (v : Value) (s : Session) : (written manner v s).2 =
    left (do run manner.steps (← compile manner.steps v)) s := by
  unfold written
  rw [left_bind]
  cases compile manner.steps v s with
  | error e t => rfl
  | ok code t =>
    dsimp only [left]
    cases run manner.steps code t <;> rfl

theorem inRange_written (inRange : s.InRange) (known : s.Knows v) :
    (written manner v s).2.InRange := by
  rw [snd_written]
  refine (left_of_keeps (p := Knows) ?_ inRange).1
  exact (keeps_compile manner.steps known).bind fun t code _ known => keeps_run manner.steps known

theorem quiet_written (inRange : s.InRange) (known : s.Knows v) (quiet : s.Quiet) :
    (written manner v s).2.Quiet := by
  rw [snd_written]
  refine Ends.left ?_
  rw [ends_bind]
  exact (quiet_compile inRange known quiet manner.steps).mono
    (fun code t quiet => quiet_run quiet manner.steps code) fun _ _ => id

/-- The log makes no difference to what is written. -/
theorem written_relog (inRange : s.InRange) (known : s.Knows v) (log : Log) : ∃ log',
    written manner v { s with log } =
      ((written manner v s).1, { (written manner v s).2 with log := log' }) := by
  have first := relogs_compile inRange known manner.steps log
  unfold written
  cases compiled : compile manner.steps v s with
  | error e t =>
    obtain ⟨log', same⟩ := first.of_eq_error compiled
    rw [same]
    exact ⟨log', rfl⟩
  | ok code t =>
    obtain ⟨log', same⟩ := first.of_eq_ok compiled
    have second := relogs_run manner.steps code t log'
    rw [same]
    dsimp only
    cases ran : run manner.steps code t with
    | error e u =>
      obtain ⟨log', same⟩ := second.of_eq_error ran
      rw [same]
      exact ⟨log', rfl⟩
    | ok r u =>
      obtain ⟨log', same⟩ := second.of_eq_ok ran
      rw [same]
      exact ⟨log', rfl⟩

/-- There is room to read these phrases one by one. Evaluating them writes this and leaves that. -/
inductive Evaluates (manner : Manner) : Session → List Phrase → Written → Session → Prop where
  | nil (s : Session) : Evaluates manner s [] .nothing s
  | cons {s t u : Session} {p : Phrase} {ps : List Phrase} {v : Value} {x : Written}
    (built : build p s = .ok v t) (later : Evaluates manner (written manner v t).2 ps x u) :
    Evaluates manner s (p :: ps) ((written manner v t).1 ++ x) u

/-- The reader takes the phrase, and some text is written with it. -/
def Readable (p : Phrase) : Prop := Fits maxNesting 0 p ∧ ∃ src src', Reads src p.tokens src'

theorem readable_of_reads (fit : ∀ p ∈ ps, Fits maxNesting 0 p)
    (reads : Reads src (tokensAll ps) src') : ∀ p ∈ ps, Readable p := by
  induction ps generalizing src with
  | nil => simp
  | cons p ps ih =>
    rw [List.forall_mem_cons] at fit ⊢
    rw [tokensAll] at reads
    obtain ⟨src₁, first, later⟩ := reads.split
    exact ⟨⟨fit.1, src, src₁, first⟩, ih fit.2 later⟩

theorem keeps_build (readable : Readable p) : upkeep.Keeps s Knows (build p) := by
  obtain ⟨fits, src, src', reads⟩ := readable
  intro t holds
  have ends := keeps_readNext src t holds
  unfold Ends at ends
  rw [readNext_eq fits reads] at ends
  unfold Ends
  cases built : build p t with
  | ok v u =>
    rw [bind_of_eq_ok built] at ends
    obtain ⟨w, later, holds, known⟩ := ends
    exact ⟨w, later, holds, known v rfl⟩
  | error e u =>
    rw [bind_of_eq_error built] at ends
    exact ends

theorem inRange_of_build (readable : Readable p) (inRange : s.InRange) (built : build p s = .ok v t) :
    t.InRange ∧ t.Knows v := by
  obtain ⟨_, _, ⟨rfl, inRange⟩, known⟩ := (keeps_build readable s ⟨rfl, inRange⟩).of_eq_ok built
  exact ⟨inRange, known⟩

theorem build_eq_error (readable : Readable p) {e : Error} (refused : build p s = .error e t) :
    e = .heapFull := by
  obtain ⟨-, src, src', reads⟩ := readable
  have worded : p.Worded := reads.no_comma_name
  obtain ⟨h, symbols, g, log⟩ := s
  have costs := Phrase.costs_build worded ⟨⟨0, []⟩, h, symbols⟩
  unfold build at refused
  dsimp only at refused
  cases run : p.build ⟨⟨0, []⟩, h, symbols⟩ with
  | ok v r =>
    rw [run] at refused
    cases refused
  | error e' r =>
    rw [run] at refused
    cases refused
    exact (costs.of_eq_error run).1

theorem log_of_build (built : build p s = .ok v t) : t.log = s.log := by
  obtain ⟨h, symbols, g, log⟩ := s
  unfold build at built
  dsimp only at built
  cases run : p.build ⟨⟨0, []⟩, h, symbols⟩ with
  | ok v r =>
    rw [run] at built
    cases built
    rfl
  | error e r =>
    rw [run] at built
    cases built

namespace Evaluates

theorem split (evaluates : Evaluates manner s (ps ++ qs) x u) : ∃ y z t, x = y ++ z ∧
    Evaluates manner s ps y t ∧ Evaluates manner t qs z u := by
  induction ps generalizing s x with
  | nil => exact ⟨.nothing, x, s, (Written.nothing_append x).symm, .nil s, evaluates⟩
  | cons p ps ih =>
    cases evaluates with
    | cons built later =>
      obtain ⟨y, z, t, rfl, first, last⟩ := ih later
      exact ⟨_, z, t, (Written.append_assoc ..).symm, .cons built first, last⟩

theorem inRange (evaluates : Evaluates manner s ps x u) (readable : ∀ p ∈ ps, Readable p)
    (inRange : s.InRange) : u.InRange := by
  induction evaluates with
  | nil => exact inRange
  | cons built _ ih =>
    rw [List.forall_mem_cons] at readable
    obtain ⟨inRange, known⟩ := inRange_of_build readable.1 inRange built
    exact ih readable.2 (inRange_written inRange known)

theorem quiet (evaluates : Evaluates manner s ps x u) (readable : ∀ p ∈ ps, Readable p)
    (inRange : s.InRange) (quiet : s.Quiet) : u.Quiet := by
  induction evaluates with
  | nil => exact quiet
  | cons built _ ih =>
    rw [List.forall_mem_cons] at readable
    have quiet := (log_of_build built).trans quiet
    obtain ⟨inRange, known⟩ := inRange_of_build readable.1 inRange built
    exact ih readable.2 (inRange_written inRange known) (quiet_written inRange known quiet)

theorem relog (evaluates : Evaluates manner s ps x u) (readable : ∀ p ∈ ps, Readable p)
    (inRange : s.InRange) (log : Log) :
    ∃ log', Evaluates manner { s with log } ps x { u with log := log' } := by
  induction evaluates generalizing log with
  | nil s => exact ⟨log, .nil _⟩
  | @cons s t u p ps v x built _ ih =>
    rw [List.forall_mem_cons] at readable
    obtain ⟨log₁, built'⟩ := (relogs_build p s log).of_eq_ok built
    obtain ⟨inRange, known⟩ := inRange_of_build readable.1 inRange built
    obtain ⟨log₂, same⟩ := written_relog inRange known log₁
    obtain ⟨log₃, later⟩ := ih readable.2 (inRange_written inRange known) log₂
    have after : (written manner v { t with log := log₁ }).2 =
        { (written manner v t).2 with log := log₂ } := by rw [same]
    rw [← after] at later
    have evaluates := Evaluates.cons built' later
    rw [same] at evaluates
    exact ⟨log₃, evaluates⟩

end Evaluates

/-- Whether there is room for every form of a text when it is read, the ones before it evaluated. -/
def hasRoomToRead (steps : Nat) : (bound : List Char) → Source → Session → Bool
  | bound, source, s =>
    match readNext source s with
    | .error .heapFull _ => false
    | .error _ _ => true
    | .ok (none, _) _ => true
    | .ok (some v, source) s =>
      match bound with
      | [] => true
      | _ :: bound => hasRoomToRead steps bound source (left (do run steps (← compile steps v)) s)

theorem exists_evaluates (fit : ∀ p ∈ ps, Fits maxNesting 0 p)
    (reads : Reads src (tokensAll ps) src') {bound : List Char}
    (enough : src.unread.length ≤ bound.length)
    (room : hasRoomToRead manner.steps bound src s = true) :
    ∃ x u, Evaluates manner s ps x u := by
  induction ps generalizing src bound s with
  | nil => exact ⟨.nothing, s, .nil s⟩
  | cons p ps ih =>
    have readable := readable_of_reads fit reads p List.mem_cons_self
    rw [List.forall_mem_cons] at fit
    rw [tokensAll] at reads
    obtain ⟨src₁, first, later⟩ := reads.split
    obtain ⟨t, ts, spelled, -, -⟩ := Reading.exists_tokens_eq_cons p
    have first' := first
    rw [spelled] at first'
    obtain ⟨c, bound, rfl, enough'⟩ := first'.exists_bound enough
    rw [hasRoomToRead.eq_def] at room
    dsimp only at room
    rw [readNext_eq fit.1 first] at room
    cases built : build p s with
    | ok v t =>
      rw [bind_of_eq_ok built] at room
      dsimp only [pure, EStateM.pure] at room
      rw [← snd_written] at room
      obtain ⟨x, u, evaluates⟩ := ih fit.2 later enough' room
      exact ⟨_, u, .cons built evaluates⟩
    | error e t =>
      obtain rfl := build_eq_error readable built
      rw [bind_of_eq_error built] at room
      cases room

end Session

end SecdLisp
