import SecdLisp.Proofs.Capacity.Sessions
import SecdLisp.Proofs.Text.Grammar
import SecdLisp.Shell.Desk
import SecdLisp.Shell.Evaluate

/-!
# Turns

There are several loops that evaluate the forms of a text, and they differ in what an error means
for the later forms and in what they tell about it. All of them are described by one course of
events, in which each form has its turn.
-/

namespace SecdLisp

open Bench

/-- What comes of one form of a text, with the session after it. -/
inductive Turn where
  /-- The reader refuses the text from this offset on. -/
  | unread (offset : Nat) (e : Error) (after : Session)
  | uncompiled (e : Error) (after : Session)
  /-- The code runs in the session that the compiler leaves. -/
  | ran (code : Value) (compiled : Session) (r : Except Error Value) (after : Session)

namespace Turn

def after : Turn → Session
  | unread _ _ s | uncompiled _ s | ran _ _ _ s => s

def result : Turn → Except Error Value
  | unread _ e _ | uncompiled e _ => .error e
  | ran _ _ r _ => r

/-- Tell of the code, if there is any, and then of the result. -/
def tell {m : Type → Type} [Monad m] (onCode : Session → Value → m Unit)
    (onResult : Session → Except Error Value → m Unit) : Turn → m Unit
  | unread _ e s | uncompiled e s => onResult s (.error e)
  | ran code compiled r s => do
    onCode compiled code
    onResult s r

theorem first_failed {before before' rest rest' : List Turn} {failed failed' : Turn}
    (all : ∀ turn ∈ before, ∃ v, turn.result = .ok v)
    (all' : ∀ turn ∈ before', ∃ v, turn.result = .ok v)
    (error : ∀ v, failed.result ≠ .ok v) (error' : ∀ v, failed'.result ≠ .ok v)
    (same : before ++ failed :: rest = before' ++ failed' :: rest') : failed = failed' := by
  induction before generalizing before' with
  | nil =>
    cases before' with
    | nil => exact (List.cons.inj same).1
    | cons first before' =>
      obtain ⟨v, succeeded⟩ := all' first List.mem_cons_self
      rw [← (List.cons.inj same).1] at succeeded
      exact (error v succeeded).elim
  | cons first before ih =>
    rw [List.forall_mem_cons] at all
    cases before' with
    | nil =>
      obtain ⟨v, succeeded⟩ := all.1
      rw [(List.cons.inj same).1] at succeeded
      exact (error' v succeeded).elim
    | cons first' before' =>
      rw [List.forall_mem_cons] at all'
      exact ih all.2 all'.2 (List.cons.inj same).2

section Host

variable {m : Type → Type} [Monad m] [Host m]

open Host

/-- Write the code, if there is any and it is asked for. -/
def list (manner : Manner) : Turn → m Unit
  | ran code compiled _ _ => if manner.showCode then putLine (compiled.print code) else pure ()
  | _ => pure ()

/-- Write the error of the form with this number in a file, if there is one. -/
def complain (path : String) (count : Nat) : Turn → m Unit
  | unread offset e _ => warnLine s!"Error in {path} at byte {offset}: {e.message}"
  | uncompiled e s | ran _ _ (.error e) s =>
    warnLine s!"Error in {path} at expression {count}: {s.describe e}"
  | ran _ _ (.ok _) _ => pure ()

end Host

end Turn

namespace Session

variable {source rest : Source} {s s' t u : Session} {turns : List Turn} {steps : Nat} {expr v : Value}
  {e : Error} {bound : List Char} {α : Type}

/-- What comes of a form that was read. -/
def turn (steps : Nat) (expr : Value) (s : Session) : Turn :=
  match compile steps expr s with
  | .error e s => .uncompiled e s
  | .ok code s =>
    match run steps code s with
    | .error e t => .ran code s (.error e) t
    | .ok v t => .ran code s (.ok v) t

/-- The turns of all forms that are left of a text. An error of the reader ends them. -/
inductive Turns (steps : Nat) : Source → Session → List Turn → Session → Prop where
  | done {source rest : Source} {s t : Session} (found : readNext source s = .ok (none, rest) t) :
    Turns steps source s [] t
  | unread {source : Source} {s t : Session} {e : Error} (refused : readNext source s = .error e t) :
    Turns steps source s [.unread source.offset e t] t
  | read {source rest : Source} {s t u : Session} {expr : Value} {turns : List Turn}
    (found : readNext source s = .ok (some expr, rest) t)
    (later : Turns steps rest (turn steps expr t).after turns u) :
    Turns steps source s (turn steps expr t :: turns) u

/-- A form takes at least one character. -/
theorem exists_bound_of_readNext (found : readNext source s = .ok (some expr, rest) t)
    (enough : source.unread.length ≤ bound.length) :
    ∃ c left, bound = c :: left ∧ rest.unread.length ≤ left.length := by
  obtain ⟨h, symbols, g, log⟩ := s
  have ends := Reading.form?_ends ⟨source, h, symbols⟩
  unfold readNext onReader at found
  dsimp only at found
  cases run : Reading.form? ⟨source, h, symbols⟩ with
  | error e r =>
    rw [run] at found
    cases found
  | ok a r =>
    rw [run] at found
    cases found
    obtain ⟨p, reads⟩ := ends.of_eq_ok run
    obtain ⟨first, tokens, spelled, -, -⟩ := Reading.exists_tokens_eq_cons p
    rw [spelled] at reads
    exact reads.exists_bound enough

theorem exists_turns (steps : Nat) (enough : source.unread.length ≤ bound.length) (s : Session) :
    ∃ turns t, Turns steps source s turns t := by
  induction bound generalizing source s with
  | nil =>
    cases found : readNext source s with
    | error e t => exact ⟨_, t, .unread found⟩
    | ok found' t =>
      obtain ⟨_ | expr, rest⟩ := found'
      · exact ⟨[], t, .done found⟩
      · obtain ⟨_, _, none, _⟩ := exists_bound_of_readNext found enough
        cases none
  | cons c bound ih =>
    cases found : readNext source s with
    | error e t => exact ⟨_, t, .unread found⟩
    | ok found' t =>
      obtain ⟨_ | expr, rest⟩ := found'
      · exact ⟨[], t, .done found⟩
      · obtain ⟨_, _, same, enough⟩ := exists_bound_of_readNext found enough
        cases same
        obtain ⟨turns, u, later⟩ := ih enough (turn steps expr t).after
        exact ⟨_, u, .read found later⟩

theorem exists_turns_of_text (steps : Nat) (text : String) (s : Session) :
    ∃ turns t, Turns steps (.ofString text) s turns t :=
  have enough : (Source.ofString text).unread.length ≤ text.toList.length := Nat.le_refl _
  exists_turns steps enough s

section Streams

variable {m : Type → Type} [Monad m] [LawfulMonad m] {onCode : Session → Value → m Unit}
  {onResult : Session → Except Error Value → m Unit}

theorem evalOne_eq (steps : Nat) (expr : Value) (s : Session) :
    evalOne steps onCode onResult expr s = (do
      (turn steps expr s).tell onCode onResult
      return (turn steps expr s).after) := by
  unfold evalOne turn
  cases compile steps expr s with
  | error e s => rfl
  | ok code s =>
    dsimp only
    cases run steps code s <;> simp only [Turn.tell, Turn.after, bind_assoc]

theorem evalStreamFrom_eq_turns (course : Turns steps source s turns t)
    (enough : source.unread.length ≤ bound.length) :
    evalStreamFrom steps onCode onResult bound source s = (do
      turns.forM (Turn.tell onCode onResult)
      return t) := by
  induction course generalizing bound with
  | done found =>
    rw [evalStreamFrom.eq_def]
    dsimp only
    rw [found]
    simp
  | unread refused =>
    rw [evalStreamFrom.eq_def]
    dsimp only
    rw [refused]
    simp [Turn.tell]
  | read found later ih =>
    obtain ⟨c, left, rfl, enough'⟩ := exists_bound_of_readNext found enough
    rw [evalStreamFrom.eq_def]
    dsimp only
    rw [found]
    simp only [evalOne_eq, ih enough', bind_assoc, pure_bind, List.forM_eq_forM, List.forM_cons]

end Streams

theorem evalEach_eq_turns {text : String} (course : Turns steps (.ofString text) s turns t) :
    evalEach steps text s = ((turns.map Turn.result).toArray, t) := by
  let record (_ : Session) (r : Except Error Value) :
      StateM (Array (Except Error Value)) Unit := modify (·.push r)
  have one (turn : Turn) (before : Array (Except Error Value)) :
      (turn.tell (fun _ _ => pure ()) record).run before = ((), before.push turn.result) := by
    cases turn <;> rfl
  have all (turns : List Turn) (before : Array (Except Error Value)) :
      (turns.forM (Turn.tell (fun _ _ => pure ()) record)).run before =
        ((), before ++ (turns.map Turn.result).toArray) := by
    induction turns generalizing before with
    | nil =>
      rw [List.map_nil, Array.append_empty]
      rfl
    | cons turn turns ih =>
      show ((turns.forM (Turn.tell (fun _ _ => pure ()) record)).run
        ((turn.tell (fun _ _ => pure ()) record).run before).2) = _
      rw [one, ih]
      simp
  have enough : (Source.ofString text).unread.length ≤ text.toList.length := Nat.le_refl _
  unfold evalEach evalStream
  dsimp only
  rw [evalStreamFrom_eq_turns course enough]
  show (((turns.forM (Turn.tell (fun _ _ => pure ()) record)).run #[]).2, t) = _
  rw [all, Array.empty_append]

/-- The same session, whatever is in its log. -/
structure Same (s t : Session) : Prop where
  heap : s.heap = t.heap
  symbols : s.symbols = t.symbols
  globals : s.globals = t.globals

theorem Same.refl (s : Session) : s.Same s := ⟨rfl, rfl, rfl⟩

theorem same_iff : s.Same t ↔ bench.Alike True s t := by
  constructor
  · rintro ⟨heap, symbols, globals⟩
    refine ⟨?_, symbols, globals⟩
    show s.heap.Alike True t.heap
    rw [heap]
    exact .refl True _
  · rintro ⟨heap, symbols, globals⟩
    exact ⟨heap.eq trivial, symbols, globals⟩

theorem Same.matches {x : SessionM α} (work : bench.Heedless True x) (same : s.Same t) :
    Ends x s (fun a s' => ∃ t', x t = .ok a t' ∧ s'.Same t')
      fun e s' => ∃ t', x t = .error e t' ∧ s'.Same t' := by
  have matched := work s t (same_iff.mp same)
  unfold Ends
  generalize x s = r at matched ⊢
  generalize x t = r' at matched ⊢
  cases matched with
  | ok alike lasts => exact ⟨_, rfl, same_iff.mpr alike⟩
  | error alike lasts full => exact ⟨_, rfl, same_iff.mpr alike⟩
  | full uneven lasts full => exact (uneven trivial).elim

/-- A form is evaluated to what its turn comes to. -/
theorem eval_matches_turn (steps : Nat) (expr : Value) (same : s.Same s') :
    Ends (eval steps expr) s'
      (fun v t => (turn steps expr s).result = .ok v ∧ (turn steps expr s).after.Same t)
      fun e t => (turn steps expr s).result = .error e ∧ (turn steps expr s).after.Same t := by
  have compiles := same.matches (heedless_compile steps expr)
  unfold eval turn
  cases compiled : compile steps expr s with
  | error e t =>
    obtain ⟨t', compiled', same⟩ := compiles.of_eq_error compiled
    rw [Ends, bind_of_eq_error compiled']
    exact ⟨rfl, same⟩
  | ok code t =>
    obtain ⟨t', compiled', same⟩ := compiles.of_eq_ok compiled
    have runs := same.matches (heedless_run steps code)
    rw [Ends, bind_of_eq_ok compiled']
    dsimp only
    cases ran : run steps code t with
    | error e u =>
      obtain ⟨u', ran', same⟩ := runs.of_eq_error ran
      rw [bind_of_eq_error ran']
      exact ⟨rfl, same⟩
    | ok v u =>
      obtain ⟨u', ran', same⟩ := runs.of_eq_ok ran
      rw [bind_of_eq_ok ran']
      exact ⟨rfl, same.heap, same.symbols, same.globals⟩

theorem evalFrom_matches_turns (course : Turns steps source s turns t)
    (enough : source.unread.length ≤ bound.length) (same : s.Same s') (last : Value) :
    Ends (evalFrom steps bound source last) s'
      (fun v u => (∀ turn ∈ turns, ∃ w, turn.result = .ok w) ∧
        (turns.map Turn.result).getLastD (.ok last) = .ok v ∧ t.Same u)
      fun e u => ∃ before turn rest, turns = before ++ turn :: rest ∧
        (∀ turn ∈ before, ∃ w, turn.result = .ok w) ∧ turn.result = .error e ∧
        turn.after.Same u := by
  induction course generalizing bound s' last with
  | done found =>
    obtain ⟨u, found', same⟩ := (same.matches (heedless_readNext _)).of_eq_ok found
    rw [evalFrom.eq_def, ends_bind, Ends, found']
    exact ⟨by simp, rfl, same⟩
  | @unread source s₀ t₀ e refused =>
    obtain ⟨u, refused', same⟩ := (same.matches (heedless_readNext _)).of_eq_error refused
    rw [evalFrom.eq_def, ends_bind, Ends, refused']
    exact ⟨[], .unread source.offset e t₀, [], rfl, by simp, rfl, same⟩
  | @read source rest s₀ t₀ u₀ expr turns found later ih =>
    obtain ⟨c, left, rfl, enough'⟩ := exists_bound_of_readNext found enough
    obtain ⟨u, found', same⟩ := (same.matches (heedless_readNext _)).of_eq_ok found
    have first := eval_matches_turn steps expr same
    rw [evalFrom.eq_def, ends_bind, Ends, found']
    dsimp only
    rw [ends_bind]
    refine first.mono ?_ ?_
    · rintro v u ⟨succeeded, same⟩
      refine (ih enough' same v).mono ?_ ?_
      · rintro w u' ⟨all, last, same⟩
        refine ⟨List.forall_mem_cons.mpr ⟨⟨v, succeeded⟩, all⟩, ?_, same⟩
        rw [List.map_cons, succeeded, List.getLastD_cons]
        exact last
      · rintro e u' ⟨before, failed, rest, rfl, all, error, same⟩
        refine ⟨_ :: before, failed, rest, rfl, ?_, error, same⟩
        exact List.forall_mem_cons.mpr ⟨⟨v, succeeded⟩, all⟩
    · rintro e u ⟨failed, same⟩
      exact ⟨[], _, turns, rfl, by simp, failed, same⟩

section Files

open Shell Host

variable {m : Type → Type} [Monad m] [LawfulMonad m] [Host m] {manner : Manner} {path : String}
  {count : Nat}

theorem loadFrom_eq_turn {c : Char} {left : List Char}
    (found : readNext source s = .ok (some expr, rest) t) :
    loadFrom (m := m) manner path (c :: left) count source s = (do
      (turn manner.steps expr t).list manner
      match (turn manner.steps expr t).result with
      | .ok _ => loadFrom manner path left (count + 1) rest (turn manner.steps expr t).after
      | .error _ =>
        (turn manner.steps expr t).complain path count
        return none) := by
  obtain ⟨steps, showCode⟩ := manner
  rw [loadFrom.eq_def]
  dsimp only
  rw [found]
  unfold turn
  dsimp only
  cases compile steps expr t with
  | error e u => simp [Turn.list, Turn.result, Turn.complain, loadFrom.reportAt]
  | ok code u =>
    dsimp only
    cases run steps code u <;> cases showCode <;>
      simp [Turn.list, Turn.result, Turn.complain, Turn.after, loadFrom.reportAt]

theorem loadFrom_eq_some (course : Turns manner.steps source s turns t)
    (enough : source.unread.length ≤ bound.length)
    (all : ∀ turn ∈ turns, ∃ v, turn.result = .ok v) :
    loadFrom (m := m) manner path bound count source s = (do
      turns.forM (Turn.list manner)
      return some t) := by
  induction course generalizing bound count with
  | done found =>
    rw [loadFrom.eq_def]
    dsimp only
    rw [found]
    simp
  | unread refused =>
    obtain ⟨v, succeeded⟩ := List.forall_mem_singleton.mp all
    cases succeeded
  | read found later ih =>
    rw [List.forall_mem_cons] at all
    obtain ⟨c, left, rfl, enough'⟩ := exists_bound_of_readNext found enough
    obtain ⟨v, succeeded⟩ := all.1
    rw [loadFrom_eq_turn found, succeeded]
    simp only [ih enough' all.2, List.forM_eq_forM, List.forM_cons, bind_assoc]

/-- The first form that fails is the last one to be evaluated. -/
theorem loadFrom_eq_none (course : Turns manner.steps source s turns t)
    (enough : source.unread.length ≤ bound.length) {before after : List Turn} {failed : Turn}
    (split : turns = before ++ failed :: after) (all : ∀ turn ∈ before, ∃ v, turn.result = .ok v)
    (error : failed.result = .error e) :
    loadFrom (m := m) manner path bound count source s = (do
      (before ++ [failed]).forM (Turn.list manner)
      failed.complain path (count + before.length)
      return none) := by
  induction course generalizing bound count before with
  | done => simp at split
  | @unread source s t e refused =>
    obtain ⟨rfl, same⟩ : before = [] ∧ failed = .unread source.offset e t := by
      cases before with
      | nil => exact ⟨rfl, (List.cons.inj split).1.symm⟩
      | cons => simp at split
    rw [loadFrom.eq_def]
    dsimp only
    rw [refused, same]
    simp [Turn.list, Turn.complain]
  | read found later ih =>
    obtain ⟨c, left, rfl, enough'⟩ := exists_bound_of_readNext found enough
    rw [loadFrom_eq_turn found]
    cases before with
    | nil =>
      obtain ⟨rfl, rfl⟩ := List.cons.inj split
      rw [error]
      simp
    | cons first before =>
      obtain ⟨rfl, split'⟩ := List.cons.inj split
      rw [List.forall_mem_cons] at all
      obtain ⟨v, succeeded⟩ := all.1
      have number : count + 1 + before.length = count + (before.length + 1) := by omega
      rw [succeeded]
      simp only [ih enough' split' all.2, List.forM_eq_forM, List.cons_append, List.forM_cons,
        List.length_cons, bind_assoc, number]

theorem loadFile_of_text {manner : Manner} {s : Session} {path : String} {desk : Desk}
    (found : (Host.readText path : StateM Desk _).run desk = (.ok text, desk)) :
    (Shell.loadFile manner s path : StateM Desk _).run desk = (do
      match ← Shell.loadFrom manner path text.toList 1 (.ofString text) s with
      | some s => return some (← Shell.showLog s)
      | none => return none : StateM Desk (Option Session)).run desk := by
  unfold Shell.loadFile
  rw [StateT.run_bind, found]
  rfl

end Files

/-- All loops over the forms of a text take the same turns. The one that goes on answers with all
results; what a caller hands to it learns of each code before that runs, and of each result. If
every form succeeds, the loop that stops answers with the last value, or with nil if there is none,
and leaves the same session. If not, it answers with the first error and leaves the session as it
is when the other loop reports that error. The loop over a file goes through the same sessions,
and stops at the same place. -/
theorem loops_agree (steps : Nat) (text : String) (s : Session) : ∃ turns t,
    Turns steps (.ofString text) s turns t ∧
    evalEach steps text s = ((turns.map Turn.result).toArray, t) ∧
    (∀ (m : Type → Type) [Monad m] [LawfulMonad m] (onCode : Session → Value → m Unit)
      (onResult : Session → Except Error Value → m Unit),
      evalStream steps onCode onResult text s = do
        turns.forM (Turn.tell onCode onResult)
        return t) ∧
    ((∀ turn ∈ turns, ∃ v, turn.result = .ok v) →
      (∃ v u, (turns.map Turn.result).getLastD (.ok .nil) = .ok v ∧
        evalText steps text s = .ok v u ∧ t.Same u) ∧
      ∀ (showCode : Bool) (path : String) (desk : Desk),
        (Host.readText path : StateM Desk _).run desk = (.ok text, desk) →
        (Shell.loadFile ⟨steps, showCode⟩ s path : StateM Desk _).run desk = (do
          turns.forM (Turn.list ⟨steps, showCode⟩)
          return some (← Shell.showLog t) : StateM Desk (Option Session)).run desk) ∧
    ∀ before failed after e, turns = before ++ failed :: after →
      (∀ turn ∈ before, ∃ v, turn.result = .ok v) → failed.result = .error e →
      (∃ u, evalText steps text s = .error e u ∧ failed.after.Same u) ∧
      ∀ (showCode : Bool) (path : String) (desk : Desk),
        (Host.readText path : StateM Desk _).run desk = (.ok text, desk) →
        (Shell.loadFile ⟨steps, showCode⟩ s path : StateM Desk _).run desk = (do
          (before ++ [failed]).forM (Turn.list ⟨steps, showCode⟩)
          failed.complain path (before.length + 1)
          return none : StateM Desk (Option Session)).run desk := by
  have enough : (Source.ofString text).unread.length ≤ text.toList.length := Nat.le_refl _
  obtain ⟨turns, t, course⟩ := exists_turns_of_text steps text s
  have stops := evalFrom_matches_turns course enough (.refl s) .nil
  refine ⟨turns, t, course, evalEach_eq_turns course, ?_, ?_, ?_⟩
  · intro m _ _ onCode onResult
    exact evalStreamFrom_eq_turns course enough
  · intro all
    refine ⟨?_, fun showCode path desk found => ?_⟩
    · cases evaluated : evalText steps text s with
      | ok v u =>
        obtain ⟨-, last, same⟩ := stops.of_eq_ok evaluated
        exact ⟨v, u, last, rfl, same⟩
      | error e u =>
        obtain ⟨before, failed, rest, rfl, -, error, -⟩ := stops.of_eq_error evaluated
        obtain ⟨v, succeeded⟩ := all failed (by simp)
        rw [error] at succeeded
        cases succeeded
    · rw [loadFile_of_text found, loadFrom_eq_some course enough all]
      simp
  · intro before failed after e split all error
    refine ⟨?_, fun showCode path desk found => ?_⟩
    · cases evaluated : evalText steps text s with
      | ok v u =>
        obtain ⟨none, -, -⟩ := stops.of_eq_ok evaluated
        obtain ⟨v, succeeded⟩ := none failed (by simp [split])
        rw [error] at succeeded
        cases succeeded
      | error e' u =>
        obtain ⟨before', failed', rest, split', all', error', same⟩ := stops.of_eq_error evaluated
        have fails {turn : Turn} {e : Error} (error : turn.result = .error e) (v : Value) :
            turn.result ≠ .ok v := fun ok => by cases error.symm.trans ok
        obtain rfl := Turn.first_failed all all' (fails error) (fails error') (split ▸ split')
        rw [error] at error'
        cases error'
        exact ⟨u, rfl, same⟩
    · rw [loadFile_of_text found, loadFrom_eq_none course enough split all error]
      simp [Nat.add_comm]

end Session

end SecdLisp
