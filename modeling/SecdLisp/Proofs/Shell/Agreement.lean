import SecdLisp.Proofs.Shell.Conversation

/-!
# Typed lines and piped text agree

Regular lines that make up a text of whole forms are evaluated turn by turn, and each turn has its
own part of the forms. What all turns write is what the text writes at once, prompts and logs apart,
and the session that they leave is the same.
-/

namespace SecdLisp

namespace Repl

open Host Desk Session Shell
open Reading (Fits Grammatical maxNesting)
open Token (Lexes)
open Phrase (tokensAll)

variable {manner : Manner} {s t u : Session} {lines ls : List String} {ps : List Phrase}
  {x : Written}

/-- What comes of lines that are submitted together. -/
structure Turn where
  lines : List String
  forms : List Phrase
  written : Written
  log : Written

/-- What a user sees of a turn. -/
def Turn.shown (turn : Turn) : Written :=
  ⟨String.join (prompts turn.lines), ""⟩ ++ turn.written ++ turn.log

/-- Turns of the shell. Where nothing is on the lines, nothing is evaluated; else they are a text,
and the shell evaluates its forms and writes out the log. -/
inductive Takes (manner : Manner) : Session → List Turn → Session → Prop where
  | nil (s : Session) : Takes manner s [] s
  | blank {s u : Session} {ls : List String} {turns : List Turn}
    (none : (submitted ls).isEmpty = true) (later : Takes manner s turns u) :
    Takes manner s (⟨ls, [], .nothing, .nothing⟩ :: turns) u
  | cons {s t u : Session} {ls : List String} {ps : List Phrase} {x : Written} {turns : List Turn}
    (some : (submitted ls).isEmpty = false) (grammatical : Grammatical (submitted ls) ps)
    (evaluates : Evaluates manner s ps x t)
    (later : Takes manner { t with log := cleared t.log } turns u) :
    Takes manner s (⟨ls, ps, x, logLines t.log⟩ :: turns) u

theorem writes_prompts (texts : List String) :
    Writes (forM texts put) () ⟨String.join texts, ""⟩ := by
  induction texts with
  | nil => exact writes_pure ()
  | cons text texts ih =>
    have parts : (⟨String.join (text :: texts), ""⟩ : Written) =
        ⟨text, ""⟩ ++ ⟨String.join texts, ""⟩ := by
      ext1 <;> simp
    rw [List.forM_cons, parts]
    exact (writes_put text).bind ih

theorem writes_submit_blank (none : (submitted ls).isEmpty = true) (s : Session) :
    Writes (submit manner ls s) s .nothing := by
  rw [submit, if_pos none]
  exact writes_pure s

theorem writes_submit (some : (submitted ls).isEmpty = false)
    (grammatical : Grammatical (submitted ls) ps) (evaluates : Evaluates manner s ps x t) :
    Writes (submit manner ls s) { t with log := cleared t.log } (x ++ logLines t.log) := by
  obtain ⟨ok, shown⟩ := writes_evalAndPrint grammatical evaluates
  have told := shown.bind (f := fun r => pure r.2) (writes_pure _)
  rw [Written.append_nothing] at told
  rwa [submit, some, if_neg Bool.false_ne_true]

theorem writes_talk {turns : List Turn} (takes : Takes manner s turns u) :
    Writes (talk manner (turns.map Turn.lines) s) u
      (.join (turns.map Turn.shown) ++ ⟨"> ", ""⟩) := by
  induction takes with
  | nil s =>
    have told := (writes_put "> ").bind (f := fun _ => pure s) (writes_pure s)
    rwa [Written.append_nothing, ← Written.nothing_append ⟨"> ", ""⟩] at told
  | @blank s u ls turns none _ ih =>
    have parts : (Turn.mk ls [] .nothing .nothing).shown ++ .join (turns.map Turn.shown) ++
        ⟨"> ", ""⟩ = ⟨String.join (prompts ls), ""⟩ ++
          (.nothing ++ (.join (turns.map Turn.shown) ++ ⟨"> ", ""⟩)) := by
      simp only [Turn.shown, Written.append_nothing, Written.append_assoc, Written.nothing_append]
    rw [List.map_cons, List.map_cons, talk, Written.join, parts]
    exact (writes_prompts _).bind ((writes_submit_blank none s).bind ih)
  | @cons s t u ls ps x turns some grammatical evaluates _ ih =>
    have parts : (Turn.mk ls ps x (logLines t.log)).shown ++ .join (turns.map Turn.shown) ++
        ⟨"> ", ""⟩ = ⟨String.join (prompts ls), ""⟩ ++
          (x ++ logLines t.log ++ (.join (turns.map Turn.shown) ++ ⟨"> ", ""⟩)) := by
      simp only [Turn.shown, Written.append_assoc]
    rw [List.map_cons, List.map_cons, talk, Written.join, parts]
    exact (writes_prompts _).bind ((writes_submit some grammatical evaluates).bind ih)

theorem writes_piped {text : String} (grammatical : Grammatical text ps)
    (evaluates : Evaluates manner s ps x t) :
    Writes (CommandLine.piped manner (pure (Utf8.encode text)) s)
      (some { t with log := cleared t.log }) (x ++ logLines t.log) := by
  obtain ⟨ok, shown⟩ := writes_evalAndPrint grammatical evaluates
  have told := shown.bind (f := fun r => pure (some r.2)) (writes_pure _)
  rw [Written.append_nothing] at told
  rw [CommandLine.piped, pure_bind, Utf8.decode_encode]
  exact told

theorem grammatical_submitted (regular : Regular lines) (among : ∀ l ∈ ls, l ∈ lines)
    (lexes : Lexes (joinLines ls).toList (tokensAll ps)) (fit : ∀ p ∈ ps, Fits maxNesting 0 p) :
    Grammatical (submitted ls) ps := by
  refine ⟨?_, fit⟩
  rw [← Phrase.tokensAll_eq, submitted, String.toList_ofList]
  refine Token.lexes_trim lexes fun c mem white => ?_
  obtain rfl | ⟨l, here, inside⟩ := mem_joinLines mem
  · rfl
  · obtain ⟨ascii, ordinary⟩ := regular.ascii c (mem_joinLines_of_mem (among l here) inside)
    exact isBlank_of_isWhitespace ascii ordinary white

theorem eq_nil_of_submitted (none : (submitted ls).isEmpty = true)
    (grammatical : Grammatical (submitted ls) ps) : ps = [] := by
  obtain ⟨lexes, -⟩ := grammatical
  rw [← Phrase.tokensAll_eq, String.isEmpty_iff.mp none] at lexes
  exact Phrase.eq_nil_of_lexes_nil lexes

theorem exists_takes {chunks : List (List String × List Phrase)}
    (grammatical : ∀ c ∈ chunks, Grammatical (submitted c.1) c.2)
    (readable : ∀ p ∈ (chunks.map Prod.snd).flatten, Readable p) (inRange : s.InRange)
    (evaluates : Evaluates manner s (chunks.map Prod.snd).flatten x t) (log : Log) :
    ∃ turns log', turns.map Turn.lines = chunks.map Prod.fst ∧
      turns.map Turn.forms = chunks.map Prod.snd ∧ .join (turns.map Turn.written) = x ∧
      Takes manner { s with log } turns { t with log := log' } := by
  induction chunks generalizing s x log with
  | nil =>
    cases evaluates
    exact ⟨[], log, rfl, rfl, rfl, .nil _⟩
  | cons c cs ih =>
    obtain ⟨ls, ps⟩ := c
    rw [List.forall_mem_cons] at grammatical
    rw [List.map_cons, List.flatten_cons] at readable evaluates
    rw [List.forall_mem_append] at readable
    obtain ⟨y, z, r, rfl, first, last⟩ := evaluates.split
    have later := ih grammatical.2 readable.2 (first.inRange readable.1 inRange) last
    cases blank : (submitted ls).isEmpty with
    -- The log waits for a turn that is evaluated.
    | true =>
      obtain rfl := eq_nil_of_submitted blank grammatical.1
      cases first
      obtain ⟨turns, log', lines, forms, rfl, takes⟩ := later log
      refine ⟨⟨ls, [], .nothing, .nothing⟩ :: turns, log', ?_, ?_, rfl, .blank blank takes⟩
      · rw [List.map_cons, List.map_cons, lines]
      · rw [List.map_cons, List.map_cons, forms]
    | false =>
      obtain ⟨log₁, first⟩ := first.relog readable.1 inRange log
      obtain ⟨turns, log', lines, forms, rfl, takes⟩ := later (cleared log₁)
      refine ⟨⟨ls, ps, y, logLines log₁⟩ :: turns, log', ?_, ?_, rfl,
        .cons blank grammatical.1 first takes⟩
      · rw [List.map_cons, List.map_cons, lines]
      · rw [List.map_cons, List.map_cons, forms]

/-- The forms of a text of regular lines are evaluated in turns. -/
theorem exists_turns (regular : Regular lines) (grammatical : Grammatical (joinLines lines) ps)
    (readable : ∀ p ∈ ps, Readable p) (inRange : s.InRange) (evaluates : Evaluates manner s ps x t) :
    ∃ turns log, (turns.map Turn.lines).flatten = lines ∧ (turns.map Turn.forms).flatten = ps ∧
      .join (turns.map Turn.written) = x ∧ (∀ turn ∈ turns, IsChunk turn.lines) ∧
      Takes manner s turns { t with log } := by
  obtain ⟨lexes, fit⟩ := grammatical
  rw [← Phrase.tokensAll_eq] at lexes
  obtain ⟨chunks, parts, rfl, each⟩ := exists_chunks regular lexes
  have texts : ∀ c ∈ chunks, Grammatical (submitted c.1) c.2 := by
    intro c mem
    refine grammatical_submitted regular (fun l here => ?_) (each c mem).2 fun p here => fit p ?_
    · rw [← parts]
      exact List.mem_flatten_of_mem (List.mem_map_of_mem mem) here
    · exact List.mem_flatten_of_mem (List.mem_map_of_mem mem) here
  obtain ⟨turns, log, lines', forms, written, takes⟩ :=
    exists_takes texts readable inRange evaluates s.log
  refine ⟨turns, log, by rw [lines', parts], by rw [forms], written, fun turn mem => ?_, takes⟩
  have among : turn.lines ∈ chunks.map Prod.fst := lines' ▸ List.mem_map_of_mem mem
  obtain ⟨c, here, same⟩ := List.mem_map.mp among
  exact same ▸ (each c here).1

theorem logLines_quiet (quiet : s.Quiet) : logLines s.log = .nothing := by
  rw [show s.log = .empty .quiet from quiet]
  rfl

theorem cleared_quiet (quiet : s.Quiet) : ({ s with log := cleared s.log } : Session) = s := by
  obtain ⟨h, symbols, g, log⟩ := s
  obtain rfl : log = .empty .quiet := quiet
  rfl

theorem Takes.quiet {turns : List Turn} (takes : Takes manner s turns u)
    (readable : ∀ turn ∈ turns, ∀ p ∈ turn.forms, Readable p) (inRange : s.InRange)
    (quiet : s.Quiet) : u.Quiet ∧ ∀ turn ∈ turns, turn.log = .nothing := by
  induction takes with
  | nil s => exact ⟨quiet, by simp⟩
  | blank none _ ih =>
    rw [List.forall_mem_cons] at readable ⊢
    obtain ⟨quiet, logs⟩ := ih readable.2 inRange quiet
    exact ⟨quiet, rfl, logs⟩
  | cons some grammatical evaluates _ ih =>
    rw [List.forall_mem_cons] at readable ⊢
    have between := evaluates.quiet readable.1 inRange quiet
    rw [cleared_quiet between] at ih
    obtain ⟨quiet, logs⟩ := ih readable.2 (evaluates.inRange readable.1 inRange) between
    exact ⟨quiet, logLines_quiet between, logs⟩

/-- Typing the lines, in these turns, and piping their text come to the same: `t` is the session
that the forms of the text leave and `u` the one behind the last turn. -/
structure Agrees (manner : Manner) (s : Session) (lines : List String) (turns : List Turn)
    (t u : Session) : Prop where
  /-- The turns are whole lines in their order. -/
  partition : (turns.map Turn.lines).flatten = lines
  /-- Each turn ends with the first line at whose end no list is open. -/
  isChunk : ∀ turn ∈ turns, IsChunk turn.lines
  /-- So the shell works off the turns, whatever its host is. -/
  talks : ∀ (m : Type → Type) [Monad m] [LawfulMonad m] [Host m],
    run (m := m) manner (lines.map Utf8.encode) s =
      (do put banner
          talk manner (turns.map Turn.lines) s)
  /-- The turns have the forms of the text in their order. -/
  grammatical : Grammatical (joinLines lines) (turns.map Turn.forms).flatten
  /-- The text evaluates these forms and writes the same as the turns. -/
  evaluates : Evaluates manner s (turns.map Turn.forms).flatten (.join (turns.map Turn.written)) t
  takes : Takes manner s turns u
  piped : Writes (CommandLine.piped manner (pure (Utf8.encode (joinLines lines))) s)
    (some { t with log := cleared t.log }) (.join (turns.map Turn.written) ++ logLines t.log)
  typed : Writes (run manner (lines.map Utf8.encode) s) u
    (⟨banner, ""⟩ ++ .join (turns.map Turn.shown) ++ ⟨"> ", ""⟩)
  /-- The two sessions differ in the log at most. -/
  session : u.heap = t.heap ∧ u.symbols = t.symbols ∧ u.globals = t.globals
  /-- Without a log there is no difference at all. -/
  quiet : s.Quiet → { t with log := cleared t.log } = u ∧ logLines t.log = .nothing ∧
    ∀ turn ∈ turns, turn.log = .nothing

theorem exists_grammatical {text : String} {h : Heap} {symbols : SymbolTable} {vs : List Value}
    {r : Reading} (accepted : Reading.forms ⟨.ofString text, h, symbols⟩ = .ok vs r) :
    ∃ ps, Grammatical text ps := by
  obtain ⟨ps, read⟩ | fails := Reading.forms_settles (.ofString text)
  · exact ⟨ps, Reading.grammatical_iff.mpr read⟩
  · obtain ⟨cells, ends⟩ := fails.ends
    exact ((ends h symbols).of_eq_ok accepted).elim

/-- Regular lines that make up a text which the reader accepts can be typed or piped: the shell
evaluates the same forms in the same order, writes the same besides its prompts, and leaves the same
session. There has to be room for every form when it is read. -/
theorem run_agrees (manner : Manner) (inRange : s.InRange) (regular : Regular lines)
    (accepted : ∃ h symbols vs r,
      Reading.forms ⟨.ofString (joinLines lines), h, symbols⟩ = .ok vs r)
    (room : hasRoomToRead manner.steps (joinLines lines).toList (.ofString (joinLines lines)) s =
      true) : ∃ turns t u, Agrees manner s lines turns t u := by
  obtain ⟨h, symbols, vs, r, accepted⟩ := accepted
  obtain ⟨ps, grammatical⟩ := exists_grammatical accepted
  have ⟨⟨src', reads, _⟩, fit⟩ := grammatical
  rw [← Phrase.tokensAll_eq] at reads
  have readable := readable_of_reads fit reads
  obtain ⟨x, t, evaluates⟩ := exists_evaluates fit reads (Nat.le_refl _) room
  obtain ⟨turns, log, parts, rfl, rfl, isChunk, takes⟩ :=
    exists_turns regular grammatical readable inRange evaluates
  have talks {m : Type → Type} [Monad m] [LawfulMonad m] [Host m] :=
    run_chunks (m := m) manner (List.forall_mem_map.mpr isChunk) s
  rw [parts] at talks
  refine ⟨turns, t, _, parts, isChunk, fun _ => talks, grammatical, evaluates, takes,
    writes_piped grammatical evaluates, ?_, ⟨rfl, rfl, rfl⟩, fun quiet => ?_⟩
  · rw [talks, Written.append_assoc]
    exact (writes_put banner).bind (writes_talk takes)
  · have each : ∀ turn ∈ turns, ∀ p ∈ turn.forms, Readable p := fun turn mem p here =>
      readable p (List.mem_flatten_of_mem (List.mem_map_of_mem mem) here)
    obtain ⟨last, logs⟩ := takes.quiet each inRange quiet
    obtain rfl : log = .empty .quiet := last
    have quiet' := evaluates.quiet readable inRange quiet
    refine ⟨?_, logLines_quiet quiet', logs⟩
    rw [cleared_quiet quiet', ← show t.log = .empty .quiet from quiet']

/-- A list over two lines, with a comment behind it, and a number. -/
def typing : List String := ["(list '", ":a) ; two", "7"]

theorem regular_typing : Regular typing where
  ascii := by
    have all : (joinLines typing).toList.all (fun c => c.toNat < 128 && c != '\x0b') = true := by
      decide +kernel
    simpa using all
  unbroken front back ts parts outside lexes dangles := by
    have here : (joinLines typing).toList[front.length]? = some '\n' := by simp [parts]
    have inside : front.length < 19 := (List.getElem?_eq_some_iff.mp here).1
    have before : (joinLines typing).toList.take front.length = front := by simp [parts]
    have breaks : ∀ n < 19, (joinLines typing).toList[n]? = some '\n' →
        openParens 0 false ((joinLines typing).toList.take n) = 0 →
        (joinLines typing).toList.take n = "(list '\n:a) ; two".toList := by decide +kernel
    obtain rfl : "(list '\n:a) ; two".toList = front := by
      rw [← breaks _ inside here (by rwa [before]), before]
    have list : Lexes "(list '\n:a) ; two".toList
        [.opening, .ident "list", .quote, .ident ":a", .closing] := by
      refine ⟨_, .cons (eq_ok_of_value? ?_) (.cons (eq_ok_of_value? ?_) (.cons (eq_ok_of_value? ?_)
        (.cons (eq_ok_of_value? ?_) (.cons (eq_ok_of_value? ?_) (.nil _))))), ?_⟩
      all_goals decide +kernel
    obtain rfl := lexes.unique list
    obtain ⟨_, t, same, mark⟩ := dangles
    obtain rfl : Token.closing = t := by simpa using congrArg List.getLast? same
    rcases mark with mark | mark | mark <;> cases mark
  noCommand front l back parts outside := by
    have here : typing[front.length]? = some l := by simp [parts]
    have before : typing.take front.length = front := by simp [parts]
    have inside : front.length < 3 := (List.getElem?_eq_some_iff.mp here).1
    have starts : ∀ n < 3, depth (typing.take n) = 0 →
        (trimStart (typing[n]?.getD "").toList).head? ≠ some ':' := by decide +kernel
    simpa [here] using starts _ inside (by rwa [before])

theorem run_agrees_typing : ∃ turns t u, Agrees ⟨100, true⟩ spacious typing turns t u := by
  have made : create 64 .quiet = .ok spacious := rfl
  have read : value? Reading.forms ⟨.ofString (joinLines typing), .ofCapacity 8, .initial⟩ =
      some [.pair 3, .int 7] := by decide +kernel
  exact run_agrees ⟨100, true⟩ (inRange_of_create made) regular_typing
    ⟨_, _, _, _, eq_ok_of_value? read⟩ (by decide +kernel)

end Repl

end SecdLisp
