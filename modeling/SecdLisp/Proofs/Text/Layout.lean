import Mathlib.Algebra.Group.Int.Defs
import SecdLisp.Proofs.Text.Lines
import SecdLisp.Proofs.Text.Words

/-!
# Texts laid out

A text is a row of pieces with separators between them: marks of one character, and words, two of
which never stand side by side without a separator. Every text is laid out so, and reading tokens
follows the pieces: each spells a token or is a numeral that is too large, which ends the reading.
-/

namespace SecdLisp

namespace Token

open Source

/-- A numeral of a number that 64 bits do not hold. -/
def TooLarge (w : List Char) : Prop := ∃ n, Numeral w n ∧ ¬(-2 ^ 63 ≤ n ∧ n < 2 ^ 63)

/-- How a token is spelled. -/
inductive Spells : List Char → Token → Prop where
  | mark {c : Char} {t : Token} (one : punctuation? c = some t) : Spells [c] t
  | int {w : List Char} {n : Int64} (numeral : Numeral w n.toInt) : Spells w (.int n)
  | ident {w : List Char} (word : IsWord w) (other : ∀ n, ¬Numeral w n) :
    Spells w (.ident (String.ofList w))

/-- Blanks, and comments that run to the end of their line. -/
inductive Separator : List Char → Prop where
  | nil : Separator []
  | blank {c : Char} {cs : List Char} (blank : isBlank c = true) (later : Separator cs) :
    Separator (c :: cs)
  | comment {ds cs : List Char} (inside : '\n' ∉ ds) (later : Separator cs) :
    Separator (';' :: ds ++ '\n' :: cs)

/-- What may stand behind the last piece. A comment there may run to the end of the text. -/
inductive Trailer : List Char → Prop where
  | separator {cs : List Char} (closed : Separator cs) : Trailer cs
  | comment {cs ds : List Char} (closed : Separator cs) (inside : '\n' ∉ ds) :
    Trailer (cs ++ ';' :: ds)

/-- The pieces of a text in order. A word may just have ended in front of it, and then its first
piece is not a word unless there is something between them. -/
inductive Layout : (afterWord : Bool) → List Char → List (List Char) → Prop where
  | done {afterWord : Bool} {cs : List Char} (trailer : Trailer cs) : Layout afterWord cs []
  | mark {afterWord : Bool} {s rest : List Char} {c : Char} {t : Token} {ps : List (List Char)}
    (separator : Separator s) (one : punctuation? c = some t) (later : Layout false rest ps) :
    Layout afterWord (s ++ c :: rest) ([c] :: ps)
  | word {afterWord : Bool} {s w rest : List Char} {ps : List (List Char)}
    (separator : Separator s) (apart : afterWord = true → s ≠ []) (word : IsWord w)
    (later : Layout true rest ps) : Layout afterWord (s ++ (w ++ rest)) (w :: ps)

variable {s w p cs ds rest : List Char} {ps qs : List (List Char)} {t u : Token} {ts : List Token}
  {c : Char} {n : Int} {afterWord : Bool} {src : Source} {o : Nat} {e : ParseError}

theorem Numeral.isWord (numeral : Numeral w n) : IsWord w := by
  have minus : isDelimiter '-' = false := by decide
  cases numeral with
  | plain some digits => exact ⟨some, fun c mem => isDelimiter_of_isDigit (digits c mem)⟩
  | negative some digits =>
    refine ⟨List.cons_ne_nil _ _, fun c mem => ?_⟩
    rcases List.mem_cons.mp mem with rfl | mem
    · exact minus
    · exact isDelimiter_of_isDigit (digits c mem)

theorem word?_eq_none_iff : word? n = none ↔ ¬(-2 ^ 63 ≤ n ∧ n < 2 ^ 63) := by
  rw [word?, Int64.toInt_minValue, Int64.toInt_maxValue]
  split <;> simp <;> omega

theorem not_isWord (one : punctuation? c = some t) : ¬IsWord [c] := by
  intro word
  have plain := (isDelimiter_eq_false.mp (word.2 c (List.mem_singleton_self _))).2.1
  rw [one] at plain
  cases plain

theorem ofWord_of_spells (word : IsWord w) (spells : Spells w t) : ofWord w = .ok t := by
  cases spells with
  | mark one => exact (not_isWord one word).elim
  | @int _ n numeral =>
    have fits : word? n.toInt = some n := word?_eq_some_iff.mpr rfl
    simp only [ofWord, numeral_iff.mp numeral, fits]
  | ident _ other =>
    have none : numeral? w = none := by
      rw [Option.eq_none_iff_forall_ne_some]
      exact fun n known => other n (numeral_iff.mpr known)
    simp only [ofWord, none]

theorem punctuation?_of_spells (one : punctuation? c = some t) (spells : Spells [c] u) :
    punctuation? c = some u := by
  cases spells with
  | mark one' => exact one'
  | int numeral => exact (not_isWord one numeral.isWord).elim
  | ident word _ => exact (not_isWord one word).elim

theorem spells_or_tooLarge (word : IsWord w) : (∃ t, Spells w t) ∨ TooLarge w := by
  by_cases numeral : ∃ n, Numeral w n
  · obtain ⟨n, numeral⟩ := numeral
    cases fits : word? n with
    | none => exact .inr ⟨n, numeral, word?_eq_none_iff.mp fits⟩
    | some m => exact .inl ⟨_, .int (word?_eq_some_iff.mp fits ▸ numeral)⟩
  · exact .inl ⟨_, .ident word (not_exists.mp numeral)⟩

theorem ofWord_of_tooLarge (tooLarge : TooLarge w) :
    ofWord w = .error (.integerOutOfRange (String.ofList w)) := by
  obtain ⟨n, numeral, outside⟩ := tooLarge
  simp only [ofWord, numeral_iff.mp numeral, word?_eq_none_iff.mpr outside]

theorem not_tooLarge (spells : Spells w t) : ¬TooLarge w := by
  intro tooLarge
  obtain ⟨n, numeral, _⟩ := id tooLarge
  have read := ofWord_of_spells numeral.isWord spells
  rw [ofWord_of_tooLarge tooLarge] at read
  cases read

theorem skipFrom_comment (inside : '\n' ∉ ds) (o : Nat) (cs : List Char) :
    ∃ o', skipFrom true o (ds ++ cs) = skipFrom true o' cs := by
  induction ds generalizing o with
  | nil => exact ⟨o, rfl⟩
  | cons d ds ih =>
    rw [List.mem_cons, not_or] at inside
    have other : (d != '\n') = true := bne_iff_ne.mpr (Ne.symm inside.1)
    rw [List.cons_append, skipFrom, if_pos rfl, other]
    exact ih inside.2 _

theorem Separator.skipFrom (separator : Separator s) (o : Nat) (cs : List Char) :
    ∃ o', Source.skipFrom false o (s ++ cs) = Source.skipFrom false o' cs := by
  induction separator generalizing o with
  | nil => exact ⟨o, rfl⟩
  | blank blank _ ih =>
    rw [List.cons_append, Source.skipFrom, if_neg Bool.false_ne_true, if_pos blank]
    exact ih _
  | @comment ds cs' inside _ ih =>
    obtain ⟨o', same⟩ := skipFrom_comment inside (o + 1) ('\n' :: (cs' ++ cs))
    rw [skipFrom_newline] at same
    obtain ⟨o'', later⟩ := ih (o' + 1)
    refine ⟨o'', ?_⟩
    rw [← later, ← same, List.cons_append, List.cons_append, List.append_assoc]
    rfl

theorem Separator.delimited (separator : Separator s) (some : s ≠ []) (cs : List Char) :
    Delimited (s ++ cs) := by
  cases separator with
  | nil => exact absurd rfl some
  | blank blank _ => exact delimited_cons (by simp [isDelimiter, blank])
  | comment _ _ => exact delimited_cons (by decide)

theorem Trailer.skipFrom (trailer : Trailer cs) (o : Nat) :
    (Source.skipFrom false o cs).unread = [] := by
  cases trailer with
  | separator closed =>
    obtain ⟨o', same⟩ := closed.skipFrom o []
    rw [List.append_nil] at same
    rw [same]
    rfl
  | @comment cs ds closed inside =>
    obtain ⟨o', same⟩ := closed.skipFrom o (';' :: ds)
    obtain ⟨o'', later⟩ := skipFrom_comment inside (o' + 1) []
    rw [List.append_nil] at later
    have semicolon : Source.skipFrom false o' (';' :: ds) = Source.skipFrom true (o' + 1) ds := rfl
    rw [same, semicolon, later]
    rfl

theorem Trailer.delimited (trailer : Trailer cs) : Delimited cs := by
  cases trailer with
  | separator closed =>
    by_cases some : cs = []
    · exact some ▸ delimited_nil
    · simpa using closed.delimited some []
  | @comment cs ds closed _ =>
    by_cases some : cs = []
    · rw [some]
      exact delimited_cons (by decide)
    · exact closed.delimited some _

theorem trailer_or_separator (cs : List Char) : Trailer cs ∨
    ∃ s c rest, cs = s ++ c :: rest ∧ Separator s ∧ isBlank c = false ∧ c ≠ ';' := by
  induction length : cs.length using Nat.strong_induction_on generalizing cs with
  | h n ih =>
    subst length
    -- What stands in front of the rest of a text stands in front of its separator.
    have longer (front : List Char) {rest : List Char} (shorter : rest.length < cs.length)
        (text : cs = front ++ rest) (join : ∀ s, Separator s → Separator (front ++ s)) :
        Trailer cs ∨ ∃ s c rest, cs = s ++ c :: rest ∧ Separator s ∧ isBlank c = false ∧ c ≠ ';' := by
      obtain trailer | ⟨s, c, more, rfl, separator, stop⟩ := ih _ shorter rest rfl
      · left
        cases trailer with
        | separator closed => exact text ▸ .separator (join _ closed)
        | comment closed inside =>
          rw [text, ← List.append_assoc]
          exact .comment (join _ closed) inside
      · right
        exact ⟨front ++ s, c, more, by rw [text, List.append_assoc], join s separator, stop⟩
    cases cs with
    | nil => exact .inl (.separator .nil)
    | cons c cs =>
      by_cases blank : isBlank c = true
      · exact longer [c] (Nat.lt_succ_self _) rfl fun s => .blank blank
      by_cases semicolon : c = ';'
      · subst semicolon
        by_cases newline : '\n' ∈ cs
        · obtain ⟨ds, rest, rfl, inside⟩ := List.eq_append_cons_of_mem newline
          have shorter : rest.length < (';' :: (ds ++ '\n' :: rest)).length := by simp; omega
          refine longer (';' :: ds ++ ['\n']) shorter (by simp) fun s closed => ?_
          simpa using Separator.comment inside closed
        · exact .inl (.comment .nil newline)
      · exact .inr ⟨[], c, cs, rfl, .nil, by simpa using blank, semicolon⟩

theorem exists_layout (cs : List Char) (delimited : afterWord = true → Delimited cs) :
    ∃ ps, Layout afterWord cs ps := by
  induction length : cs.length using Nat.strong_induction_on generalizing cs afterWord with
  | h n ih =>
    subst length
    obtain trailer | ⟨s, c, rest, rfl, separator, blank, semicolon⟩ := trailer_or_separator cs
    · exact ⟨[], .done trailer⟩
    cases one : punctuation? c with
    | some t =>
      have shorter : rest.length < (s ++ c :: rest).length := by simp; omega
      obtain ⟨ps, later⟩ : ∃ ps, Layout false rest ps := ih _ shorter rest nofun rfl
      exact ⟨_, .mark separator one later⟩
    | none =>
      have first : isDelimiter c = false := isDelimiter_eq_false.mpr ⟨blank, one, semicolon⟩
      let w := (c :: rest).takeWhile (!isDelimiter ·)
      let more := (c :: rest).dropWhile (!isDelimiter ·)
      have text : w ++ more = c :: rest := List.takeWhile_append_dropWhile
      have word : IsWord w := by
        refine ⟨by simp [w, first], fun d mem => ?_⟩
        simpa using List.mem_takeWhile_imp mem
      have shorter : more.length < (s ++ c :: rest).length := by
        have pos := List.length_pos_iff.mpr word.1
        rw [← text, List.length_append, List.length_append]
        omega
      have apart : afterWord = true → s ≠ [] := by
        rintro ended rfl
        have delimiter := delimited ended c rfl
        rw [first] at delimiter
        cases delimiter
      obtain ⟨ps, later⟩ : ∃ ps, Layout true more ps :=
        ih _ shorter more (fun _ => delimited_dropWhile _) rfl
      rw [← text]
      exact ⟨_, .word separator apart word later⟩

theorem Layout.delimited (layout : Layout true cs ps) : Delimited cs := by
  generalize ended : true = afterWord at layout
  cases layout with
  | done trailer => exact trailer.delimited
  | @mark _ s _ c t _ separator one _ =>
    by_cases some : s = []
    · rw [some]
      exact delimited_cons (by simp [isDelimiter, one])
    · exact separator.delimited some _
  | word separator apart _ _ => exact separator.delimited (apart ended.symm) _

theorem next?_mark (separator : Separator s) (one : punctuation? c = some t) (o : Nat)
    (rest : List Char) : ∃ o', next? ⟨o, s ++ c :: rest⟩ = .ok (some t) ⟨o', rest⟩ := by
  have stops : isBlank c = false ∧ c ≠ ';' := by
    unfold punctuation? at one
    split at one <;> first | decide | cases one
  obtain ⟨o', same⟩ := separator.skipFrom o (c :: rest)
  rw [skipFrom_of_stop stops.1 stops.2] at same
  exact ⟨_, next?_punctuation same one⟩

theorem next?_piece (separator : Separator s) (word : IsWord w) (delimited : Delimited rest)
    (o : Nat) : ∃ o', next? ⟨o, s ++ (w ++ rest)⟩ =
      match ofWord w with
      | .ok t => .ok (some t) ⟨o', rest⟩
      | .error cause => .error cause ⟨o', rest⟩ := by
  obtain ⟨o', same⟩ := separator.skipFrom o (w ++ rest)
  obtain ⟨c, w, rfl⟩ := List.exists_cons_of_ne_nil word.1
  obtain ⟨blank, -, semicolon⟩ := isDelimiter_eq_false.mp (word.2 c (by simp))
  rw [List.cons_append, skipFrom_of_stop blank semicolon] at same
  exact ⟨_, next?_word same word delimited⟩

/-- Where all pieces spell tokens, these are the tokens of the text. -/
theorem Layout.reads (layout : Layout afterWord cs ps) (spelled : List.Forall₂ Spells ps ts)
    (o : Nat) : ∃ last, Reads ⟨o, cs⟩ ts last ∧ last.atEnd = true := by
  induction layout generalizing ts o with
  | done trailer =>
    cases spelled
    exact ⟨_, .nil _, List.isEmpty_iff.mpr (trailer.skipFrom o)⟩
  | mark separator one later ih =>
    cases spelled with
    | cons first others =>
      obtain ⟨o', found⟩ := next?_mark separator (punctuation?_of_spells one first) o _
      obtain ⟨last, reads, done⟩ := ih others o'
      exact ⟨last, .cons found reads, done⟩
  | word separator apart word later ih =>
    cases spelled with
    | cons first others =>
      obtain ⟨o', found⟩ := next?_piece separator word later.delimited o
      rw [ofWord_of_spells word first] at found
      obtain ⟨last, reads, done⟩ := ih others o'
      exact ⟨last, .cons found reads, done⟩

/-- A piece that is too large is where reading fails, or another one before it. -/
theorem Layout.fails (layout : Layout afterWord cs ps) (mem : w ∈ ps) (tooLarge : TooLarge w)
    (o : Nat) : ∃ ts mid e last, Reads ⟨o, cs⟩ ts mid ∧ next? mid = .error e last := by
  induction layout generalizing o with
  | done => cases mem
  | mark separator one later ih =>
    have other : w ∈ _ := (List.mem_cons.mp mem).resolve_left fun eq =>
      not_tooLarge (.mark one) (eq ▸ tooLarge)
    obtain ⟨o', found⟩ := next?_mark separator one o _
    obtain ⟨ts, mid, e, last, reads, failed⟩ := ih other o'
    exact ⟨_, mid, e, last, .cons found reads, failed⟩
  | @word _ _ w' _ _ separator apart word later ih =>
    obtain ⟨o', found⟩ := next?_piece separator word later.delimited o
    obtain ⟨t, spells⟩ | tooLarge' := spells_or_tooLarge word
    · have other : w ∈ _ := (List.mem_cons.mp mem).resolve_left fun eq =>
        not_tooLarge spells (eq ▸ tooLarge)
      rw [ofWord_of_spells word spells] at found
      obtain ⟨ts, mid, e, last, reads, failed⟩ := ih other o'
      exact ⟨_, mid, e, last, .cons found reads, failed⟩
    · rw [ofWord_of_tooLarge tooLarge'] at found
      exact ⟨[], _, _, _, .nil _, found⟩

/-- The pieces of a text spell tokens, or one of them is too large. -/
theorem Layout.spelled_or_tooLarge (layout : Layout afterWord cs ps) :
    (∃ ts, List.Forall₂ Spells ps ts) ∨ ∃ w ∈ ps, TooLarge w := by
  induction layout with
  | done => exact .inl ⟨[], .nil⟩
  | mark _ one _ ih =>
    obtain ⟨ts, spelled⟩ | ⟨w, mem, tooLarge⟩ := ih
    · exact .inl ⟨_, .cons (.mark one) spelled⟩
    · exact .inr ⟨w, List.mem_cons_of_mem _ mem, tooLarge⟩
  | word _ _ word _ ih =>
    obtain ⟨t, first⟩ | tooLarge := spells_or_tooLarge word
    · obtain ⟨ts, spelled⟩ | ⟨w, mem, tooLarge⟩ := ih
      · exact .inl ⟨_, .cons first spelled⟩
      · exact .inr ⟨w, List.mem_cons_of_mem _ mem, tooLarge⟩
    · exact .inr ⟨_, List.mem_cons_self .., tooLarge⟩

/-- A text has the tokens that its pieces spell. -/
theorem lexes_iff_layout : Lexes cs ts ↔ ∃ ps, Layout false cs ps ∧ List.Forall₂ Spells ps ts := by
  constructor
  · intro lexes
    obtain ⟨ps, layout⟩ : ∃ ps, Layout false cs ps := exists_layout cs nofun
    obtain ⟨us, spelled⟩ | ⟨w, mem, tooLarge⟩ := layout.spelled_or_tooLarge
    · obtain rfl := lexes.unique (layout.reads spelled 0)
      exact ⟨ps, layout, spelled⟩
    · obtain ⟨us, mid, e, last, reads, failed⟩ := layout.fails mem tooLarge 0
      obtain ⟨last, whole, done⟩ := lexes
      obtain ⟨vs, -, later⟩ := reads.behind whole done
      exact (later.no_error done failed).elim
  · rintro ⟨ps, layout, spelled⟩
    exact layout.reads spelled 0

theorem Layout.fails_iff (layout : Layout false cs ps) :
    (∃ us mid e last, Reads ⟨0, cs⟩ us mid ∧ next? mid = .error e last) ↔ ∃ w ∈ ps, TooLarge w := by
  constructor
  · rintro ⟨us, mid, e, last, reads, failed⟩
    apply layout.spelled_or_tooLarge.resolve_left
    rintro ⟨ts, spelled⟩
    obtain ⟨last, whole, done⟩ := layout.reads spelled 0
    obtain ⟨vs, -, later⟩ := reads.behind whole done
    exact later.no_error done failed
  · rintro ⟨w, mem, tooLarge⟩
    exact layout.fails mem tooLarge 0

end Token

end SecdLisp
