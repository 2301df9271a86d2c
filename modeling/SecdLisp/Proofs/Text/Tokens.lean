import Mathlib.Data.List.TakeDrop
import Mathlib.Data.List.TakeWhile
import SecdLisp.Text.Token

/-!
# Tokens in a text

Reading a token passes over blanks and comments and over the token itself. What it finds depends
on the characters up to the end of the token only: a word goes on until a delimiter comes, so
nothing behind a delimiter can change the tokens in front of it.
-/

namespace SecdLisp

theorem byteLength_cons (c : Char) (cs : List Char) :
    byteLength (c :: cs) = c.utf8Size + byteLength cs := by
  have shifted (cs : List Char) (n : Nat) :
      cs.foldl (fun n c => n + c.utf8Size) n = n + byteLength cs := by
    unfold byteLength
    induction cs generalizing n with
    | nil => simp
    | cons c cs ih =>
      simp only [List.foldl_cons]
      rw [ih (n + c.utf8Size), ih (0 + c.utf8Size)]
      omega
  rw [byteLength, List.foldl_cons, shifted, Nat.zero_add]

theorem byteLength_append (cs ds : List Char) :
    byteLength (cs ++ ds) = byteLength cs + byteLength ds := by
  induction cs with
  | nil => simp [byteLength]
  | cons c cs ih => rw [List.cons_append, byteLength_cons, byteLength_cons, ih, Nat.add_assoc]

theorem byteLength_pos {cs : List Char} (some : cs ≠ []) : 0 < byteLength cs := by
  cases cs with
  | nil => exact absurd rfl some
  | cons c cs =>
    have := c.utf8Size_pos
    rw [byteLength_cons]
    omega

namespace Source

variable {src src' src'' : Source} {cs ds more : List Char} {comment : Bool} {o : Nat}

/-- After these characters of a text, that much of it is left. -/
def Passes (src : Source) (cs : List Char) (src' : Source) : Prop :=
  src.unread = cs ++ src'.unread ∧ src'.offset = src.offset + byteLength cs

theorem Passes.refl (src : Source) : src.Passes [] src := ⟨rfl, rfl⟩

theorem Passes.trans (first : src.Passes cs src') (second : src'.Passes ds src'') :
    src.Passes (cs ++ ds) src'' := by
  obtain ⟨text, place⟩ := first
  obtain ⟨text', place'⟩ := second
  constructor
  · rw [text, text', List.append_assoc]
  · rw [place', place, byteLength_append, Nat.add_assoc]

theorem Passes.length_le (passes : src.Passes cs src') :
    src'.unread.length + cs.length = src.unread.length := by
  rw [passes.1, List.length_append, Nat.add_comm]

theorem skipFrom_passes (comment : Bool) (o : Nat) (cs : List Char) :
    ∃ skipped, Passes ⟨o, cs⟩ skipped (skipFrom comment o cs) := by
  have step {c : Char} {cs : List Char} {comment : Bool} {o : Nat}
      (later : ∃ skipped, Passes ⟨o + c.utf8Size, cs⟩ skipped
        (skipFrom comment (o + c.utf8Size) cs)) :
      ∃ skipped, Passes ⟨o, c :: cs⟩ skipped (skipFrom comment (o + c.utf8Size) cs) := by
    obtain ⟨skipped, text, place⟩ := later
    refine ⟨c :: skipped, ?_, ?_⟩
    · simpa using text
    · rw [place, byteLength_cons, Nat.add_assoc]
  induction cs generalizing comment o with
  | nil => exact ⟨[], .refl _⟩
  | cons c cs ih =>
    unfold skipFrom
    split
    · exact step (ih _ _)
    split
    · exact step (ih _ _)
    split
    · exact step (ih _ _)
    · exact ⟨[], .refl _⟩

theorem skipBlanks_passes (src : Source) : ∃ skipped, src.Passes skipped src.skipBlanks :=
  skipFrom_passes false src.offset src.unread

theorem skipFrom_stops {c : Char} {rest : List Char}
    (left : (skipFrom comment o cs).unread = c :: rest) : isBlank c = false ∧ c ≠ ';' := by
  induction cs generalizing comment o with
  | nil => cases left
  | cons d cs ih =>
    unfold skipFrom at left
    split at left
    · exact ih left
    split at left
    · exact ih left
    split at left
    · exact ih left
    · next blank semicolon =>
      obtain ⟨rfl, -⟩ := List.cons.inj left
      exact ⟨by simpa using blank, semicolon⟩

theorem skipFrom_of_stop {c : Char} (blank : isBlank c = false) (semicolon : c ≠ ';') :
    skipFrom false o (c :: cs) = ⟨o, c :: cs⟩ := by
  simp [skipFrom, blank, semicolon]

@[simp] theorem skipBlanks_skipBlanks (src : Source) :
    src.skipBlanks.skipBlanks = src.skipBlanks := by
  obtain ⟨o, left⟩ : ∃ o, src.skipBlanks = ⟨o, src.skipBlanks.unread⟩ := ⟨_, rfl⟩
  cases here : src.skipBlanks.unread with
  | nil => rw [left, here]; rfl
  | cons c rest =>
    obtain ⟨blank, semicolon⟩ := skipFrom_stops here
    rw [left, here]
    exact skipFrom_of_stop blank semicolon

theorem skipFrom_append_of_cons {c : Char} {rest : List Char}
    (left : (skipFrom comment o cs).unread = c :: rest) (more : List Char) :
    skipFrom comment o (cs ++ more) =
      ⟨(skipFrom comment o cs).offset, c :: rest ++ more⟩ := by
  induction cs generalizing comment o with
  | nil => cases left
  | cons d cs ih =>
    simp only [List.cons_append, skipFrom] at left ⊢
    split_ifs at left ⊢
    · exact ih left
    · exact ih left
    · exact ih left
    · obtain ⟨rfl, rfl⟩ := List.cons.inj left
      rfl

/-- Where blanks and comments take up a whole text, they may go on in the text behind it. -/
theorem skipFrom_append_of_nil (left : (skipFrom comment o cs).unread = []) (more : List Char) :
    ∃ comment', skipFrom comment o (cs ++ more) =
      skipFrom comment' (skipFrom comment o cs).offset more := by
  induction cs generalizing comment o with
  | nil => exact ⟨comment, rfl⟩
  | cons d cs ih =>
    simp only [List.cons_append, skipFrom] at left ⊢
    split_ifs at left ⊢
    · exact ih left
    · exact ih left
    · exact ih left

theorem skipFrom_newline (comment : Bool) (o : Nat) (cs : List Char) :
    skipFrom comment o ('\n' :: cs) = skipFrom false (o + 1) cs := by
  cases comment <;> rfl

theorem skipFrom_blanks (blank : ∀ c ∈ cs, isBlank c = true) (comment : Bool) (o : Nat) :
    (skipFrom comment o cs).unread = [] := by
  induction cs generalizing comment o with
  | nil => rfl
  | cons c cs ih =>
    rw [List.forall_mem_cons] at blank
    unfold skipFrom
    split
    · exact ih blank.2 _ _
    · rw [if_pos blank.1]
      exact ih blank.2 _ _

theorem skipFrom_offset (comment : Bool) (o o' : Nat) (cs : List Char) :
    (skipFrom comment o cs).unread = (skipFrom comment o' cs).unread := by
  induction cs generalizing comment o o' with
  | nil => rfl
  | cons c cs ih =>
    unfold skipFrom
    split
    · exact ih _ _ _
    split
    · exact ih _ _ _
    split
    · exact ih _ _ _
    · rfl

end Source

namespace Token

open Source

variable {src src' src'' : Source} {t : Token} {ts us : List Token} {cs w rest more : List Char}

/-- A run of characters that is one word wherever it stands between delimiters. -/
def IsWord (w : List Char) : Prop := w ≠ [] ∧ ∀ c ∈ w, isDelimiter c = false

instance (w : List Char) : Decidable (IsWord w) :=
  decidable_of_iff (w ≠ [] ∧ w.all (!isDelimiter ·) = true) (by simp [IsWord])

def Delimited (cs : List Char) : Prop := ∀ c, cs.head? = some c → isDelimiter c = true

theorem delimited_nil : Delimited [] := nofun

theorem delimited_cons {c : Char} (delimiter : isDelimiter c = true) : Delimited (c :: cs) := by
  rintro d ⟨⟩
  exact delimiter

theorem isDelimiter_eq_false {c : Char} :
    isDelimiter c = false ↔ isBlank c = false ∧ punctuation? c = none ∧ c ≠ ';' := by
  simp [isDelimiter, and_assoc]

theorem span_word (word : ∀ c ∈ w, isDelimiter c = false) (delimited : Delimited rest) :
    (w ++ rest).span (!isDelimiter ·) = (w, rest) := by
  have first : (w ++ rest).takeWhile (!isDelimiter ·) = w := by
    rw [List.takeWhile_append_of_pos (by simpa using word)]
    cases rest with
    | nil => simp
    | cons c rest => simp [delimited c rfl]
  have last : (w ++ rest).dropWhile (!isDelimiter ·) = rest := by
    rw [List.dropWhile_append_of_pos (by simpa using word)]
    cases rest with
    | nil => rfl
    | cons c rest => simp [delimited c rfl]
  rw [List.span_eq_takeWhile_dropWhile, first, last]

theorem delimited_dropWhile (cs : List Char) : Delimited (cs.dropWhile (!isDelimiter ·)) := by
  intro c first
  have stops := List.head?_dropWhile_not (!isDelimiter ·) cs
  rw [first] at stops
  simpa using stops

inductive Finds (src : Source) : EStateM.Result ParseError Source (Option Token) → Prop where
  | nothing (o : Nat) (here : src.skipBlanks = ⟨o, []⟩) : Finds src (.ok none ⟨o, []⟩)
  | punctuation {o : Nat} {c : Char} {cs : List Char} {t : Token}
    (here : src.skipBlanks = ⟨o, c :: cs⟩) (one : punctuation? c = some t) :
    Finds src (.ok (some t) ⟨o + c.utf8Size, cs⟩)
  | word {o : Nat} {w rest : List Char} {t : Token} (here : src.skipBlanks = ⟨o, w ++ rest⟩)
    (word : IsWord w) (delimited : Delimited rest) (means : ofWord w = .ok t) :
    Finds src (.ok (some t) ⟨o + byteLength w, rest⟩)
  | refused {o : Nat} {w rest : List Char} {cause : ParseError}
    (here : src.skipBlanks = ⟨o, w ++ rest⟩) (word : IsWord w) (delimited : Delimited rest)
    (means : ofWord w = .error cause) : Finds src (.error cause ⟨o + byteLength w, rest⟩)

theorem finds_next? (src : Source) : Finds src (next? src) := by
  unfold next?
  rcases here : src.skipBlanks with ⟨o, _ | ⟨c, cs⟩⟩
  · exact .nothing o here
  dsimp only
  cases one : punctuation? c with
  | some t => exact .punctuation here one
  | none =>
    obtain ⟨blank, semicolon⟩ := skipFrom_stops (congrArg Source.unread here)
    have first : isDelimiter c = false := isDelimiter_eq_false.mpr ⟨blank, one, semicolon⟩
    dsimp only
    rw [List.span_eq_takeWhile_dropWhile]
    have text : src.skipBlanks = ⟨o, (c :: cs).takeWhile (!isDelimiter ·) ++
        (c :: cs).dropWhile (!isDelimiter ·)⟩ := by
      rw [List.takeWhile_append_dropWhile, here]
    have word : IsWord ((c :: cs).takeWhile (!isDelimiter ·)) := by
      refine ⟨by simp [first], fun d mem => ?_⟩
      simpa using List.mem_takeWhile_imp mem
    cases means : ofWord ((c :: cs).takeWhile (!isDelimiter ·)) with
    | ok t => exact .word text word (delimited_dropWhile _) means
    | error cause => exact .refused text word (delimited_dropWhile _) means

theorem next?_eq_none {o : Nat} (here : src.skipBlanks = ⟨o, []⟩) :
    next? src = .ok none ⟨o, []⟩ := by
  rw [next?, here]

theorem next?_punctuation {o : Nat} {c : Char} (here : src.skipBlanks = ⟨o, c :: cs⟩)
    (one : punctuation? c = some t) : next? src = .ok (some t) ⟨o + c.utf8Size, cs⟩ := by
  simp only [next?, here, one]

theorem next?_word {o : Nat} (here : src.skipBlanks = ⟨o, w ++ rest⟩) (word : IsWord w)
    (delimited : Delimited rest) : next? src =
      match ofWord w with
      | .ok t => .ok (some t) ⟨o + byteLength w, rest⟩
      | .error cause => .error cause ⟨o + byteLength w, rest⟩ := by
  obtain ⟨some, ordinary⟩ := word
  obtain ⟨c, w, rfl⟩ := List.exists_cons_of_ne_nil some
  have span := span_word ordinary delimited
  have one := (isDelimiter_eq_false.mp (ordinary c (by simp))).2.1
  rw [List.cons_append] at here span
  cases means : ofWord (c :: w) <;> simp only [next?, here, one, span, means]

theorem next?_skipBlanks (src : Source) : next? src.skipBlanks = next? src := by
  unfold next?
  rw [skipBlanks_skipBlanks]

theorem next?_of_atEnd (done : src.atEnd = true) : next? src = .ok none src.skipBlanks := by
  obtain ⟨o, left⟩ : ∃ o, src.skipBlanks = ⟨o, src.skipBlanks.unread⟩ := ⟨_, rfl⟩
  rw [List.isEmpty_iff.mp done] at left
  rw [left]
  exact next?_eq_none left

theorem atEnd_of_next? (found : next? src = .ok none src') :
    src.atEnd = true ∧ src' = src.skipBlanks := by
  have finds := finds_next? src
  rw [found] at finds
  cases finds with
  | nothing o here => simp [atEnd, here]

theorem atEnd_eq_false (found : next? src = .ok (some t) src') : src.atEnd = false := by
  by_contra done
  rw [Bool.not_eq_false] at done
  rw [next?_of_atEnd done] at found
  cases found

theorem next?_passes {t? : Option Token} (found : next? src = .ok t? src') :
    ∃ cs, src.Passes cs src' := by
  obtain ⟨skipped, passes⟩ := skipBlanks_passes src
  have finds := finds_next? src
  rw [found] at finds
  cases finds with
  | nothing o here =>
    rw [here] at passes
    exact ⟨skipped, passes⟩
  | @punctuation o c cs t here one =>
    rw [here] at passes
    exact ⟨skipped ++ [c], passes.trans ⟨rfl, by simp [byteLength]⟩⟩
  | @word o w rest t here word delimited means =>
    rw [here] at passes
    exact ⟨skipped ++ w, passes.trans ⟨rfl, rfl⟩⟩

theorem length_lt_of_next? (found : next? src = .ok (some t) src') :
    src'.unread.length < src.unread.length := by
  obtain ⟨skipped, passes⟩ := skipBlanks_passes src
  have le := passes.length_le
  have finds := finds_next? src
  rw [found] at finds
  cases finds with
  | punctuation here one =>
    rw [here, List.length_cons] at le
    dsimp only
    omega
  | word here word delimited means =>
    have pos := List.length_pos_iff.mpr word.1
    rw [here, List.length_append] at le
    dsimp only
    omega

theorem ne_of_next?_ident {name : String} (found : next? src = .ok (some (.ident name)) src') :
    name ≠ "," := by
  have finds := finds_next? src
  rw [found] at finds
  cases finds with
  | @punctuation o c cs t here one =>
    unfold punctuation? at one
    split at one <;> cases one
  | @word o w rest t here word delimited means =>
    have spelled : name = String.ofList w := by
      unfold ofWord at means
      split at means
      · split at means <;> cases means
      · cases means
        rfl
    rintro rfl
    have comma : w = [','] := by
      rw [← String.toList_ofList (l := w), ← spelled]
      rfl
    have ordinary := word.2 ',' (by simp [comma])
    cases ordinary

theorem skipBlanks_append {o : Nat} {c : Char} {left : List Char}
    (here : (skipBlanks ⟨o, cs⟩).unread = c :: left) (more : List Char) (o' : Nat) :
    ∃ p', skipBlanks ⟨o', cs ++ more⟩ = ⟨p', c :: left ++ more⟩ := by
  have here' : (skipFrom false o' cs).unread = c :: left :=
    (skipFrom_offset false o' o cs).trans here
  exact ⟨_, skipFrom_append_of_cons here' more⟩

theorem next?_word_append {o q : Nat} (here : skipBlanks ⟨o, cs⟩ = ⟨q, w ++ rest⟩)
    (word : IsWord w) (wordEnd : Delimited rest) (delimited : Delimited more) (o' : Nat) :
    ∃ p', next? ⟨o', cs ++ more⟩ =
      match ofWord w with
      | .ok t => .ok (some t) ⟨p', rest ++ more⟩
      | .error cause => .error cause ⟨p', rest ++ more⟩ := by
  obtain ⟨c, w', rfl⟩ := List.exists_cons_of_ne_nil word.1
  have here' : (skipBlanks ⟨o, cs⟩).unread = c :: (w' ++ rest) := congrArg Source.unread here
  obtain ⟨p', there⟩ := skipBlanks_append here' more o'
  have wordEnd' : Delimited (rest ++ more) := by
    cases rest with
    | nil => exact delimited
    | cons d rest => exact wordEnd
  rw [← List.cons_append, List.append_assoc] at there
  exact ⟨p' + byteLength (c :: w'), next?_word there word wordEnd'⟩

/-- What follows a delimiter has no part in a token, and neither has the place of the text. -/
theorem next?_append {o p : Nat} (found : next? ⟨o, cs⟩ = .ok (some t) ⟨p, rest⟩)
    (delimited : Delimited more) (o' : Nat) :
    ∃ p', next? ⟨o', cs ++ more⟩ = .ok (some t) ⟨p', rest ++ more⟩ := by
  have finds := finds_next? ⟨o, cs⟩
  rw [found] at finds
  cases finds with
  | @punctuation q c _ _ here one =>
    obtain ⟨p', there⟩ := skipBlanks_append (congrArg Source.unread here) more o'
    exact ⟨_, next?_punctuation there one⟩
  | word here word wordEnd means =>
    obtain ⟨p', there⟩ := next?_word_append here word wordEnd delimited o'
    rw [means] at there
    exact ⟨p', there⟩

/-- A word that is no token stays one. -/
theorem next?_append_of_error {o p : Nat} {cause : ParseError}
    (found : next? ⟨o, cs⟩ = .error cause ⟨p, rest⟩) (delimited : Delimited more) (o' : Nat) :
    ∃ p', next? ⟨o', cs ++ more⟩ = .error cause ⟨p', rest ++ more⟩ := by
  have finds := finds_next? ⟨o, cs⟩
  rw [found] at finds
  cases finds with
  | refused here word wordEnd means =>
    obtain ⟨p', there⟩ := next?_word_append here word wordEnd delimited o'
    rw [means] at there
    exact ⟨p', there⟩

/-- These tokens, one after the other, lead from one place of a text to another. -/
inductive Reads : Source → List Token → Source → Prop where
  | nil (src : Source) : Reads src [] src
  | cons {src src' src'' : Source} {t : Token} {ts : List Token}
    (first : next? src = .ok (some t) src') (later : Reads src' ts src'') :
    Reads src (t :: ts) src''

namespace Reads

theorem one (found : next? src = .ok (some t) src') : Reads src [t] src' := .cons found (.nil src')

theorem skipBlanks (reads : Reads src (t :: ts) src') : Reads src.skipBlanks (t :: ts) src' := by
  cases reads with
  | cons found later => exact .cons ((next?_skipBlanks src).trans found) later

theorem append (first : Reads src ts src') (second : Reads src' us src'') :
    Reads src (ts ++ us) src'' := by
  induction first with
  | nil => exact second
  | cons found _ ih => exact .cons found (ih second)

theorem split (reads : Reads src (ts ++ us) src'') :
    ∃ src', Reads src ts src' ∧ Reads src' us src'' := by
  induction ts generalizing src with
  | nil => exact ⟨src, .nil src, reads⟩
  | cons t ts ih =>
    cases reads with
    | cons found later =>
      obtain ⟨src', first, second⟩ := ih later
      exact ⟨src', .cons found first, second⟩

theorem passes (reads : Reads src ts src') : ∃ cs, src.Passes cs src' := by
  induction reads with
  | nil src => exact ⟨[], .refl src⟩
  | cons found _ ih =>
    obtain ⟨cs, first⟩ := next?_passes found
    obtain ⟨ds, later⟩ := ih
    exact ⟨cs ++ ds, first.trans later⟩

theorem length_le (reads : Reads src ts src') :
    src'.unread.length + ts.length ≤ src.unread.length := by
  induction reads with
  | nil => simp
  | cons found _ ih =>
    have shorter := length_lt_of_next? found
    rw [List.length_cons]
    omega

/-- A loop that is bounded by the length of the text can go on behind a token. -/
theorem exists_bound {bound : List Char} (reads : Reads src (t :: ts) src')
    (enough : src.unread.length ≤ bound.length) :
    ∃ c rest, bound = c :: rest ∧ src'.unread.length ≤ rest.length := by
  have shorter := reads.length_le
  rw [List.length_cons] at shorter
  cases bound with
  | nil =>
    rw [List.length_nil] at enough
    omega
  | cons c rest =>
    rw [List.length_cons] at enough
    exact ⟨c, rest, rfl, by omega⟩

theorem no_comma_name (reads : Reads src ts src') : .ident "," ∉ ts := by
  induction reads with
  | nil => simp
  | cons found _ ih =>
    rw [List.mem_cons, not_or]
    exact ⟨fun same => ne_of_next?_ident (same ▸ found) rfl, ih⟩

theorem extend {o p : Nat} (reads : Reads ⟨o, cs⟩ ts ⟨p, rest⟩) (delimited : Delimited more)
    (o' : Nat) : ∃ p', Reads ⟨o', cs ++ more⟩ ts ⟨p', rest ++ more⟩ := by
  generalize start : (⟨o, cs⟩ : Source) = src at reads
  generalize stop : (⟨p, rest⟩ : Source) = src' at reads
  induction reads generalizing o cs o' with
  | nil =>
    cases start
    cases stop
    exact ⟨o', .nil _⟩
  | @cons _ mid _ t ts found _ ih =>
    cases start
    obtain ⟨q, left⟩ := mid
    obtain ⟨q', first⟩ := next?_append found delimited o'
    obtain ⟨p', later⟩ := ih q' rfl stop
    exact ⟨p', .cons first later⟩

end Reads

/-- A text consists of these tokens. -/
def Lexes (cs : List Char) (ts : List Token) : Prop :=
  ∃ src, Reads ⟨0, cs⟩ ts src ∧ src.atEnd = true

end Token

end SecdLisp
