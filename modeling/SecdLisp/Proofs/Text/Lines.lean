import SecdLisp.Proofs.Text.Tokens
import SecdLisp.Text.Whitespace

/-!
# Parts of a text

The tokens of a text are those before a delimiter and those behind it. So a text can be cut at the
end of a line, and white space at its ends can be left out, as long as the reader takes that for
blanks too.
-/

namespace SecdLisp

namespace Token

open Source

variable {src last mid : Source} {t : Token} {ts us : List Token} {cs ds rest more : List Char}
  {o : Nat}

theorem atEnd_congr (o o' : Nat) (cs : List Char) : atEnd ⟨o, cs⟩ = atEnd ⟨o', cs⟩ :=
  congrArg List.isEmpty (skipFrom_offset false o o' cs)

theorem atEnd_skipBlanks (src : Source) : src.skipBlanks.atEnd = src.atEnd := by
  rw [atEnd, skipBlanks_skipBlanks, atEnd]

theorem Reads.shift {p : Nat} (reads : Reads ⟨o, cs⟩ ts ⟨p, rest⟩) (o' : Nat) :
    ∃ p', Reads ⟨o', cs⟩ ts ⟨p', rest⟩ := by
  simpa using reads.extend delimited_nil o'

theorem exists_reads (src : Source) : ∃ ts last, Reads src ts last ∧
    (last.atEnd = true ∨ ∃ cause stop, next? last = .error cause stop) := by
  induction length : src.unread.length using Nat.strong_induction_on generalizing src with
  | h n ih =>
    subst length
    cases found : next? src with
    | error cause stop => exact ⟨[], src, .nil src, .inr ⟨cause, stop, found⟩⟩
    | ok t? src' =>
      cases t? with
      | none => exact ⟨[], src, .nil src, .inl (atEnd_of_next? found).1⟩
      | some t =>
        obtain ⟨ts, last, reads, ends⟩ := ih _ (length_lt_of_next? found) src' rfl
        exact ⟨t :: ts, last, .cons found reads, ends⟩

theorem Reads.behind (first : Reads src us mid) (whole : Reads src ts last)
    (done : last.atEnd = true) : ∃ vs, ts = us ++ vs ∧ Reads mid vs last := by
  induction first generalizing ts with
  | nil => exact ⟨ts, rfl, whole⟩
  | cons found _ ih =>
    cases whole with
    | nil =>
      rw [next?_of_atEnd done] at found
      cases found
    | cons found' whole =>
      rw [found] at found'
      cases found'
      obtain ⟨vs, rfl, later⟩ := ih whole
      exact ⟨vs, rfl, later⟩

theorem Lexes.unique (first : Lexes cs ts) (second : Lexes cs us) : ts = us := by
  obtain ⟨mid, first, done⟩ := first
  obtain ⟨last, second, done'⟩ := second
  obtain ⟨vs, rfl, rest⟩ := first.behind second done'
  cases rest with
  | nil => exact (List.append_nil ts).symm
  | cons found _ =>
    rw [next?_of_atEnd done] at found
    cases found

theorem Reads.no_error (reads : Reads src ts last) (done : last.atEnd = true) {cause : ParseError}
    {stop : Source} : next? src ≠ .error cause stop := by
  intro found
  cases reads with
  | nil =>
    rw [next?_of_atEnd done] at found
    cases found
  | cons found' _ =>
    rw [found] at found'
    cases found'

theorem Reads.past_blanks (reads : Reads src ts last) (done : last.atEnd = true) :
    ∃ last', Reads src.skipBlanks ts last' ∧ last'.atEnd = true := by
  cases reads with
  | nil => exact ⟨src.skipBlanks, .nil _, (atEnd_skipBlanks src).trans done⟩
  | cons found later => exact ⟨last, (Reads.cons found later).skipBlanks, done⟩

theorem lexes_of_reads (reads : Reads src ts last) (done : last.atEnd = true)
    (same : src.unread = (skipFrom false o cs).unread) : Lexes cs ts := by
  obtain ⟨q, left⟩ : ∃ q, skipBlanks ⟨0, cs⟩ = ⟨q, src.unread⟩ :=
    ⟨_, by rw [same, skipFrom_offset false o 0 cs]; rfl⟩
  cases reads with
  | nil =>
    refine ⟨_, .nil _, ?_⟩
    rw [← atEnd_skipBlanks, left]
    exact (atEnd_congr q src.offset src.unread).trans done
  | cons found later =>
    obtain ⟨p, shifted⟩ := (Reads.cons found later).shift q
    rw [← left] at shifted
    cases shifted with
    | cons found later =>
      have first := (next?_skipBlanks ⟨0, cs⟩).symm.trans found
      exact ⟨_, .cons first later, (atEnd_congr p last.offset last.unread).trans done⟩

/-- A text is cut before a delimiter. It may be in a comment there. -/
theorem Lexes.split (lexes : Lexes (cs ++ more) ts) (delimited : Delimited more) :
    ∃ front back comment o last, ts = front ++ back ∧ Lexes cs front ∧
      Reads (skipFrom comment o more) back last ∧ last.atEnd = true := by
  obtain ⟨last, whole, done⟩ := lexes
  obtain ⟨front, ⟨p, left⟩, reads, ends⟩ := exists_reads ⟨0, cs⟩
  obtain ⟨p', reads'⟩ := reads.extend delimited 0
  obtain ⟨back, rfl, later⟩ := reads'.behind whole done
  obtain done' | ⟨cause, ⟨q, stop⟩, found⟩ := ends
  · have nothing : (skipFrom false p' left).unread = [] :=
      (skipFrom_offset false p' p left).trans (List.isEmpty_iff.mp done')
    obtain ⟨comment, same⟩ := skipFrom_append_of_nil nothing more
    obtain ⟨last', later, done⟩ := later.past_blanks done
    rw [skipBlanks, same] at later
    exact ⟨front, back, comment, _, last', rfl, ⟨_, reads, done'⟩, later, done⟩
  · obtain ⟨q', found⟩ := next?_append_of_error found delimited p'
    exact (later.no_error done found).elim

theorem Lexes.newline (lexes : Lexes (cs ++ '\n' :: ds) ts) :
    ∃ front back, ts = front ++ back ∧ Lexes cs front ∧ Lexes ds back := by
  obtain ⟨front, back, comment, o, last, rfl, first, later, done⟩ :=
    lexes.split (delimited_cons (by decide))
  rw [skipFrom_newline] at later
  exact ⟨front, back, rfl, first, lexes_of_reads later done rfl⟩

theorem skipFrom_trimStart (blank : ∀ c ∈ cs, isWhitespace c = true → isBlank c = true) (o : Nat) :
    (skipFrom false o cs).unread = (skipFrom false o (trimStart cs)).unread := by
  induction cs generalizing o with
  | nil => rfl
  | cons c cs ih =>
    rw [List.forall_mem_cons] at blank
    rw [trimStart, List.dropWhile_cons]
    split
    · next white =>
      rw [skipFrom, if_neg Bool.false_ne_true, if_pos (blank.1 white), ih blank.2]
      exact skipFrom_offset _ _ _ _
    · rfl

theorem lexes_trimStart (lexes : Lexes cs ts)
    (blank : ∀ c ∈ cs, isWhitespace c = true → isBlank c = true) : Lexes (trimStart cs) ts := by
  obtain ⟨last, reads, done⟩ := lexes
  obtain ⟨last, reads, done⟩ := reads.past_blanks done
  exact lexes_of_reads reads done (skipFrom_trimStart blank 0)

theorem Lexes.of_append_blanks (lexes : Lexes (cs ++ more) ts)
    (blank : ∀ c ∈ more, isBlank c = true) : Lexes cs ts := by
  have delimited : Delimited more := by
    intro c first
    have blank := blank c (List.mem_of_mem_head? first)
    simp [isDelimiter, blank]
  obtain ⟨front, back, comment, o, last, rfl, first, later, -⟩ := lexes.split delimited
  have nothing := skipFrom_blanks blank comment o
  cases later with
  | nil => rwa [List.append_nil]
  | cons found _ =>
    have shorter := length_lt_of_next? found
    rw [nothing, List.length_nil] at shorter
    exact absurd shorter (Nat.not_lt_zero _)

theorem trimStart_eq_append (cs : List Char) : trimStart cs =
    trim cs ++ ((trimStart cs).reverse.takeWhile isWhitespace).reverse := by
  generalize same : trimStart cs = ds
  rw [trim, same, trimStart, ← List.reverse_append, List.takeWhile_append_dropWhile,
    List.reverse_reverse]

/-- The text without white space at its ends has the same tokens. -/
theorem lexes_trim (lexes : Lexes cs ts)
    (blank : ∀ c ∈ cs, isWhitespace c = true → isBlank c = true) : Lexes (trim cs) ts := by
  have start := lexes_trimStart lexes blank
  rw [trimStart_eq_append] at start
  refine start.of_append_blanks fun c mem => ?_
  rw [List.mem_reverse] at mem
  have inside : c ∈ trimStart cs := List.mem_reverse.mp ((List.takeWhile_sublist _).subset mem)
  exact blank c ((List.dropWhile_sublist _).subset inside) (List.mem_takeWhile_imp mem)

end Token

/-- Of the white space in ASCII, the reader takes all but the vertical tab for blanks. -/
theorem isBlank_of_isWhitespace {c : Char} (ascii : c.toNat < 128) (ordinary : c ≠ '\x0b')
    (white : isWhitespace c = true) : isBlank c = true := by
  have all : ∀ n < 128, isWhitespace (Char.ofNat n) = true →
      Char.ofNat n = '\x0b' ∨ isBlank (Char.ofNat n) = true := by decide
  rw [← Char.ofNat_toNat c] at ordinary white ⊢
  exact (all c.toNat ascii white).resolve_left ordinary

end SecdLisp
