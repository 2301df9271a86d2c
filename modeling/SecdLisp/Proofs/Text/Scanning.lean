import Mathlib.Tactic.SplitIfs
import SecdLisp.Proofs.Text.Tokens
import SecdLisp.Text.Utf8

/-!
# Scanning bytes

Blanks, comments and words can be told apart on the bytes of a text alone, since every character
that matters has one byte and no other character has such a byte in it. So a scan over bytes finds
what a scan over characters finds, and what it cuts out is always text.
-/

namespace SecdLisp

namespace Scanning

def isBlankByte (b : UInt8) : Bool := b < 128 && isBlank (Char.ofNat b.toNat)

def isDelimiterByte (b : UInt8) : Bool := b < 128 && Token.isDelimiter (Char.ofNat b.toNat)

def skip (comment : Bool) : Bytes → Bytes
  | [] => []
  | b :: bs =>
    if comment then skip (b != 10) bs
    else if isBlankByte b then skip false bs
    else if b = 59 then skip true bs
    else b :: bs

def word (bs : Bytes) : Bytes := bs.takeWhile (!isDelimiterByte ·)

def bytesOf (cs : List Char) : Bytes := cs.flatMap String.utf8EncodeChar

theorem encode_ofList (cs : List Char) : Utf8.encode (String.ofList cs) = bytesOf cs := by
  simp [Utf8.encode, bytesOf, List.utf8Encode]

theorem bytesOf_cons (c : Char) (cs : List Char) :
    bytesOf (c :: cs) = String.utf8EncodeChar c ++ bytesOf cs := rfl

theorem le_or_of_le {x y : UInt8} (high : 128 ≤ y) : 128 ≤ x ||| y := by
  rw [UInt8.le_iff_toNat_le] at high ⊢
  rw [UInt8.toNat_or]
  exact Nat.le_trans high Nat.right_le_or

/-- A character has one byte, or it has no byte that is a character of its own. -/
theorem utf8EncodeChar_cases (c : Char) :
    (∃ b : UInt8, b < 128 ∧ b.toNat = c.toNat ∧ String.utf8EncodeChar c = [b]) ∨
      128 ≤ c.toNat ∧ ∃ b bs, String.utf8EncodeChar c = b :: bs ∧ ∀ d ∈ b :: bs, 128 ≤ d := by
  by_cases one : c.utf8Size = 1
  · left
    have small := Char.utf8Size_eq_one_iff.mp one
    rw [UInt32.le_iff_toNat_le] at small
    have small : c.val.toNat ≤ 127 := small
    have same : c.val.toUInt8.toNat = c.toNat := by
      rw [UInt32.toNat_toUInt8, Nat.mod_eq_of_lt (by omega)]
      rfl
    refine ⟨c.val.toUInt8, ?_, same, String.utf8EncodeChar_eq_singleton one⟩
    rw [UInt8.lt_iff_toNat_lt, same]
    show c.val.toNat < 128
    omega
  · right
    have large : 128 ≤ c.toNat := by
      rw [Char.utf8Size_eq_one_iff, UInt32.le_iff_toNat_le, Nat.not_le] at one
      exact one
    have pos := c.utf8Size_pos
    have le := c.utf8Size_le_four
    refine ⟨large, ?_⟩
    have sizes : c.utf8Size = 2 ∨ c.utf8Size = 3 ∨ c.utf8Size = 4 := by omega
    rcases sizes with two | three | four
    · refine ⟨_, _, String.utf8EncodeChar_eq_cons_cons two, ?_⟩
      simp only [List.forall_mem_cons]
      exact ⟨le_or_of_le (by decide), le_or_of_le (by decide), nofun⟩
    · refine ⟨_, _, String.utf8EncodeChar_eq_cons_cons_cons three, ?_⟩
      simp only [List.forall_mem_cons]
      exact ⟨le_or_of_le (by decide), le_or_of_le (by decide), le_or_of_le (by decide), nofun⟩
    · refine ⟨_, _, String.utf8EncodeChar_eq_cons_cons_cons_cons four, ?_⟩
      simp only [List.forall_mem_cons]
      exact ⟨le_or_of_le (by decide), le_or_of_le (by decide), le_or_of_le (by decide),
        le_or_of_le (by decide), nofun⟩

theorem isDelimiter_of_large {c : Char} (large : 128 ≤ c.toNat) : Token.isDelimiter c = false := by
  have other {d : Char} (small : d.toNat < 128) : c ≠ d := by
    rintro rfl
    omega
  have plain : Token.punctuation? c = none := by
    unfold Token.punctuation?
    split
    all_goals first | rfl | exact absurd large (by decide)
  simp only [Token.isDelimiter, isBlank, plain, Option.isSome_none, Bool.or_false,
    Bool.or_eq_false_iff, decide_eq_false_iff_not]
  exact ⟨⟨⟨⟨⟨other (by decide), other (by decide)⟩, other (by decide)⟩, other (by decide)⟩,
    other (by decide)⟩, other (by decide)⟩

theorem isDelimiterByte_of_large {b : UInt8} (large : 128 ≤ b) : isDelimiterByte b = false := by
  rw [isDelimiterByte, Bool.and_eq_false_iff, decide_eq_false_iff_not, UInt8.not_lt]
  exact .inl large

theorem isDelimiterByte_of_small {b : UInt8} {c : Char} (small : b < 128)
    (same : b.toNat = c.toNat) : isDelimiterByte b = Token.isDelimiter c := by
  rw [isDelimiterByte, decide_eq_true small, Bool.true_and, same, Char.ofNat_toNat]

theorem eq_iff_of_toNat {b d : UInt8} {c e : Char} (same : b.toNat = c.toNat)
    (same' : d.toNat = e.toNat) : b = d ↔ c = e := by
  rw [← UInt8.toNat_inj, same, same', Char.toNat_inj]

/-- The run of bytes up to a delimiter is the run of characters up to a delimiter. -/
theorem word_bytesOf (cs : List Char) :
    word (bytesOf cs) = bytesOf (cs.takeWhile (!Token.isDelimiter ·)) := by
  induction cs with
  | nil => rfl
  | cons c cs ih =>
    unfold word at ih
    rw [bytesOf_cons, word, List.takeWhile_cons]
    rcases utf8EncodeChar_cases c with ⟨b, small, same, bytes⟩ | ⟨large, b, bs, bytes, all⟩
    · rw [bytes, List.singleton_append, List.takeWhile_cons, isDelimiterByte_of_small small same, ih]
      cases Token.isDelimiter c with
      | true => rfl
      | false => simp [bytesOf_cons, bytes]
    · have inside : ∀ d ∈ b :: bs, (!isDelimiterByte d) = true := by
        intro d mem
        rw [isDelimiterByte_of_large (all d mem)]
        rfl
      rw [bytes, List.takeWhile_append_of_pos inside, ih, isDelimiter_of_large large]
      simp [bytesOf_cons, bytes]

theorem skip_true_append {bs : Bytes} (large : ∀ b ∈ bs, 128 ≤ b) (rest : Bytes) :
    skip true (bs ++ rest) = skip true rest := by
  induction bs with
  | nil => rfl
  | cons b bs ih =>
    rw [List.forall_mem_cons] at large
    have other : (b != 10) = true := by
      rw [bne_iff_ne]
      rintro rfl
      exact absurd large.1 (by decide)
    rw [List.cons_append, skip, if_pos rfl, other]
    exact ih large.2

/-- Blanks and comments end at the same place. -/
theorem skip_bytesOf (comment : Bool) (o : Nat) (cs : List Char) :
    skip comment (bytesOf cs) = bytesOf (Source.skipFrom comment o cs).unread := by
  induction cs generalizing comment o with
  | nil => rfl
  | cons c cs ih =>
    rw [bytesOf_cons, Source.skipFrom]
    rcases utf8EncodeChar_cases c with ⟨b, small, same, bytes⟩ | ⟨large, b, bs, bytes, all⟩
    · have newline : (b != 10) = (c != '\n') := by
        rw [Bool.eq_iff_iff, bne_iff_ne, bne_iff_ne, Ne,
          eq_iff_of_toNat (e := '\n') same rfl]
      have semicolon : b = 59 ↔ c = ';' := eq_iff_of_toNat same rfl
      rw [bytes, List.singleton_append, skip, newline, isBlankByte, decide_eq_true small,
        Bool.true_and, same, Char.ofNat_toNat]
      simp only [semicolon]
      split_ifs
      · exact ih _ _
      · exact ih _ _
      · exact ih _ _
      · rw [bytesOf_cons, bytes]
        rfl
    · obtain ⟨blank, -, semicolon⟩ := Token.isDelimiter_eq_false.mp (isDelimiter_of_large large)
      have newline : (c != '\n') = true := by
        rw [bne_iff_ne]
        rintro rfl
        exact absurd large (by decide)
      have first := all b (by simp)
      have notBlank : isBlankByte b = false := by
        rw [isBlankByte, Bool.and_eq_false_iff, decide_eq_false_iff_not, UInt8.not_lt]
        exact .inl first
      have notSemicolon : b ≠ 59 := by
        rintro rfl
        exact absurd first (by decide)
      cases comment with
      | true =>
        rw [bytes, skip_true_append all, if_pos rfl, newline]
        exact ih true _
      | false =>
        rw [bytes, List.cons_append, skip, notBlank, blank, if_neg notSemicolon, if_neg semicolon]
        simp [bytesOf_cons, bytes]

/-- What a scan over bytes takes for a word is text, and it is the word that a scan over characters
finds. -/
theorem decode_word (s : String) : Utf8.decode (word (skip false (Utf8.encode s))) =
    .ok (String.ofList ((Source.ofString s).skipBlanks.unread.takeWhile
      (!Token.isDelimiter ·))) := by
  have spelled : Utf8.encode s = bytesOf s.toList := by
    rw [← encode_ofList, String.ofList_toList]
  rw [spelled, skip_bytesOf false 0, word_bytesOf, ← encode_ofList]
  exact Utf8.decode_encode _

end Scanning

end SecdLisp
