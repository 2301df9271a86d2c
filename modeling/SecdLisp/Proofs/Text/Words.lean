import SecdLisp.Proofs.Text.Tokens

/-!
# Words

A word ends before a blank, a comment or a mark. Digits are characters of words, and a word that has
nothing else, except perhaps a minus sign in front, is a numeral.
-/

namespace SecdLisp

namespace Token

variable {w : List Char} {n : Int}

def delimiters : List Char :=
  [' ', '\t', '\n', '\x0c', '\r', '(', ')', '\x27', '\x60', ',', '@', ';']

theorem isDelimiter_iff {c : Char} : isDelimiter c = true ↔ c ∈ delimiters := by
  unfold isDelimiter isBlank punctuation? delimiters
  split <;> simp_all [or_assoc]

theorem isDelimiter_of_isDigit {c : Char} (digit : c.isDigit = true) : isDelimiter c = false := by
  rw [← Bool.not_eq_true, isDelimiter_iff]
  intro mem
  have none : delimiters.all (!·.isDigit) = true := by decide
  have ordinary := List.all_eq_true.mp none c mem
  rw [digit] at ordinary
  cases ordinary

theorem allDigits_iff {ds : List Char} :
    allDigits ds = true ↔ ds ≠ [] ∧ ∀ d ∈ ds, d.isDigit = true := by
  simp [allDigits]

theorem numeral?_eq_none_iff : numeral? w = none ↔
    ¬∃ ds, ds ≠ [] ∧ (∀ d ∈ ds, d.isDigit = true) ∧ (w = ds ∨ w = '-' :: ds) := by
  have minus : '-'.isDigit = false := by decide
  unfold numeral?
  split
  · next ds =>
    have same : (∃ es, es ≠ [] ∧ (∀ d ∈ es, d.isDigit = true) ∧
        ('-' :: ds = es ∨ '-' :: ds = '-' :: es)) ↔ allDigits ds = true := by
      rw [allDigits_iff]
      constructor
      · rintro ⟨es, some, digits, rfl | same⟩
        · simp [minus] at digits
        · cases same
          exact ⟨some, digits⟩
      · rintro ⟨some, digits⟩
        exact ⟨ds, some, digits, .inr rfl⟩
    rw [same]
    split <;> simp_all
  · next other =>
    have same : (∃ es, es ≠ [] ∧ (∀ d ∈ es, d.isDigit = true) ∧
        (w = es ∨ w = '-' :: es)) ↔ allDigits w = true := by
      rw [allDigits_iff]
      constructor
      · rintro ⟨es, some, digits, rfl | same⟩
        · exact ⟨some, digits⟩
        · exact absurd same (other es)
      · rintro ⟨some, digits⟩
        exact ⟨w, some, digits, .inl rfl⟩
    rw [same]
    split <;> simp_all

/-- A decimal numeral: digits, perhaps after a minus sign. -/
inductive Numeral : List Char → Int → Prop where
  | plain {ds : List Char} (some : ds ≠ []) (digits : ∀ d ∈ ds, d.isDigit = true) :
    Numeral ds (Nat.ofDigitChars 10 ds 0)
  | negative {ds : List Char} (some : ds ≠ []) (digits : ∀ d ∈ ds, d.isDigit = true) :
    Numeral ('-' :: ds) (-(Nat.ofDigitChars 10 ds 0))

theorem numeral_iff : Numeral w n ↔ numeral? w = some n := by
  have minus : '-'.isDigit = false := by decide
  constructor
  · rintro (⟨some, digits⟩ | ⟨some, digits⟩)
    · have first : ∀ ds, w ≠ '-' :: ds := by
        rintro ds rfl
        simp [minus] at digits
      rw [numeral?.eq_2 _ first, if_pos (allDigits_iff.mpr ⟨some, digits⟩)]
      rfl
    · rw [numeral?, if_pos (allDigits_iff.mpr ⟨some, digits⟩)]
      rfl
  · intro known
    unfold numeral? at known
    split at known
    · split at known
      next ds digits =>
        cases known
        obtain ⟨some, digits⟩ := allDigits_iff.mp digits
        exact .negative some digits
      next => cases known
    · split at known
      next digits =>
        cases known
        obtain ⟨some, digits⟩ := allDigits_iff.mp digits
        exact .plain some digits
      next => cases known

end Token

end SecdLisp
