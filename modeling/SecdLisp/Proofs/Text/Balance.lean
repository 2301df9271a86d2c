import SecdLisp.Proofs.Text.Phrase
import SecdLisp.Proofs.Text.Tokens
import SecdLisp.Text.Balance

/-!
# Open lists

The shell counts parentheses character by character, the reader sees tokens. Both arrive at the same
number. Inside a phrase some list is open, unless no more than the quotations before its first list
or atom have been read; so phrases end where no list is open and no quotation waits for its
expression.
-/

namespace SecdLisp

namespace Token

/-- How many more lists are open after the token. -/
def depth : Token → Int
  | opening => 1
  | closing => -1
  | _ => 0

def balance : List Token → Int
  | [] => 0
  | t :: ts => t.depth + balance ts

/-- An expression must come next. -/
def IsMark (t : Token) : Prop := t = quote ∨ t = backquote ∨ t = comma

/-- The last token asks for an expression. -/
def Dangles (ts : List Token) : Prop := ∃ front t, ts = front ++ [t] ∧ t.IsMark

variable {t : Token} {ts us : List Token}

@[simp] theorem balance_nil : balance [] = 0 := rfl

@[simp] theorem balance_cons (t : Token) (ts : List Token) :
    balance (t :: ts) = t.depth + balance ts := rfl

@[simp] theorem balance_append (ts us : List Token) :
    balance (ts ++ us) = balance ts + balance us := by
  induction ts with
  | nil => simp
  | cons t ts ih => rw [List.cons_append, balance_cons, balance_cons, ih, Int.add_assoc]

theorem Dangles.append (dangles : Dangles us) (ts : List Token) : Dangles (ts ++ us) := by
  obtain ⟨front, t, rfl, mark⟩ := dangles
  exact ⟨ts ++ front, t, (List.append_assoc ..).symm, mark⟩

theorem IsMark.dangles (mark : t.IsMark) : Dangles [t] := ⟨[], t, rfl, mark⟩

section Characters

variable {cs w rest : List Char} {src src' : Source}

theorem openParens_skipFrom (d : Int) (comment : Bool) (o : Nat) (cs : List Char) :
    openParens d comment cs = openParens d false (Source.skipFrom comment o cs).unread := by
  induction cs generalizing comment o with
  | nil => rfl
  | cons c cs ih =>
    unfold Source.skipFrom
    split
    · next inside =>
      by_cases newline : c = '\n'
      · subst newline
        rw [openParens, if_pos rfl]
        exact ih false _
      · rw [openParens, if_neg newline, if_pos inside, ih true, bne_iff_ne.mpr newline]
    · next outside =>
      rw [Bool.not_eq_true] at outside
      subst outside
      split
      · next blank =>
        rw [← ih false]
        unfold isBlank at blank
        simp only [Bool.or_eq_true, decide_eq_true_eq] at blank
        obtain (((rfl | rfl) | rfl) | rfl) | rfl := blank <;> rfl
      · split
        · next semicolon =>
          subst semicolon
          exact ih true _
        · rfl

theorem openParens_word (d : Int) (word : ∀ c ∈ w, isDelimiter c = false) (rest : List Char) :
    openParens d false (w ++ rest) = openParens d false rest := by
  induction w with
  | nil => rfl
  | cons c w ih =>
    rw [List.forall_mem_cons] at word
    have other {d : Char} (delimiter : isDelimiter d = true) : c ≠ d := by
      rintro rfl
      rw [word.1] at delimiter
      cases delimiter
    rw [List.cons_append, openParens, if_neg (other (by decide)), if_neg Bool.false_ne_true,
      if_neg (other (by decide)), if_neg (other (by decide)), if_neg (other (by decide))]
    exact ih word.2

theorem openParens_punctuation {c : Char} (one : punctuation? c = some t) (d : Int)
    (cs : List Char) : openParens d false (c :: cs) = openParens (d + t.depth) false cs := by
  unfold punctuation? at one
  split at one <;> cases one <;> simp [openParens, depth, Int.sub_eq_add_neg]

theorem openParens_next? (found : next? src = .ok (some t) src') (d : Int) :
    openParens d false src.unread = openParens (d + t.depth) false src'.unread := by
  rw [openParens_skipFrom d false src.offset]
  show openParens d false src.skipBlanks.unread = _
  have finds := finds_next? src
  rw [found] at finds
  cases finds with
  | punctuation here one =>
    rw [here]
    exact openParens_punctuation one d _
  | @word o w rest t here word delimited means =>
    have flat : t.depth = 0 := by
      unfold ofWord at means
      split at means
      · split at means <;> cases means
        rfl
      · cases means
        rfl
    rw [here, flat, Int.add_zero]
    exact openParens_word d word.2 rest

theorem Reads.openParens_eq (reads : Reads src ts src') (d : Int) :
    openParens d false src.unread =
      openParens (d + balance ts) false src'.unread := by
  induction reads generalizing d with
  | nil => simp
  | cons found _ ih => rw [openParens_next? found, ih, balance_cons, Int.add_assoc]

/-- The characters of a text leave open as many lists as its tokens. -/
theorem Lexes.openParens_eq (lexes : Lexes cs ts) : openParens 0 false cs = balance ts := by
  obtain ⟨src, reads, done⟩ := lexes
  have last : src.skipBlanks.unread = [] := List.isEmpty_iff.mp done
  calc openParens 0 false cs
    _ = openParens (balance ts) false src.unread := by
      rw [← Int.zero_add (balance ts)]
      exact reads.openParens_eq 0
    _ = openParens (balance ts) false src.skipBlanks.unread :=
      openParens_skipFrom _ false src.offset src.unread
    _ = balance ts := by
      rw [last]
      rfl

end Characters

end Token

namespace Phrase

open Token (balance Dangles)

variable {p : Phrase} {ps : List Phrase} {ts us : List Token}

/-- Wherever the tokens are cut in two, no more lists are closed than were opened before; and where
none is open and no expression has to come next, nothing of them is on one of the sides. -/
def Holds (p : Phrase) : Prop :=
  ∀ ts us, p.tokens = ts ++ us → 0 ≤ balance ts ∧
    (balance ts = 0 → ¬Dangles ts → ts = [] ∨ us = [])

theorem balance_all (all : ∀ p ∈ ps, balance p.tokens = 0) : balance (tokensAll ps) = 0 := by
  induction ps with
  | nil => rfl
  | cons p ps ih =>
    rw [List.forall_mem_cons] at all
    rw [tokensAll, Token.balance_append, all.1, ih all.2, Int.zero_add]

@[simp] theorem balance_tokens (p : Phrase) : balance p.tokens = 0 := by
  induction p with
  | int n => rfl
  | word name => rfl
  | list items ih => simp [tokens, balance_all ih, Token.depth]
  | quote p ih => simpa [tokens, Token.depth] using ih
  | backquote p ih => simpa [tokens, Token.depth] using ih
  | unquote p ih => simpa [tokens, Token.depth] using ih

theorem balance_tokensAll (ps : List Phrase) : balance (tokensAll ps) = 0 :=
  balance_all fun p _ => balance_tokens p

theorem cut_all (holds : ∀ p ∈ ps, p.Holds) (cut : tokensAll ps = ts ++ us) :
    0 ≤ balance ts ∧ (balance ts = 0 → ¬Dangles ts →
      ∃ front back, ps = front ++ back ∧ ts = tokensAll front ∧ us = tokensAll back) := by
  induction ps generalizing ts with
  | nil =>
    obtain ⟨rfl, rfl⟩ := List.append_eq_nil_iff.mp cut.symm
    exact ⟨Int.le_refl 0, fun _ _ => ⟨[], [], rfl, rfl, rfl⟩⟩
  | cons p ps ih =>
    rw [List.forall_mem_cons] at holds
    rw [tokensAll] at cut
    obtain ⟨more, within, rfl⟩ | ⟨more, rfl, later⟩ := List.append_eq_append_iff.mp cut.symm
    -- The cut is in the first phrase.
    · obtain ⟨nonneg, edge⟩ := holds.1 ts more within
      refine ⟨nonneg, fun none open_ => ?_⟩
      obtain rfl | rfl := edge none open_
      · exact ⟨[], p :: ps, rfl, rfl, by rw [tokensAll, within, List.nil_append]⟩
      · refine ⟨[p], ps, rfl, ?_, List.nil_append _⟩
        rw [List.append_nil] at within
        rw [tokensAll, tokensAll, List.append_nil, within]
    -- The cut is behind it.
    · obtain ⟨nonneg, edge⟩ := ih holds.2 later
      rw [Token.balance_append, balance_tokens, Int.zero_add]
      refine ⟨nonneg, fun none open_ => ?_⟩
      obtain ⟨front, back, rfl, rfl, rfl⟩ := edge none fun dangles => open_ (dangles.append _)
      exact ⟨p :: front, back, rfl, by rw [tokensAll], rfl⟩

theorem holds_marked {t : Token} (mark : t.IsMark) (flat : t.depth = 0) (holds : p.Holds)
    (cut : t :: p.tokens = ts ++ us) :
    0 ≤ balance ts ∧ (balance ts = 0 → ¬Dangles ts → ts = [] ∨ us = []) := by
  obtain ⟨rfl, -⟩ | ⟨ts, rfl, later⟩ := List.cons_eq_append_iff.mp cut
  · exact ⟨Int.le_refl 0, fun _ _ => .inl rfl⟩
  · obtain ⟨nonneg, edge⟩ := holds ts us later
    rw [Token.balance_cons, flat, Int.zero_add]
    refine ⟨nonneg, fun none open_ => ?_⟩
    obtain rfl | rfl := edge none fun dangles => open_ (dangles.append [t])
    · exact (open_ mark.dangles).elim
    · exact .inr rfl

theorem holds (p : Phrase) : p.Holds := by
  intro ts us cut
  induction p generalizing ts us with
  | int n | word name =>
    rw [tokens] at cut
    obtain ⟨rfl, -⟩ | ⟨ts, rfl, later⟩ := List.cons_eq_append_iff.mp cut
    · exact ⟨Int.le_refl 0, fun _ _ => .inl rfl⟩
    · obtain ⟨rfl, rfl⟩ := List.append_eq_nil_iff.mp later.symm
      exact ⟨Int.le_refl 0, fun _ _ => .inr rfl⟩
  | list items ih =>
    rw [tokens] at cut
    obtain ⟨rfl, -⟩ | ⟨ts, rfl, later⟩ := List.cons_eq_append_iff.mp cut
    · exact ⟨Int.le_refl 0, fun _ _ => .inl rfl⟩
    have one : Token.opening.depth = 1 := rfl
    have none := balance_tokensAll items
    rw [Token.balance_cons]
    obtain ⟨more, within, -⟩ | ⟨more, rfl, last⟩ := List.append_eq_append_iff.mp later.symm
    -- The list is still open.
    · have nonneg := (cut_all (fun p mem => ih p mem) within).1
      exact ⟨by omega, fun none => absurd none (by omega)⟩
    · obtain ⟨rfl, -⟩ | ⟨more, rfl, behind⟩ := List.cons_eq_append_iff.mp last
      · rw [List.append_nil]
        exact ⟨by omega, fun none => absurd none (by omega)⟩
      · obtain ⟨rfl, rfl⟩ := List.append_eq_nil_iff.mp behind.symm
        rw [Token.balance_append, none]
        exact ⟨by decide, fun _ _ => .inr rfl⟩
  | quote p ih => exact holds_marked (.inl rfl) rfl (fun ts us => ih ts us) cut
  | backquote p ih => exact holds_marked (.inr (.inl rfl)) rfl (fun ts us => ih ts us) cut
  | unquote p ih => exact holds_marked (.inr (.inr rfl)) rfl (fun ts us => ih ts us) cut

/-- Between the tokens of phrases no more lists are closed than were opened before, and where none
is open and no expression has to come next, no phrase is cut in two. -/
theorem cut_phrases (cut : tokensAll ps = ts ++ us) :
    0 ≤ balance ts ∧ (balance ts = 0 → ¬Dangles ts →
      ∃ front back, ps = front ++ back ∧ ts = tokensAll front ∧ us = tokensAll back) :=
  cut_all (fun p _ => holds p) cut

end Phrase

end SecdLisp
