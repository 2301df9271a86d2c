import SecdLisp.Proofs.Shell.Conversation
import SecdLisp.Proofs.Text.Unterminated

/-!
# When the shell waits for more

The shell waits while parentheses are open, which it counts without knowing tokens. It does not
wait once the reader takes what was typed, and as long as the reader misses the end of a list, it
submits nothing.
-/

namespace SecdLisp

open Reading (forms)

variable {text : String} {cs : List Char}

def isParen (c : Char) : Bool := c = '(' || c = ')'

/-- The count goes no further than there are parentheses, so it fits the bits that their number
does. -/
theorem natAbs_openParens_le (d : Int) (comment : Bool) (cs : List Char) :
    (openParens d comment cs - d).natAbs ≤ cs.countP isParen := by
  induction cs generalizing d comment with
  | nil => simp [openParens]
  | cons c cs ih =>
    have skip (comment : Bool) :
        (openParens d comment cs - d).natAbs ≤ (c :: cs).countP isParen :=
      (ih d comment).trans (List.sublist_cons_self c cs).countP_le
    rw [openParens]
    split
    · exact skip false
    split
    · exact skip true
    split
    · exact skip true
    split
    · next opening =>
      have rest := ih (d + 1) false
      rw [List.countP_cons_of_pos (by simp [isParen, opening])]
      omega
    split
    · next closing =>
      have rest := ih (d - 1) false
      rw [List.countP_cons_of_pos (by simp [isParen, closing])]
      omega
    · exact skip false

theorem openParens_white (white : ∀ c ∈ cs, isWhitespace c = true) (d : Int) (comment : Bool) :
    openParens d comment cs = d := by
  have none : cs.countP isParen = 0 := by
    refine List.countP_eq_zero.mpr fun c mem paren => ?_
    have white := white c mem
    simp only [isParen, Bool.or_eq_true, decide_eq_true_eq] at paren
    obtain rfl | rfl := paren <;> exact absurd white (by decide)
  have le := natAbs_openParens_le d comment cs
  omega

theorem openParens_append_white {more : List Char} (white : ∀ c ∈ more, isWhitespace c = true)
    (d : Int) (comment : Bool) (cs : List Char) :
    openParens d comment (cs ++ more) = openParens d comment cs := by
  induction cs generalizing d comment with
  | nil => exact openParens_white white d comment
  | cons c cs ih => simp only [List.cons_append, openParens, ih]

theorem openParens_trimStart (d : Int) (cs : List Char) :
    openParens d false (trimStart cs) = openParens d false cs := by
  induction cs with
  | nil => rfl
  | cons c cs ih =>
    rw [trimStart, List.dropWhile_cons]
    split
    · next white =>
      have other : c ≠ ';' ∧ c ≠ '(' ∧ c ≠ ')' := by
        refine ⟨?_, ?_, ?_⟩ <;> rintro rfl <;> exact absurd white (by decide)
      refine ih.trans ?_
      simp [openParens, other]
    · rfl

theorem openParens_trim (cs : List Char) : openParens 0 false (trim cs) = openParens 0 false cs := by
  rw [← openParens_trimStart 0 cs, Token.trimStart_eq_append]
  refine (openParens_append_white (fun c mem => ?_) 0 false _).symm
  exact List.mem_takeWhile_imp (List.mem_reverse.mp mem)

theorem isBalanced_iff : isBalanced text = true ↔ openParens 0 false text.toList ≤ 0 :=
  decide_eq_true_iff

namespace Reading

/-- The reader reads the text to its end. -/
def Accepts (text : String) : Prop :=
  ∃ h symbols vs r, forms ⟨.ofString text, h, symbols⟩ = .ok vs r

/-- The reader misses the end of a list. -/
def LacksEnd (text : String) : Prop :=
  ∃ h symbols r, forms ⟨.ofString text, h, symbols⟩ = .error (.parse .unterminatedList) r

theorem Accepts.openParens_eq (accepts : Accepts text) : openParens 0 false text.toList = 0 := by
  obtain ⟨h, symbols, vs, r, run⟩ := accepts
  exact (counts_forms (.ofString text) h symbols).of_eq_ok run

theorem LacksEnd.openParens_pos (lacks : LacksEnd text) : 0 < openParens 0 false text.toList := by
  obtain ⟨h, symbols, r, run⟩ := lacks
  exact (counts_forms (.ofString text) h symbols).of_eq_error run rfl

end Reading

namespace Repl

open Reading (Accepts LacksEnd)

variable {m : Type → Type} [Monad m] [Host m] {line : String} {r : Repl}

/-- What was typed, together with this line. -/
def textWith (r : Repl) (line : String) : String :=
  if r.pending.isEmpty then line else r.pending ++ "\n" ++ line

/-- No form is open, and the line starts with a colon. -/
def IsCommand (r : Repl) (line : String) : Prop :=
  r.pending.isEmpty = true ∧ (trimStart line.toList).head? = some ':'

/-- Evaluate what was typed, unless there is nothing on it, and start afresh. -/
def evaluate (manner : Manner) (text : String) (s : Session) : m (Bool × Repl) := do
  if (submitted [text]).isEmpty then return (true, ⟨s, ""⟩)
  let (_, s) ← Shell.evalAndPrint manner (submitted [text]) s
  return (true, ⟨s, ""⟩)

theorem openParens_submitted (text : String) :
    openParens 0 false (submitted [text]).toList = openParens 0 false text.toList := by
  rw [submitted, String.toList_ofList, openParens_trim]
  rfl

theorem feed_of_not_isCommand (manner : Manner) (plain : ¬r.IsCommand line) :
    feed (m := m) manner line r =
      if isBalanced (r.textWith line) then evaluate manner (r.textWith line) r.session
      else return (true, { r with pending := r.textWith line }) := by
  have ordinary : (r.pending.isEmpty && (trimStart line.toList).head? == some ':') = false := by
    rw [Bool.eq_false_iff]
    intro command
    rw [Bool.and_eq_true, beq_iff_eq] at command
    exact plain command
  have blank : submitted [r.textWith line] = String.ofList (trim (r.textWith line).toList) := rfl
  rw [feed, ordinary, if_neg Bool.false_ne_true, evaluate, blank]
  show (if !isBalanced (r.textWith line) then _ else _) = _
  cases isBalanced (r.textWith line)
  · rfl
  · rfl

/-- The count of the shell agrees with the reader on every text: it is at most zero where the reader
reads the text to its end, and then the reader misses no end of a list; and it is no larger than the
number of parentheses, in front of every character. So the shell evaluates what was typed as soon as
the reader reads it, and as long as the end of a list is missing it waits for the next line. -/
theorem isBalanced_agrees (manner : Manner) (text : String) :
    ((Accepts text → isBalanced text = true) ∧ (isBalanced text = true → ¬LacksEnd text)) ∧
    (∀ front, front <+: text.toList →
      (openParens 0 false front).natAbs ≤ text.toList.countP isParen) ∧
    ∀ line r, r.textWith line = text → ¬r.IsCommand line →
      (Accepts text ∨ Accepts (submitted [text]) →
        feed (m := m) manner line r = evaluate manner text r.session) ∧
      (LacksEnd text ∨ LacksEnd (submitted [text]) →
        feed (m := m) manner line r = return (true, { r with pending := text })) := by
  have balanced (accepts : Accepts text ∨ Accepts (submitted [text])) : isBalanced text = true := by
    rw [isBalanced_iff]
    obtain accepts | accepts := accepts
    · exact accepts.openParens_eq.le
    · exact openParens_submitted text ▸ accepts.openParens_eq.le
  have open_ (lacks : LacksEnd text ∨ LacksEnd (submitted [text])) : ¬isBalanced text = true := by
    rw [isBalanced_iff, not_le]
    obtain lacks | lacks := lacks
    · exact lacks.openParens_pos
    · exact openParens_submitted text ▸ lacks.openParens_pos
  refine ⟨⟨fun accepts => balanced (.inl accepts), fun closed lacks => open_ (.inl lacks) closed⟩,
    fun front part => ?_, ?_⟩
  · have count := natAbs_openParens_le 0 false front
    rw [Int.sub_zero] at count
    exact count.trans part.sublist.countP_le
  · rintro line r rfl plain
    rw [feed_of_not_isCommand manner plain]
    exact ⟨fun accepts => if_pos (balanced accepts), fun lacks => if_neg (open_ lacks)⟩

end Repl

end SecdLisp
