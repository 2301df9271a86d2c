import SecdLisp.Proofs.Shell.Chunks
import SecdLisp.Proofs.Shell.Transcript
import SecdLisp.Shell.CommandLine

/-!
# Typing a text and piping it

The shell evaluates what is typed chunk by chunk. So a text that is typed line by line has the same
effect as the same text at once: its forms are evaluated in the same order, they write the same and
leave the same session.
-/

namespace SecdLisp

namespace Repl

open Host Desk Session
open Reading (Fits Grammatical maxNesting)
open Phrase (tokensAll)

variable {front : List String} {l : String} {chunks : List (List String)}

/-- The prompts before the lines of a chunk. -/
def prompts : List String → List String
  | [] => []
  | _ :: ls => "> " :: ls.map fun _ => "  "

/-- The text that lines are submitted as. -/
def submitted (ls : List String) : String := String.ofList (trim (joinLines ls).toList)

section Talk

variable {m : Type → Type} [Monad m] [Host m]

/-- Submit lines, unless there is nothing on them. -/
def submit (manner : Manner) (ls : List String) (s : Session) : m Session :=
  if (submitted ls).isEmpty then return s
  else return (← Shell.evalAndPrint manner (submitted ls) s).2

/-- Prompt for the lines of each chunk and then submit them. At the end there are no more lines. -/
def talk (manner : Manner) : List (List String) → Session → m Session
  | [], s => do
    put "> "
    return s
  | c :: cs, s => do
    forM (prompts c) put
    talk manner cs (← submit manner c s)

end Talk

def Typed (front : List String) : Prop := front ≠ [] → 0 < depth front

theorem isEmpty_joinLines (typed : Typed front) : (joinLines front).isEmpty = front.isEmpty := by
  cases front with
  | nil => rfl
  | cons h front =>
    have opened := typed (by simp)
    refine Bool.eq_false_iff.mpr fun empty => ?_
    rw [depth, String.isEmpty_iff.mp empty] at opened
    exact absurd opened (by decide)

theorem joinLines_snoc (typed : Typed front) (l : String) :
    (if (joinLines front).isEmpty then l else joinLines front ++ "\n" ++ l) =
      joinLines (front ++ [l]) := by
  rw [isEmpty_joinLines typed]
  cases front with
  | nil => simp [joinLines]
  | cons h front =>
    rw [joinLines, joinLines, String.intercalate_append_of_ne_nil (by simp) (by simp)]
    simp

theorem prompts_snoc (front : List String) (l : String) :
    prompts (front ++ [l]) = prompts front ++ [if front.isEmpty then "> " else "  "] := by
  cases front <;> simp [prompts]

section Lawful

variable {m : Type → Type} [Monad m] [LawfulMonad m] [Host m]

theorem feed_eq (manner : Manner) (s : Session) (typed : Typed front)
    (noCommand : front = [] → (trimStart l.toList).head? ≠ some ':') :
    feed (m := m) manner l ⟨s, joinLines front⟩ =
      if 0 < depth (front ++ [l]) then return (true, ⟨s, joinLines (front ++ [l])⟩)
      else do return (true, ⟨← submit manner (front ++ [l]) s, ""⟩) := by
  have ordinary : ((joinLines front).isEmpty &&
      (trimStart l.toList).head? == some ':') = false := by
    rw [isEmpty_joinLines typed]
    cases front with
    | nil => simpa using noCommand rfl
    | cons h front => rfl
  have balanced : isBalanced (joinLines (front ++ [l])) = !decide (0 < depth (front ++ [l])) := by
    rw [isBalanced, depth]
    simp [← decide_not]
  unfold feed
  simp only [ordinary, Bool.false_eq_true, if_false, joinLines_snoc typed, balanced]
  by_cases opened : 0 < depth (front ++ [l])
  · simp [opened]
  · rw [submit, submitted, if_neg opened, decide_eq_false opened]
    simp only [Bool.not_false, Bool.not_true, Bool.false_eq_true, if_false]
    split <;> simp

/-- In the middle of a chunk, the shell goes on to the end of the chunk and submits it. -/
theorem converse_within (manner : Manner) (s : Session) (more : List Bytes) {back : List String}
    (some : back ≠ []) (chunk : IsChunk (front ++ back)) :
    (do forM (prompts front) put
        converse (m := m) manner (back.map Utf8.encode ++ more) ⟨s, joinLines front⟩) =
      (do forM (prompts (front ++ back)) put
          converse manner more ⟨← submit manner (front ++ back) s, ""⟩) := by
  induction back generalizing front with
  | nil => exact absurd rfl some
  | cons l back ih =>
    have typed : Typed front := fun nonempty => chunk.pending front (l :: back) rfl nonempty some
    have noCommand : front = [] → (trimStart l.toList).head? ≠ .some ':' := by
      rintro rfl
      exact chunk.noCommand l rfl
    have shown : Repl.prompt ⟨s, joinLines front⟩ = if front.isEmpty then "> " else "  " := by
      rw [prompt, isEmpty_joinLines typed]
    rw [List.append_cons] at chunk ⊢
    rw [List.map_cons, List.cons_append, converse, feedBytes, Utf8.decode_encode, shown]
    dsimp only
    rw [feed_eq manner s typed noCommand]
    by_cases last : back = []
    -- At its last line the chunk is submitted, before that the shell waits for more.
    · subst last
      rw [List.append_nil] at chunk ⊢
      rw [if_neg (not_lt.mpr chunk.complete)]
      simp [prompts_snoc]
    · have opened := chunk.pending (front ++ [l]) back rfl (by simp) last
      rw [if_pos opened, ← ih last chunk]
      simp [prompts_snoc]

theorem converse_chunks (manner : Manner) (isChunk : ∀ c ∈ chunks, IsChunk c) (s : Session) :
    converse (m := m) manner (chunks.flatten.map Utf8.encode) ⟨s, ""⟩ =
      return ⟨← talk manner chunks s, ""⟩ := by
  induction chunks generalizing s with
  | nil => simp [converse, talk, prompt]
  | cons c cs ih =>
    rw [List.forall_mem_cons] at isChunk
    have chunk : IsChunk ([] ++ c) := isChunk.1
    have first := converse_within (m := m) manner s (cs.flatten.map Utf8.encode)
      isChunk.1.nonempty chunk
    have none : prompts [] = [] := rfl
    rw [none, List.forM_nil, pure_bind] at first
    rw [List.flatten_cons, List.map_append, talk]
    refine first.trans ?_
    simp only [List.nil_append, ih isChunk.2, bind_assoc]

/-- The shell prompts for the lines of each chunk and evaluates the chunk at its end. -/
theorem run_chunks (manner : Manner) (isChunk : ∀ c ∈ chunks, IsChunk c) (s : Session) :
    run (m := m) manner (chunks.flatten.map Utf8.encode) s =
      (do put banner
          talk manner chunks s) := by
  simp only [run, converse_chunks manner isChunk, bind_assoc, pure_bind, bind_pure]

end Lawful

end Repl

end SecdLisp
