import SecdLisp.Proofs.Text.Balance
import SecdLisp.Proofs.Text.Grammar
import SecdLisp.Proofs.Text.Lines
import SecdLisp.Shell.Repl

/-!
# Lines that are submitted together

The shell submits what was typed at the first end of a line where no list is open. Where the lines
make up a text that the reader accepts, and no line ends in a quotation mark outside of all lists,
every such place is between two forms. So the lines fall into chunks of whole forms.
-/

namespace SecdLisp

/-- The lines with line breaks between them. -/
def joinLines (ls : List String) : String := "\n".intercalate ls

theorem joinLines_append {xs ys : List String} (some : xs ≠ []) (some' : ys ≠ []) :
    (joinLines (xs ++ ys)).toList = (joinLines xs).toList ++ '\n' :: (joinLines ys).toList := by
  rw [joinLines, String.intercalate_append_of_ne_nil some some']
  simp [joinLines]

theorem mem_joinLines {c : Char} {ls : List String} (mem : c ∈ (joinLines ls).toList) :
    c = '\n' ∨ ∃ l ∈ ls, c ∈ l.toList := by
  induction ls with
  | nil => cases mem
  | cons l ls ih =>
    by_cases none : ls = []
    · subst none
      exact .inr ⟨l, by simp, by simpa [joinLines] using mem⟩
    · rw [← List.singleton_append, joinLines_append (by simp) none, List.mem_append,
        List.mem_cons] at mem
      obtain here | here | here := mem
      · exact .inr ⟨l, by simp, by simpa [joinLines] using here⟩
      · exact .inl here
      · refine (ih here).imp_right fun found => ?_
        obtain ⟨l', among, inside⟩ := found
        exact ⟨l', List.mem_cons_of_mem _ among, inside⟩

theorem mem_joinLines_of_mem {c : Char} {l : String} {ls : List String} (among : l ∈ ls)
    (inside : c ∈ l.toList) : c ∈ (joinLines ls).toList := by
  induction ls with
  | nil => cases among
  | cons l' ls ih =>
    by_cases none : ls = []
    · subst none
      obtain rfl := List.mem_singleton.mp among
      simpa [joinLines] using inside
    · rw [← List.singleton_append, joinLines_append (by simp) none, List.mem_append, List.mem_cons]
      obtain rfl | later := List.mem_cons.mp among
      · exact .inl (by simpa [joinLines] using inside)
      · exact .inr (.inr (ih later))

theorem openParens_newline (d : Int) (comment : Bool) (cs ds : List Char) :
    openParens d comment (cs ++ '\n' :: ds) = openParens (openParens d comment cs) false ds := by
  induction cs generalizing d comment with
  | nil => rfl
  | cons c cs ih =>
    simp only [List.cons_append, openParens]
    split_ifs <;> exact ih _ _

theorem Phrase.eq_nil_of_lexes_nil {ps : List Phrase} (lexes : Token.Lexes [] (tokensAll ps)) :
    ps = [] := by
  have none : tokensAll ps = [] := lexes.unique ⟨_, .nil _, rfl⟩
  cases ps with
  | nil => rfl
  | cons p ps =>
    obtain ⟨t, ts, spelled, -, -⟩ := Reading.exists_tokens_eq_cons p
    rw [tokensAll, spelled] at none
    cases none

namespace Repl

open Token (Lexes Dangles balance)
open Phrase (tokensAll)

variable {pending lines rest : List String} {l : String} {ps : List Phrase} {ts : List Token}

/-- How many lists are open at the end of the lines. -/
def depth (ls : List String) : Int := openParens 0 false (joinLines ls).toList

/-- Lines that the shell submits together: the first one is no command, and the last one is the
first at whose end no list is open. -/
structure IsChunk (ls : List String) : Prop where
  nonempty : ls ≠ []
  noCommand : ∀ l ∈ ls.head?, (trimStart l.toList).head? ≠ some ':'
  pending : ∀ front back, ls = front ++ back → front ≠ [] → back ≠ [] → 0 < depth front
  complete : depth ls ≤ 0

/-- Outside of all lists, no line is a command and none ends where an expression has to come next.
There is no white space that the reader does not take for blanks. -/
structure Regular (lines : List String) : Prop where
  ascii : ∀ c ∈ (joinLines lines).toList, c.toNat < 128 ∧ c ≠ '\x0b'
  unbroken : ∀ front back ts, (joinLines lines).toList = front ++ '\n' :: back →
    openParens 0 false front = 0 → Lexes front ts → ¬Dangles ts
  noCommand : ∀ front l back, lines = front ++ l :: back → depth front = 0 →
    (trimStart l.toList).head? ≠ some ':'

theorem depth_append (some : pending ≠ []) (closed : depth pending = 0) (ls : List String) :
    depth (pending ++ ls) = depth ls := by
  by_cases none : ls = []
  · subst none
    rw [List.append_nil, closed]
    rfl
  · rw [depth, joinLines_append some none, openParens_newline]
    show openParens (depth pending) false _ = _
    rw [closed]
    rfl

theorem Regular.behind (regular : Regular (pending ++ rest)) (nonempty : pending ≠ [])
    (more : rest ≠ []) (closed : depth pending = 0)
    (lexes : Lexes (joinLines (pending ++ rest)).toList ts) : Regular rest where
  ascii c mem := by
    refine regular.ascii c ?_
    rw [joinLines_append nonempty more, List.mem_append, List.mem_cons]
    exact .inr (.inr mem)
  unbroken front back us parts outside lexes' dangles := by
    have text : (joinLines (pending ++ rest)).toList =
        ((joinLines pending).toList ++ '\n' :: front) ++ '\n' :: back := by
      rw [joinLines_append nonempty more, parts]
      simp
    have outside' : openParens 0 false ((joinLines pending).toList ++ '\n' :: front) = 0 := by
      rw [openParens_newline]
      show openParens (depth pending) false front = 0
      rwa [closed]
    rw [text] at lexes
    obtain ⟨_, _, -, before, -⟩ := lexes.newline
    obtain ⟨vs, _, rfl, -, last⟩ := before.newline
    obtain rfl := lexes'.unique last
    exact regular.unbroken _ back _ text outside' before (dangles.append vs)
  noCommand front l back parts outside :=
    regular.noCommand (pending ++ front) l back (by rw [parts, List.append_assoc])
      ((depth_append nonempty closed front).trans outside)

def Waits (pending : List String) : Prop :=
  ∀ front back, pending = front ++ back → front ≠ [] → 0 < depth front

theorem waits_nil : Waits [] := by
  intro front back parts nonempty
  exact absurd (List.append_eq_nil_iff.mp parts.symm).1 nonempty

theorem Waits.snoc (waits : Waits pending) (opened : 0 < depth (pending ++ [l])) :
    Waits (pending ++ [l]) := by
  intro front back parts nonempty
  obtain rfl | ⟨back, last, rfl⟩ := List.eq_nil_or_concat' back
  · rwa [← List.append_nil front, ← parts]
  · rw [← List.append_assoc] at parts
    exact waits front back (List.append_inj' parts rfl).1 nonempty

/-- The line that closes all lists completes a chunk. -/
theorem Waits.isChunk (waits : Waits pending) (closed : depth (pending ++ [l]) ≤ 0)
    (noCommand : ∀ l' ∈ (pending ++ [l]).head?, (trimStart l'.toList).head? ≠ some ':') :
    IsChunk (pending ++ [l]) where
  nonempty := by simp
  noCommand := noCommand
  pending front back parts nonempty more := by
    obtain rfl | ⟨back, last, rfl⟩ := List.eq_nil_or_concat' back
    · exact absurd rfl more
    · rw [← List.append_assoc] at parts
      exact waits front back (List.append_inj' parts rfl).1 nonempty
  complete := closed

theorem Regular.noCommand_head (regular : Regular (pending ++ l :: rest)) :
    ∀ l' ∈ (pending ++ [l]).head?, (trimStart l'.toList).head? ≠ some ':' := by
  intro l' first
  cases pending with
  | nil =>
    obtain rfl : l = l' := Option.some.inj first
    exact regular.noCommand [] l rest rfl rfl
  | cons h pending =>
    obtain rfl : h = l' := Option.some.inj first
    exact regular.noCommand [] h (pending ++ l :: rest) rfl rfl

theorem exists_chunks_from (regular : Regular (pending ++ rest))
    (lexes : Lexes (joinLines (pending ++ rest)).toList (tokensAll ps)) (waits : Waits pending) :
    ∃ chunks : List (List String × List Phrase),
      (chunks.map Prod.fst).flatten = pending ++ rest ∧ (chunks.map Prod.snd).flatten = ps ∧
      ∀ c ∈ chunks, IsChunk c.1 ∧ Lexes (joinLines c.1).toList (tokensAll c.2) := by
  induction rest generalizing pending ps with
  | nil =>
    rw [List.append_nil] at lexes
    have closed : depth pending = 0 := by
      rw [depth, lexes.openParens_eq, Phrase.balance_tokensAll]
    obtain rfl : pending = [] := by
      by_contra nonempty
      have waits := waits pending [] (List.append_nil _).symm nonempty
      omega
    obtain rfl := Phrase.eq_nil_of_lexes_nil lexes
    exact ⟨[], rfl, rfl, by simp⟩
  | cons l rest ih =>
    have regroup : pending ++ l :: rest = pending ++ [l] ++ rest := List.append_cons ..
    have noCommand := regular.noCommand_head
    rw [regroup] at regular lexes ⊢
    have nonempty : pending ++ [l] ≠ [] := by simp
    by_cases opened : 0 < depth (pending ++ [l])
    · exact ih regular lexes (waits.snoc opened)
    have chunk := waits.isChunk (by omega) noCommand
    by_cases none : rest = []
    · subst none
      rw [List.append_nil] at lexes ⊢
      exact ⟨[(pending ++ [l], ps)], by simp, by simp, by simpa using ⟨chunk, lexes⟩⟩
    -- The line break behind the chunk is between two phrases.
    have whole := lexes
    rw [joinLines_append nonempty none] at lexes
    obtain ⟨front, back, parts, first, later⟩ := lexes.newline
    obtain ⟨nonneg, edge⟩ := Phrase.cut_phrases parts
    have count : depth (pending ++ [l]) = balance front := first.openParens_eq
    have closed : depth (pending ++ [l]) = 0 := by omega
    have dangles := regular.unbroken _ _ front (joinLines_append nonempty none) closed first
    obtain ⟨ps₁, ps₂, rfl, rfl, rfl⟩ := edge (by omega) dangles
    have regular' : Regular ([] ++ rest) := regular.behind nonempty none closed whole
    obtain ⟨chunks, lines, phrases, all⟩ := ih regular' later waits_nil
    refine ⟨(pending ++ [l], ps₁) :: chunks, ?_, ?_, List.forall_mem_cons.mpr ⟨⟨chunk, first⟩, all⟩⟩
    · rw [List.map_cons, List.flatten_cons, lines, List.nil_append]
    · rw [List.map_cons, List.flatten_cons, phrases]

/-- Regular lines that make up a text of whole forms fall into chunks of whole forms. -/
theorem exists_chunks (regular : Regular lines)
    (lexes : Lexes (joinLines lines).toList (tokensAll ps)) :
    ∃ chunks : List (List String × List Phrase),
      (chunks.map Prod.fst).flatten = lines ∧ (chunks.map Prod.snd).flatten = ps ∧
      ∀ c ∈ chunks, IsChunk c.1 ∧ Lexes (joinLines c.1).toList (tokensAll c.2) :=
  have regular : Regular ([] ++ lines) := regular
  exists_chunks_from regular lexes waits_nil

end Repl

end SecdLisp
