import SecdLisp.Proofs.Text.Sexp
import SecdLisp.Text.Token

/-!
# The grammar of forms

A phrase is a syntax tree as it is written: the abbreviations for quotations, templates and
unquoted expressions are still there. It stands for the tree that is left when they are spelled
out, inner templates before outer ones.
-/

namespace SecdLisp

namespace Sexp

/-- What an unquoted expression inside a template is marked with. No text spells it as a name. -/
def mark : Sexp := .name ","

def payload : Sexp → Sexp
  | .cons s _ => s
  | s => s

mutual

/-- The expression that builds what a template describes: an atom is quoted, an unquoted
expression stands for itself, and a list becomes a chain of `cons` that ends in nil. -/
def expand : Sexp → Sexp
  | .cons a b => if a = mark then payload b else list [.name "cons", expand a, expandRest b]
  | s => list [.name "quote", s]

/-- The same for what follows an element of a list. -/
def expandRest : Sexp → Sexp
  | .cons a b => list [.name "cons", expand a, expandRest b]
  | _ => .nil

end

mutual

/-- How many pairs `expand` adds. -/
def expandCells : Sexp → Nat
  | .cons a b => if a = mark then 0 else restCells b + expandCells a + 3
  | _ => 2

def restCells : Sexp → Nat
  | .cons a b => restCells b + expandCells a + 3
  | _ => 0

end

/-- The mark stands only where it marks an expression. -/
inductive Formed : Sexp → Prop where
  | truth : Formed .truth
  | int (n : Int64) : Formed (.int n)
  | name {s : String} (ordinary : s ≠ ",") : Formed (.name s)
  | marked {s : Sexp} (formed : Formed s) : Formed (list [mark, s])
  | list {ss : List Sexp} (formed : ∀ s ∈ ss, Formed s) : Formed (Sexp.list ss)

theorem Formed.nil : Formed .nil :=
  have none : ∀ s ∈ ([] : List Sexp), Formed s := nofun
  .list none

theorem Formed.ne_mark {s : Sexp} (formed : Formed s) : s ≠ mark := by
  cases formed with
  | name ordinary => simpa [mark] using ordinary
  | @list ss _ => cases ss <;> simp [mark]
  | _ => simp [mark]

theorem expand_list {s : Sexp} {ss : List Sexp} (formed : Formed s) :
    expand (list (s :: ss)) = expandRest (list (s :: ss)) := by
  rw [list_cons, expand, if_neg formed.ne_mark, expandRest]

theorem expandCells_list {s : Sexp} {ss : List Sexp} (formed : Formed s) :
    expandCells (list (s :: ss)) = restCells (list (s :: ss)) := by
  rw [list_cons, expandCells, if_neg formed.ne_mark, restCells]

theorem formed_quoted {s : Sexp} (formed : Formed s) : Formed (list [.name "quote", s]) := by
  refine .list ?_
  simp only [List.forall_mem_cons]
  exact ⟨.name (by decide), formed, nofun⟩

theorem Formed.expand {s : Sexp} (formed : Formed s) : Formed s.expand := by
  induction formed with
  | truth => exact formed_quoted .truth
  | int n => exact formed_quoted (.int n)
  | name ordinary => exact formed_quoted (.name ordinary)
  | @marked s formed =>
    rw [list_cons, Sexp.expand, if_pos rfl]
    exact formed
  | @list ss formed ih =>
    have rest (ts : List Sexp) (formed : ∀ s ∈ ts, Formed s.expand) :
        Formed (expandRest (Sexp.list ts)) := by
      induction ts with
      | nil => exact .nil
      | cons t ts later =>
        rw [List.forall_mem_cons] at formed
        rw [list_cons, expandRest]
        refine .list ?_
        simp only [List.forall_mem_cons]
        exact ⟨.name (by decide), formed.1, later formed.2, nofun⟩
    cases ss with
    | nil => exact formed_quoted .nil
    | cons s ss =>
      rw [expand_list (formed s (by simp))]
      exact rest _ ih

end Sexp

inductive Phrase where
  | int (n : Int64)
  | word (name : String)
  | list (items : List Phrase)
  | quote (p : Phrase)
  | backquote (p : Phrase)
  | unquote (p : Phrase)
  deriving Inhabited

namespace Phrase

@[induction_eliminator]
theorem induct {motive : Phrase → Prop} (int : ∀ n, motive (.int n))
    (word : ∀ name, motive (.word name))
    (list : ∀ items, (∀ p ∈ items, motive p) → motive (.list items))
    (quote : ∀ p, motive p → motive (.quote p))
    (backquote : ∀ p, motive p → motive (.backquote p))
    (unquote : ∀ p, motive p → motive (.unquote p)) (p : Phrase) : motive p := by
  refine @Phrase.rec motive (fun items => ∀ p ∈ items, motive p) int word list quote
    backquote unquote (by simp) ?_ p
  intro p items first later
  exact List.forall_mem_cons.mpr ⟨first, later⟩

mutual

/-- The tokens that the phrase is written with. -/
def tokens : Phrase → List Token
  | .int n => [.int n]
  | .word name => [.ident name]
  | .list items => .opening :: (tokensAll items ++ [.closing])
  | .quote p => .quote :: tokens p
  | .backquote p => .backquote :: tokens p
  | .unquote p => .comma :: tokens p

def tokensAll : List Phrase → List Token
  | [] => []
  | p :: ps => tokens p ++ tokensAll ps

end

mutual

/-- How deep the phrase nests. -/
def height : Phrase → Nat
  | .int _ => 1
  | .word _ => 1
  | .list items => heightAll items + 1
  | .quote p => height p + 1
  | .backquote p => height p + 1
  | .unquote p => height p + 1

def heightAll : List Phrase → Nat
  | [] => 0
  | p :: ps => max (height p) (heightAll ps)

end

mutual

/-- Inside that many templates, expressions are unquoted in a template only. An unquoted
expression is outside of the template that it is unquoted in. -/
def isScoped : (templates : Nat) → Phrase → Bool
  | _, .int _ => true
  | _, .word _ => true
  | n, .list items => areScoped n items
  | n, .quote p => isScoped n p
  | n, .backquote p => isScoped (n + 1) p
  | 0, .unquote _ => false
  | n + 1, .unquote p => isScoped n p

def areScoped : (templates : Nat) → List Phrase → Bool
  | _, [] => true
  | n, p :: ps => isScoped n p && areScoped n ps

end

def ofWord (name : String) : Sexp :=
  if name = "nil" then .nil else if name = "t" then .truth else .name name

mutual

/-- The tree that the phrase stands for. -/
def desugar : Phrase → Sexp
  | .int n => .int n
  | .word name => ofWord name
  | .list items => .list (desugarAll items)
  | .quote p => .list [.name "quote", desugar p]
  | .backquote p => (desugar p).expand
  | .unquote p => .list [.mark, desugar p]

def desugarAll : List Phrase → List Sexp
  | [] => []
  | p :: ps => desugar p :: desugarAll ps

end

mutual

/-- How many pairs are made when the phrase is read, those that templates leave behind
included. -/
def cells : Phrase → Nat
  | .int _ => 0
  | .word _ => 0
  | .list items => cellsAll items + items.length
  | .quote p => cells p + 2
  | .backquote p => cells p + (desugar p).expandCells
  | .unquote p => cells p + 2

def cellsAll : List Phrase → Nat
  | [] => 0
  | p :: ps => cells p + cellsAll ps

end

theorem tokensAll_eq (ps : List Phrase) : tokensAll ps = ps.flatMap tokens := by
  induction ps with
  | nil => rfl
  | cons p ps ih => rw [tokensAll, ih, List.flatMap_cons]

theorem desugarAll_eq (ps : List Phrase) : desugarAll ps = ps.map desugar := by
  induction ps with
  | nil => rfl
  | cons p ps ih => rw [desugarAll, ih, List.map_cons]

theorem heightAll_le {ps : List Phrase} {n : Nat} :
    heightAll ps ≤ n ↔ ∀ p ∈ ps, height p ≤ n := by
  induction ps with
  | nil => simp [heightAll]
  | cons p ps ih => rw [heightAll, Nat.max_le, ih, List.forall_mem_cons]

theorem areScoped_iff {ps : List Phrase} {n : Nat} :
    areScoped n ps = true ↔ ∀ p ∈ ps, isScoped n p = true := by
  induction ps with
  | nil => simp [areScoped]
  | cons p ps ih => rw [areScoped, Bool.and_eq_true, ih, List.forall_mem_cons]

theorem height_pos (p : Phrase) : 0 < height p := by
  cases p <;> simp [height]

/-- No word of the phrase is the mark of unquoted expressions. -/
def Worded (p : Phrase) : Prop := .ident "," ∉ p.tokens

theorem formed_desugar {p : Phrase} (worded : p.Worded) : (desugar p).Formed := by
  unfold Worded at worded
  induction p with
  | int n => exact .int n
  | word name =>
    have ordinary : name ≠ "," := by
      rintro rfl
      exact worded (by simp [tokens])
    rw [desugar, ofWord]
    split
    · exact .nil
    split
    · exact .truth
    · exact .name ordinary
  | list items ih =>
    rw [desugar, desugarAll_eq]
    refine .list fun s mem => ?_
    obtain ⟨p, here, rfl⟩ := List.mem_map.mp mem
    refine ih p here fun comma => worded ?_
    rw [tokens, tokensAll_eq]
    simp only [List.mem_cons, List.mem_append, List.mem_flatMap]
    exact .inr (.inl ⟨p, here, comma⟩)
  | quote p ih => exact Sexp.formed_quoted (ih (by simpa [tokens] using worded))
  | backquote p ih => exact (ih (by simpa [tokens] using worded)).expand
  | unquote p ih => exact .marked (ih (by simpa [tokens] using worded))

end Phrase

end SecdLisp
