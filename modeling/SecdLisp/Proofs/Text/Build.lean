import SecdLisp.Proofs.Text.Phrase
import SecdLisp.Text.Form

/-!
# Putting forms together

Once a phrase is known, what reading it does to heap and symbol table does not depend on the text
any more: pairs are made and names are interned in one fixed order. How many pairs that takes is
known beforehand, and want of room for them is the only way to fail.
-/

namespace SecdLisp

namespace Heap

variable {α β : Type} {n k : Nat} {x : HeapM α} {f : α → HeapM β} {h h' h'' : Heap}
  {p : α → Heap → Prop} {q : β → Heap → Prop} {symbols : SymbolTable} {v : Value} {s : Sexp}

/-- That many cells were added, and nothing else has changed. -/
structure Adds (n : Nat) (h h' : Heap) : Prop where
  grows : h.Grows h'
  size : h'.size = h.size + n
  capacity : h'.capacity = h.capacity

theorem Adds.refl (h : Heap) : h.Adds 0 h := ⟨.refl h, rfl, rfl⟩

theorem Adds.trans (first : h.Adds n h') (second : h'.Adds k h'') : h.Adds (n + k) h'' where
  grows := first.grows.trans second.grows
  size := by rw [second.size, first.size, Nat.add_assoc]
  capacity := second.capacity.trans first.capacity

theorem adds_grown (h : Heap) (c : Cell) (room : h.size < h.capacity) : h.Adds 1 (h.grown c room) :=
  ⟨grows_grown h c room, by simp, by simp⟩

/-- The work adds that many cells, or fails because there is no room for them. -/
def Costs (n : Nat) (x : HeapM α) (h : Heap) (p : α → Heap → Prop) : Prop :=
  Ends x h (fun a h' => h.Adds n h' ∧ p a h') fun e _ => e = .heapFull ∧ h.capacity < h.size + n

theorem costs_pure {a : α} (holds : p a h) : Costs 0 (pure a) h p := ⟨.refl h, holds⟩

theorem costs_read_bind {g : Heap → α} {f : α → HeapM β} (next : Costs n (f (g h)) h q) :
    Costs n (read g >>= f) h q := next

theorem Costs.bind (first : Costs n x h p)
    (next : ∀ a h', h.Adds n h' → p a h' → Costs k (f a) h' q) : Costs (n + k) (x >>= f) h q := by
  rw [Costs, ends_bind]
  refine first.mono ?_ ?_
  · rintro a h' ⟨adds, holds⟩
    refine (next a h' adds holds).mono ?_ ?_
    · rintro b h'' ⟨adds', holds'⟩
      exact ⟨adds.trans adds', holds'⟩
    · rintro e - ⟨full, less⟩
      rw [adds.size, adds.capacity] at less
      exact ⟨full, by omega⟩
  · rintro e - ⟨full, less⟩
    exact ⟨full, by omega⟩

theorem costs_cons {car cdr : Value} {a b : Sexp} (first : car.Unfolds h symbols a)
    (rest : cdr.Unfolds h symbols b) :
    Costs 1 (cons car cdr) h fun v h' => v.Unfolds h' symbols (.cons a b) := by
  rw [Costs, ends_cons]
  constructor
  · intro room
    have grows := grows_grown h ⟨car, cdr⟩ room
    refine ⟨adds_grown h _ room, Value.unfolds_cons.mpr ⟨h.size, by simp, rfl, ?_, ?_⟩⟩
    · rw [Heap.car, cell_grown_size]
      exact first.mono grows (.refl _)
    · rw [Heap.cdr, cell_grown_size]
      exact rest.mono grows (.refl _)
  · intro full
    exact ⟨rfl, by omega⟩

theorem costs_list {vs : List Value} {ss : List Sexp}
    (all : List.Forall₂ (·.Unfolds h symbols ·) vs ss) :
    Costs vs.length (list vs) h fun v h' => v.Unfolds h' symbols (.list ss) := by
  induction all with
  | nil => exact costs_pure (Value.unfolds_nil.mpr rfl)
  | @cons v s vs ss first _ ih =>
    rw [list, listWithTail, List.foldrM_cons, List.length_cons]
    refine ih.bind fun rest h' adds unfolds => ?_
    exact costs_cons (first.mono adds.grows (.refl _)) unfolds

end Heap

namespace Template

open Heap

variable {h : Heap} {symbols : SymbolTable} {v : Value} {s : Sexp}

theorem costs_quoted (unfolds : v.Unfolds h symbols s) :
    Costs 2 (quoted v) h fun v h' => v.Unfolds h' symbols (.list [.name "quote", s]) :=
  costs_list (.cons (Value.unfolds_wellKnown rfl) (.cons unfolds .nil))

theorem costs_unquoted (unfolds : v.Unfolds h symbols s) :
    Costs 2 (unquoted v) h fun v h' => v.Unfolds h' symbols (.list [.mark, s]) := by
  have last := costs_cons unfolds (Value.unfolds_nil.mpr rfl)
  show Costs (1 + 1) _ h _
  exact last.bind fun rest h' _ known => costs_cons (Value.unfolds_wellKnown rfl) known

/-- A list in a template, given what becomes of its elements. -/
theorem costs_chain {element : Value → HeapM Value} {ss : List Sexp} {items : List Value}
    (expands : ∀ s ∈ ss, ∀ v h, v.Unfolds h symbols s →
      Costs s.expandCells (element v) h fun v h' => v.Unfolds h' symbols s.expand)
    (all : List.Forall₂ (·.Unfolds h symbols ·) items ss) :
    Costs (Sexp.restCells (.list ss))
      (items.foldrM (fun item built => do
        Heap.list [.ident .cons, ← element item, built]) .nil) h
      fun v h' => v.Unfolds h' symbols (Sexp.expandRest (.list ss)) := by
  induction all with
  | nil => exact costs_pure (Value.unfolds_nil.mpr rfl)
  | @cons v s vs ss first _ ih =>
    rw [List.forall_mem_cons] at expands
    rw [List.foldrM_cons, Sexp.list_cons, Sexp.restCells, Sexp.expandRest, Nat.add_assoc]
    refine (ih expands.2).bind fun built h₁ adds known => ?_
    refine (expands.1 v h₁ (first.mono adds.grows (.refl _))).bind fun item h₂ adds₂ expanded => ?_
    have known := known.mono adds₂.grows (.refl _)
    exact costs_list (.cons (Value.unfolds_wellKnown rfl) (.cons expanded (.cons known .nil)))

theorem costs_expandWithin (formed : s.Formed) (unfolds : v.Unfolds h symbols s) {height : Nat}
    (nests : s.nest < height) : Costs s.expandCells (expandWithin height v) h
      fun v h' => v.Unfolds h' symbols s.expand := by
  induction formed generalizing v h height with
  | truth | int n =>
    obtain ⟨height, rfl⟩ := Nat.exists_eq_add_of_lt nests
    cases v <;> simp at unfolds
    exact costs_quoted (by simp [unfolds])
  | @name name ordinary =>
    obtain ⟨height, rfl⟩ := Nat.exists_eq_add_of_lt nests
    obtain ⟨i, -, rfl, -⟩ := Value.unfolds_name.mp unfolds
    exact costs_quoted unfolds
  | @marked s formed =>
    obtain ⟨height, rfl⟩ := Nat.exists_eq_add_of_lt nests
    obtain ⟨a, -, rfl, first, rest⟩ := Value.unfolds_cons.mp unfolds
    obtain ⟨b, -, tail, second, -⟩ := Value.unfolds_cons.mp rest
    have isMark : h.car a = .ident .unquote := by
      obtain ⟨i, -, here, -⟩ := Value.unfolds_name.mp first
      rw [here] at first ⊢
      exact congrArg Value.ident ((Value.unfolds_ident_wellKnown (i := Symbol.unquote) rfl).mp first)
    rw [Sexp.list_cons, Sexp.expandCells, Sexp.expand, if_pos rfl, if_pos rfl]
    refine costs_read_bind ?_
    rw [if_pos isMark]
    refine costs_read_bind ?_
    rw [tail]
    exact costs_pure second
  | @list ss formed ih =>
    obtain ⟨height, rfl⟩ := Nat.exists_eq_add_of_lt nests
    cases ss with
    | nil =>
      obtain rfl := Value.unfolds_nil.mp unfolds
      exact costs_quoted unfolds
    | cons s ss =>
      obtain ⟨as, spine, all⟩ := Value.unfolds_list.mp unfolds
      obtain ⟨a, -, rfl, first, -⟩ := Value.unfolds_cons.mp unfolds
      have notMark : h.car a ≠ .ident .unquote := by
        intro same
        rw [same] at first
        exact (formed s (by simp)).ne_mark (first.unique (Value.unfolds_wellKnown rfl))
      rw [Sexp.expand_list (formed s (by simp)), Sexp.expandCells_list (formed s (by simp))]
      refine costs_read_bind ?_
      rw [if_neg notMark]
      refine costs_read_bind ?_
      rw [toList?_of_spine spine]
      refine costs_chain (fun t mem v h unfolds => ih t mem unfolds ?_) all
      have := Sexp.nest_lt_list mem
      omega

theorem costs_expand (formed : s.Formed) (unfolds : v.Unfolds h symbols s) :
    Costs s.expandCells (expand v) h fun v h' => v.Unfolds h' symbols s.expand :=
  costs_read_bind (costs_expandWithin formed unfolds (Nat.lt_succ_of_le unfolds.nest_le))

end Template

namespace Reading

variable {α β : Type} {n k : Nat} {x : ReadM α} {f : α → ReadM β} {r : Reading}
  {p : α → Reading → Prop} {q : β → Reading → Prop}

/-- The work adds that many cells and perhaps some names, or fails for want of room. It does not
move on in the text. -/
def Costs (n : Nat) (x : ReadM α) (r : Reading) (p : α → Reading → Prop) : Prop :=
  Ends x r
    (fun a r' => r'.source = r.source ∧ r.heap.Adds n r'.heap ∧ r.symbols.Within r'.symbols ∧
      p a r')
    fun e _ => e = .heapFull ∧ r.heap.capacity < r.heap.size + n

theorem costs_pure {a : α} (holds : p a r) : Costs 0 (pure a) r p :=
  ⟨rfl, .refl _, .refl _, holds⟩

theorem Costs.bind (first : Costs n x r p)
    (next : ∀ a r', r.heap.Adds n r'.heap → r.symbols.Within r'.symbols → p a r' →
      Costs k (f a) r' q) : Costs (n + k) (x >>= f) r q := by
  rw [Costs, ends_bind]
  refine first.mono ?_ ?_
  · rintro a r' ⟨same, adds, within, holds⟩
    refine (next a r' adds within holds).mono ?_ ?_
    · rintro b r'' ⟨same', adds', within', holds'⟩
      exact ⟨same'.trans same, adds.trans adds', within.trans within', holds'⟩
    · rintro e - ⟨full, less⟩
      rw [adds.size, adds.capacity] at less
      exact ⟨full, by omega⟩
  · rintro e - ⟨full, less⟩
    exact ⟨full, by omega⟩

theorem Costs.bind_onHeap (first : Costs n x r p) {f : α → HeapM Value} {s : Sexp}
    (next : ∀ a r', p a r' → Heap.Costs k (f a) r'.heap fun v h => v.Unfolds h r'.symbols s) :
    Costs (n + k) (do onHeap (f (← x))) r fun v r' => v.Unfolds r'.heap r'.symbols s := by
  refine first.bind fun a r' _ _ holds => ?_
  have costs := next a r' holds
  obtain ⟨source, h, symbols⟩ := r'
  unfold Costs Ends onHeap
  unfold Heap.Costs Ends at costs
  cases run : f a h with
  | ok b h' =>
    simp only [run] at costs ⊢
    exact ⟨trivial, costs.1, .refl _, costs.2⟩
  | error e h' =>
    simp only [run] at costs ⊢
    exact costs

theorem costs_atom (word : String) :
    Costs 0 (atom word) r fun v r' => v.Unfolds r'.heap r'.symbols (Phrase.ofWord word) := by
  unfold atom Phrase.ofWord
  split
  · exact costs_pure (Value.unfolds_nil.mpr rfl)
  split
  · exact costs_pure (Value.unfolds_truth.mpr rfl)
  · refine ⟨rfl, .refl _, SymbolTable.within_intern r.symbols word, Value.unfolds_name.mpr ?_⟩
    exact ⟨_, SymbolTable.intern_lt_count .., rfl, SymbolTable.name_intern ..⟩

end Reading

namespace Phrase

open Reading

mutual

/-- Make the value of a phrase. -/
def build : Phrase → ReadM Value
  | .int n => pure (.int n)
  | .word name => atom name
  | .list items => do onHeap (Heap.list (← buildAll items))
  | .quote p => do onHeap (Template.quoted (← build p))
  | .backquote p => do onHeap (Template.expand (← build p))
  | .unquote p => do onHeap (Template.unquoted (← build p))

def buildAll : List Phrase → ReadM (List Value)
  | [] => pure []
  | p :: ps => do
    let v ← build p
    let vs ← buildAll ps
    return v :: vs

end

theorem costs_buildAll_of_forall {ps : List Phrase} (r : Reading)
    (each : ∀ p ∈ ps, ∀ r, Costs p.cells p.build r fun v r' =>
      v.Unfolds r'.heap r'.symbols p.desugar) :
    Costs (cellsAll ps) (buildAll ps) r fun vs r' =>
      List.Forall₂ (·.Unfolds r'.heap r'.symbols ·) vs (desugarAll ps) := by
  induction ps generalizing r with
  | nil => exact costs_pure .nil
  | cons p ps ih =>
    rw [List.forall_mem_cons] at each
    show Costs (p.cells + (cellsAll ps + 0)) _ r _
    refine (each.1 r).bind fun v r₁ _ _ first => ?_
    refine (ih r₁ each.2).bind fun vs r₂ adds within rest => ?_
    exact costs_pure (.cons (first.mono adds.grows within) rest)

/-- What a phrase makes unfolds to the tree it stands for. -/
theorem costs_build {p : Phrase} (worded : p.Worded) (r : Reading) :
    Costs p.cells p.build r fun v r' => v.Unfolds r'.heap r'.symbols p.desugar := by
  have formed {p : Phrase} := @formed_desugar p
  unfold Worded at worded formed
  induction p generalizing r with
  | int n => exact costs_pure (Value.unfolds_int.mpr rfl)
  | word name => exact costs_atom name
  | list items ih =>
    have each : ∀ p ∈ items, .ident "," ∉ p.tokens := by
      simpa [tokens, tokensAll_eq] using worded
    have all := costs_buildAll_of_forall r fun p mem r => ih p mem (each p mem) r
    have length : items.length = (desugarAll items).length := by
      rw [desugarAll_eq, List.length_map]
    rw [cells, length]
    refine all.bind_onHeap fun vs r₁ known => ?_
    rw [← known.length_eq]
    exact Heap.costs_list known
  | quote p ih =>
    have inner : .ident "," ∉ p.tokens := by simpa [tokens] using worded
    exact (ih inner r).bind_onHeap fun v r₁ known => Template.costs_quoted known
  | backquote p ih =>
    have inner : .ident "," ∉ p.tokens := by simpa [tokens] using worded
    exact (ih inner r).bind_onHeap fun v r₁ known => Template.costs_expand (formed inner) known
  | unquote p ih =>
    have inner : .ident "," ∉ p.tokens := by simpa [tokens] using worded
    exact (ih inner r).bind_onHeap fun v r₁ known => Template.costs_unquoted known

theorem costs_buildAll {ps : List Phrase} (worded : ∀ p ∈ ps, p.Worded) (r : Reading) :
    Costs (cellsAll ps) (buildAll ps) r fun vs r' =>
      List.Forall₂ (·.Unfolds r'.heap r'.symbols ·) vs (desugarAll ps) :=
  costs_buildAll_of_forall r fun _ mem r => costs_build (worded _ mem) r

end Phrase

end SecdLisp
