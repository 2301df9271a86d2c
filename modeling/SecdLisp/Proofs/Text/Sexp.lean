import SecdLisp.Proofs.Graph
import SecdLisp.Proofs.Names

/-!
# What values unfold to

A value stands for a finite tree of pairs and atoms if following its cells ends everywhere. Names
are compared by their spelling, so that trees can be compared across heaps and symbol tables. A
cell stands for one tree only, and the cells below it stand for smaller ones; so no cell is below
itself.
-/

namespace SecdLisp

/-- A finite tree of pairs. -/
inductive Sexp where
  | nil
  | truth
  | int (n : Int64)
  | name (s : String)
  | cons (car cdr : Sexp)
  deriving DecidableEq, Repr, Inhabited

namespace Sexp

def list : List Sexp → Sexp
  | [] => .nil
  | s :: ss => .cons s (list ss)

/-- How deep the tree nests, going from lists to their elements. -/
def nest : Sexp → Nat
  | .cons a b => max (nest a + 1) (nest b)
  | _ => 0

@[simp] theorem list_nil : list [] = .nil := rfl

@[simp] theorem list_cons (s : Sexp) (ss : List Sexp) : list (s :: ss) = .cons s (list ss) := rfl

theorem sizeOf_car (a b : Sexp) : sizeOf a < sizeOf (cons a b) := by
  rw [cons.sizeOf_spec]
  omega

theorem sizeOf_cdr (a b : Sexp) : sizeOf b < sizeOf (cons a b) := by
  rw [cons.sizeOf_spec]
  omega

theorem nest_lt_list {s : Sexp} {ss : List Sexp} (mem : s ∈ ss) : nest s < nest (list ss) := by
  induction ss with
  | nil => cases mem
  | cons t ss ih =>
    rw [list_cons, nest]
    rcases List.mem_cons.mp mem with rfl | mem
    · omega
    · have := ih mem
      omega

end Sexp

open Sexp (list nest)

/-- Following its cells, the value unfolds to the tree. -/
def Value.Unfolds (h : Heap) (symbols : SymbolTable) : Value → Sexp → Prop
  | v, .nil => v = .nil
  | v, .truth => v = .truth
  | v, .int n => v = .int n
  | v, .name s => ∃ i < symbols.count, v = .ident i ∧ symbols.name i = s
  | v, .cons a b => ∃ c < h.size, v = .pair c ∧ (h.car c).Unfolds h symbols a ∧
      (h.cdr c).Unfolds h symbols b

namespace Value

variable {h h' : Heap} {symbols symbols' : SymbolTable} {v : Value} {s s' : Sexp}

@[simp] theorem unfolds_nil : v.Unfolds h symbols .nil ↔ v = .nil := by rw [Unfolds]

@[simp] theorem unfolds_truth : v.Unfolds h symbols .truth ↔ v = .truth := by rw [Unfolds]

@[simp] theorem unfolds_int {n : Int64} : v.Unfolds h symbols (.int n) ↔ v = .int n := by
  rw [Unfolds]

theorem unfolds_cons {a b : Sexp} : v.Unfolds h symbols (.cons a b) ↔ ∃ c < h.size, v = .pair c ∧
    (h.car c).Unfolds h symbols a ∧ (h.cdr c).Unfolds h symbols b := by rw [Unfolds]

theorem unfolds_name {n : String} : v.Unfolds h symbols (.name n) ↔
    ∃ i < symbols.count, v = .ident i ∧ symbols.name i = n := by rw [Unfolds]

theorem unfolds_wellKnown {i : Symbol} {n : String} (known : Symbol.wellKnown[i]? = some n) :
    (Value.ident i).Unfolds h symbols (.name n) :=
  unfolds_name.mpr ⟨i, (symbols.name_of_wellKnown known).1, rfl,
    (symbols.name_of_wellKnown known).2⟩

theorem unfolds_ident_wellKnown {i j : Symbol} {n : String}
    (known : Symbol.wellKnown[i]? = some n) :
    (Value.ident j).Unfolds h symbols (.name n) ↔ j = i := by
  obtain ⟨lt, spelled⟩ := symbols.name_of_wellKnown known
  rw [unfolds_name]
  constructor
  · rintro ⟨k, below, ⟨⟩, same⟩
    exact SymbolTable.name_injective below lt (same.trans spelled.symm)
  · rintro rfl
    exact ⟨j, lt, rfl, spelled⟩

theorem Unfolds.eq_ident {i : Symbol} {n : String} (unfolds : v.Unfolds h symbols (.name n))
    (known : Symbol.wellKnown[i]? = some n) : v = .ident i := by
  obtain ⟨j, _, rfl, _⟩ := unfolds_name.mp unfolds
  rw [(unfolds_ident_wellKnown known).mp unfolds]

/-- What a value unfolds to stays when cells and names are added. -/
theorem Unfolds.mono (unfolds : v.Unfolds h symbols s) (grows : h.Grows h')
    (within : symbols.Within symbols') : v.Unfolds h' symbols' s := by
  induction s generalizing v with
  | nil => simpa using unfolds
  | truth => simpa using unfolds
  | int n => simpa using unfolds
  | name n =>
    obtain ⟨i, lt, rfl, spelled⟩ := unfolds_name.mp unfolds
    rw [unfolds_name]
    exact ⟨i, Nat.lt_of_lt_of_le lt within.count_le, rfl, (within.name lt).trans spelled⟩
  | cons a b iha ihb =>
    obtain ⟨c, lt, rfl, first, rest⟩ := unfolds_cons.mp unfolds
    have same := grows.cell c lt
    rw [unfolds_cons]
    refine ⟨c, Nat.lt_of_lt_of_le lt grows.size_le, rfl, ?_, ?_⟩
    · rw [Heap.car, same]
      exact iha first
    · rw [Heap.cdr, same]
      exact ihb rest

theorem Unfolds.unique (unfolds : v.Unfolds h symbols s) (unfolds' : v.Unfolds h symbols s') :
    s = s' := by
  induction s generalizing v s' with
  | nil =>
    rw [unfolds_nil] at unfolds
    cases s' <;> simp [unfolds, unfolds_cons, unfolds_name] at unfolds' ⊢
  | truth =>
    rw [unfolds_truth] at unfolds
    cases s' <;> simp [unfolds, unfolds_cons, unfolds_name] at unfolds' ⊢
  | int n =>
    rw [unfolds_int] at unfolds
    cases s' <;> simp [unfolds, unfolds_cons, unfolds_name] at unfolds' ⊢
    exact unfolds'
  | name n =>
    obtain ⟨i, -, rfl, spelled⟩ := unfolds_name.mp unfolds
    cases s' <;> simp [unfolds_cons, unfolds_name] at unfolds' ⊢
    rw [← spelled, unfolds'.2]
  | cons a b iha ihb =>
    obtain ⟨c, -, rfl, first, rest⟩ := unfolds_cons.mp unfolds
    cases s' with
    | cons a' b' =>
      obtain ⟨c', -, ⟨⟩, first', rest'⟩ := unfolds_cons.mp unfolds'
      rw [iha first first', ihb rest rest']
    | _ => simp [unfolds_name] at unfolds'

theorem unfolds_list {ss : List Sexp} : v.Unfolds h symbols (list ss) ↔
    ∃ as, h.Spine v as ∧ List.Forall₂ (·.Unfolds h symbols ·) (as.map h.car) ss := by
  induction ss generalizing v with
  | nil =>
    rw [Sexp.list_nil, unfolds_nil]
    constructor
    · rintro rfl
      exact ⟨[], .nil, .nil⟩
    · rintro ⟨as, spine, all⟩
      rw [List.forall₂_nil_right_iff, List.map_eq_nil_iff] at all
      subst all
      cases spine
      rfl
  | cons s ss ih =>
    rw [Sexp.list_cons, unfolds_cons]
    constructor
    · rintro ⟨c, lt, rfl, first, rest⟩
      obtain ⟨as, spine, all⟩ := ih.mp rest
      exact ⟨c :: as, .cons lt spine, .cons first all⟩
    · rintro ⟨as, spine, all⟩
      cases spine with
      | nil => cases all
      | @cons c as lt spine =>
        cases all with
        | cons first all => exact ⟨c, lt, rfl, first, ih.mpr ⟨as, spine, all⟩⟩

theorem Unfolds.lists {ss : List Sexp} (unfolds : v.Unfolds h symbols (list ss)) :
    ∃ vs, h.Lists v vs ∧ List.Forall₂ (·.Unfolds h symbols ·) vs ss := by
  obtain ⟨as, spine, all⟩ := unfolds_list.mp unfolds
  exact ⟨_, ⟨as, spine, rfl⟩, all⟩

/-- The cell stands for a tree that is no larger than this one. -/
def Below (h : Heap) (symbols : SymbolTable) (s : Sexp) (a : Addr) : Prop :=
  a < h.size ∧ ∃ s', (Value.pair a).Unfolds h symbols s' ∧ sizeOf s' ≤ sizeOf s

/-- A tree nests no deeper than there are cells: the cells on the way down are all different. -/
theorem Unfolds.nest_le (unfolds : v.Unfolds h symbols s) : nest s ≤ h.size := by
  have path : ∃ path : List Addr, path.Nodup ∧ (∀ a ∈ path, Below h symbols s a) ∧
      path.length = nest s := by
    induction s generalizing v with
    | cons a b iha ihb =>
      obtain ⟨c, lt, rfl, first, rest⟩ := unfolds_cons.mp unfolds
      have shrinks {t : Sexp} (lt : sizeOf t < sizeOf (Sexp.cons a b)) {d : Addr}
          (below : Below h symbols t d) : Below h symbols (.cons a b) d ∧ d ≠ c := by
        obtain ⟨owned, s', there, le⟩ := below
        refine ⟨⟨owned, s', there, by omega⟩, ?_⟩
        rintro rfl
        have same := there.unique unfolds
        subst same
        omega
      by_cases deeper : nest b ≤ nest a + 1
      · obtain ⟨path, nodup, all, length⟩ := iha first
        have below := Sexp.sizeOf_car a b
        refine ⟨c :: path, List.nodup_cons.mpr ⟨?_, nodup⟩, ?_, ?_⟩
        · intro mem
          exact (shrinks below (all c mem)).2 rfl
        · intro d mem
          rcases List.mem_cons.mp mem with rfl | mem
          · exact ⟨lt, _, unfolds, Nat.le_refl _⟩
          · exact (shrinks below (all d mem)).1
        · rw [List.length_cons, length, nest, Nat.max_eq_left deeper]
      · obtain ⟨path, nodup, all, length⟩ := ihb rest
        have below := Sexp.sizeOf_cdr a b
        refine ⟨path, nodup, fun d mem => (shrinks below (all d mem)).1, ?_⟩
        rw [length, nest, Nat.max_eq_right (by omega)]
    | _ => exact ⟨[], List.nodup_nil, by simp, rfl⟩
  obtain ⟨path, nodup, all, length⟩ := path
  rw [← length]
  exact Heap.length_le_of_nodup nodup fun a mem => (all a mem).1

end Value

end SecdLisp
