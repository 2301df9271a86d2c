import SecdLisp.Value
import Std.Data.TreeMap

/-!
# Symbol tables

A table gives every name one number, counting from zero, and never takes it back. It keeps the
names in the order of their numbers and, for looking names up, the number of each name. The names
that the reader, the compiler and the builtins know by number come first in every table.
-/

namespace SecdLisp

namespace Symbol

/-- The names every table starts with: special forms, builtins, the marker of a rest
parameter, the spelling of the true atom, and the mark the reader puts on an unquoted
expression, which no source text can spell as a name. -/
def wellKnown : List String :=
  ["fn", "lambda", "if", "let", "letrec", "quote", "set", "defm",
    "+", "-", "*", "/", "car", "cdr", "cons", "eq", "<", ">", "<=", ">=", "list",
    "&rest", "t", ","]

def quote : Symbol := 5
def cons : Symbol := 14
def list : Symbol := 20
def rest : Symbol := 21
def unquote : Symbol := 23

/-- Special forms, builtins and the rest marker cannot be defined by a program. -/
def isReserved (s : Symbol) : Bool := s ≤ rest

end Symbol

/-- The interned names by their numbers, and the numbers by their names. Each of the two says what
the other one says. -/
structure SymbolTable where
  names : Array String
  numbers : Std.TreeMap String Symbol
  numbers_iff : ∀ {name : String} {s : Symbol}, numbers[name]? = some s ↔ names[s]? = some name
  wellKnown_le : Symbol.wellKnown <+: names.toList

namespace SymbolTable

private theorem numbers_ofList {names : List String} (nodup : names.Nodup) {name : String}
    {s : Symbol} : (Std.TreeMap.ofList names.zipIdx)[name]? = some s ↔ names[s]? = some name := by
  have apart : names.zipIdx.Pairwise fun a b => ¬compare a.1 b.1 = .eq := by
    simp only [Std.compare_eq_iff_eq]
    rwa [← List.pairwise_map (R := (· ≠ ·)), List.zipIdx_map_fst]
  have numbered {s : Symbol} (here : names[s]? = some name) :
      (Std.TreeMap.ofList names.zipIdx)[name]? = some s :=
    Std.TreeMap.getElem?_ofList_of_mem Std.ReflCmp.compare_self apart
      (List.mk_mem_zipIdx_iff_getElem?.mpr here)
  refine ⟨fun found => ?_, numbered⟩
  by_cases mem : name ∈ names
  · obtain ⟨i, here⟩ := List.mem_iff_getElem?.mp mem
    rw [numbered here] at found
    exact Option.some.inj found ▸ here
  · have absent : (names.zipIdx.map Prod.fst).contains name = false := by
      simpa [List.zipIdx_map_fst] using mem
    rw [Std.TreeMap.getElem?_ofList_of_contains_eq_false absent] at found
    cases found

def initial : SymbolTable where
  names := Symbol.wellKnown.toArray
  numbers := .ofList Symbol.wellKnown.zipIdx
  numbers_iff {name s} := by
    rw [List.getElem?_toArray]
    exact numbers_ofList (by decide +kernel)
  wellKnown_le := List.prefix_rfl

instance : Inhabited SymbolTable := ⟨initial⟩

def count (t : SymbolTable) : Nat := t.names.size

/-- The number of a name, if it was interned. -/
def lookup? (t : SymbolTable) (name : String) : Option Symbol := t.numbers[name]?

/-- The name with this number; empty for a number never given out. -/
def name (t : SymbolTable) (s : Symbol) : String := t.names[s]?.getD ""

theorem lookup?_eq_none_iff {t : SymbolTable} {s : String} :
    t.lookup? s = none ↔ s ∉ t.names.toList := by
  rw [Option.eq_none_iff_forall_ne_some, List.mem_iff_getElem?, not_exists]
  simp only [lookup?, Ne, t.numbers_iff, Array.getElem?_toList]

private def push (t : SymbolTable) (s : String) (fresh : s ∉ t.names.toList) : SymbolTable where
  names := t.names.push s
  numbers := t.numbers.insert s t.names.size
  numbers_iff {name i} := by
    have new : ¬t.names[i]? = some s := fun here =>
      fresh (List.mem_iff_getElem?.mpr ⟨i, Array.getElem?_toList ▸ here⟩)
    rw [Std.TreeMap.getElem?_insert, Array.getElem?_push]
    simp only [Std.compare_eq_iff_eq]
    by_cases same : s = name
    · subst same
      by_cases last : i = t.names.size <;> simp [last, new, eq_comm]
    · by_cases last : i = t.names.size <;> simp [last, same, t.numbers_iff]
  wellKnown_le := by
    rw [Array.toList_push]
    exact t.wellKnown_le.trans (List.prefix_append ..)

/-- The number of a name, which is added at the end if it is new. -/
def intern (t : SymbolTable) (s : String) : Symbol × SymbolTable :=
  match h : t.lookup? s with
  | some i => (i, t)
  | none => (t.count, t.push s (lookup?_eq_none_iff.1 h))

theorem intern_of_lookup? {t : SymbolTable} {s : String} {i : Symbol}
    (h : t.lookup? s = some i) : t.intern s = (i, t) := by
  unfold intern
  split <;> simp_all

theorem names_intern_of_fresh {t : SymbolTable} {s : String} (h : t.lookup? s = none) :
    (t.intern s).2.names = t.names.push s := by
  unfold intern
  split <;> simp_all [push]

theorem fst_intern_of_fresh {t : SymbolTable} {s : String} (h : t.lookup? s = none) :
    (t.intern s).1 = t.count := by
  unfold intern
  split <;> simp_all

end SymbolTable

end SecdLisp
