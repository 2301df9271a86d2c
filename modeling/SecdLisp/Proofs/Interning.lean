import SecdLisp.Builtin
import SecdLisp.Proofs.Names

/-!
# Interning

Whatever names are interned one after the other, a table numbers them in the order in which they
first come up, behind the well-known ones. Names and numbers lead to each other, nothing that comes
later changes a number or its name, and looking names up changes nothing at all.
-/

namespace SecdLisp

namespace SymbolTable

/-- What is asked of a table. -/
inductive Request where
  | intern (name : String)
  | lookup (name : String)
  deriving DecidableEq, Repr

def Request.interned? : Request → Option String
  | intern name => some name
  | lookup _ => none

/-- The number that a request is answered with, if there is one, and the table afterwards. -/
def answer (t : SymbolTable) : Request → Option Symbol × SymbolTable
  | .intern name => (some (t.intern name).1, (t.intern name).2)
  | .lookup name => (t.lookup? name, t)

def after (t : SymbolTable) : List Request → SymbolTable
  | [] => t
  | request :: requests => (t.answer request).2.after requests

/-- What requests that are made one after the other are answered with. -/
def answers (t : SymbolTable) : List Request → List (Option Symbol)
  | [] => []
  | request :: requests => (t.answer request).1 :: (t.answer request).2.answers requests

/-- The numbers that are known without a table, and the names that they stand for. -/
def constants : List (String × Symbol) :=
  [("fn", 0), ("lambda", 1), ("if", 2), ("let", 3), ("letrec", 4), ("quote", .quote), ("set", 6),
    ("defm", 7), ("+", Builtin.add.symbol), ("-", Builtin.sub.symbol), ("*", Builtin.mul.symbol),
    ("/", Builtin.div.symbol), ("car", Builtin.car.symbol), ("cdr", Builtin.cdr.symbol),
    ("cons", .cons), ("eq", Builtin.eq.symbol), ("<", Builtin.lt.symbol),
    (">", Builtin.gt.symbol), ("<=", Builtin.le.symbol), (">=", Builtin.ge.symbol),
    ("list", .list), ("&rest", .rest), ("t", 22), (",", .unquote)]

variable {t : SymbolTable} {name : String} {requests : List Request} {k : Nat}

theorem within_answer (t : SymbolTable) (request : Request) : t.Within (t.answer request).2 := by
  cases request with
  | intern name => exact t.within_intern name
  | lookup name => exact .refl t

theorem within_after (t : SymbolTable) (requests : List Request) :
    t.Within (t.after requests) := by
  induction requests generalizing t with
  | nil => exact .refl t
  | cons request requests ih => exact (t.within_answer request).trans (ih _)

theorem after_eq_interned (t : SymbolTable) (requests : List Request) :
    t.after requests = t.after ((requests.filterMap Request.interned?).map .intern) := by
  induction requests generalizing t with
  | nil => rfl
  | cons request requests ih =>
    cases request with
    | intern name => exact ih _
    | lookup name => exact ih t

theorem answer_of_intern (here : requests[k]? = some (.intern name)) :
    ∃ s, (t.answers requests)[k]? = some (some s) ∧ (t.after requests).lookup? name = some s := by
  induction requests generalizing t k with
  | nil => cases here
  | cons request requests ih =>
    cases k with
    | zero =>
      cases here
      exact ⟨_, rfl, (within_after _ requests).lookup? (t.lookup?_intern name)⟩
    | succ k => exact ih (t := (t.answer request).2) here

theorem map_name_range (t : SymbolTable) : (List.range t.count).map t.name = t.names.toList := by
  apply List.ext_getElem
  · simp [count]
  · intro i lt _
    have lt : i < t.names.size := by simpa [count] using lt
    simp [SymbolTable.name, lt]

theorem toList_names_intern (t : SymbolTable) (name : String) :
    (t.intern name).2.names.toList =
      t.names.toList ++ if name ∈ t.names.toList then [] else [name] := by
  by_cases known : name ∈ t.names.toList
  · obtain ⟨i, found⟩ : ∃ i, t.lookup? name = some i :=
      Option.ne_none_iff_exists'.mp fun absent => lookup?_eq_none_iff.mp absent known
    rw [intern_of_lookup? found, if_pos known, List.append_nil]
  · rw [names_intern_of_fresh (lookup?_eq_none_iff.mpr known), Array.toList_push, if_neg known]

/-- Interning goes on with the order in which names first come up. -/
theorem toList_names_intern_of_eraseDups {names : List String}
    (ordered : t.names.toList = names.eraseDups) (name : String) :
    (t.intern name).2.names.toList = (names ++ [name]).eraseDups := by
  rw [toList_names_intern, ordered, List.eraseDups_append]
  congr 1
  by_cases known : name ∈ names <;> simp [known, List.removeAll, List.eraseDups_cons]

theorem toList_names_after {names : List String} (ordered : t.names.toList = names.eraseDups)
    (requests : List Request) : (t.after requests).names.toList =
      (names ++ requests.filterMap Request.interned?).eraseDups := by
  induction requests generalizing t names with
  | nil => simpa [after] using ordered
  | cons request requests ih =>
    cases request with
    | intern name =>
      have next := ih (toList_names_intern_of_eraseDups ordered name)
      rwa [List.append_assoc] at next
    | lookup name => exact ih ordered

theorem lookup?_of_mem_constants (t : SymbolTable) {p : String × Symbol} (mem : p ∈ constants) :
    t.lookup? p.1 = some p.2 := by
  have known : ∀ p ∈ constants, Symbol.wellKnown[p.2]? = some p.1 := by decide
  exact lookup?_eq_some_iff.mpr (t.name_of_wellKnown (known p mem))

/-- After any requests to a new table, names and numbers lead to each other. The numbers are those
below the count, for the names in the order in which they first came up. Interning was answered with
the same number exactly for the same name, and with one that still leads to the name. Every number
keeps its name, whatever comes later; requests that only look a name up make no difference; and the
numbers that are known without a table always stand for their names. -/
theorem numbering_lasts (requests : List Request) :
    let t := initial.after requests
    (∀ s < t.count, t.lookup? (t.name s) = some s) ∧
    (∀ name s, t.lookup? name = some s → s < t.count ∧ t.name s = name) ∧
    (List.range t.count).map t.name =
      (Symbol.wellKnown ++ requests.filterMap Request.interned?).eraseDups ∧
    (∀ (j k : Nat) a b, requests[j]? = some (.intern a) → requests[k]? = some (.intern b) →
      ((initial.answers requests)[j]? = (initial.answers requests)[k]? ↔ a = b)) ∧
    (∀ (k : Nat) a, requests[k]? = some (.intern a) →
      ∃ s < t.count, (initial.answers requests)[k]? = some (some s) ∧ t.name s = a) ∧
    (∀ later, ∀ s < t.count, (t.after later).name s = t.name s) ∧
    t = initial.after ((requests.filterMap Request.interned?).map .intern) ∧
    ∀ p ∈ constants, t.lookup? p.1 = some p.2 ∧ t.name p.2 = p.1 := by
  intro t
  refine ⟨?_, fun name s => lookup?_eq_some_iff.mp, ?_, ?_, ?_, ?_, after_eq_interned _ _, ?_⟩
  · intro s lt
    exact lookup?_eq_some_iff.mpr ⟨lt, rfl⟩
  · rw [map_name_range]
    exact toList_names_after (by decide +kernel) requests
  · intro j k a b first second
    obtain ⟨s, answered, found⟩ := answer_of_intern (t := initial) first
    obtain ⟨s', answered', found'⟩ := answer_of_intern (t := initial) second
    rw [answered, answered', Option.some.injEq, Option.some.injEq]
    constructor
    · intro same
      rw [same] at found
      exact (lookup?_eq_some_iff.mp found).2.symm.trans (lookup?_eq_some_iff.mp found').2
    · intro same
      rw [same] at found
      exact Option.some.inj (found.symm.trans found')
  · intro k a here
    obtain ⟨s, answered, found⟩ := answer_of_intern (t := initial) here
    obtain ⟨lt, named⟩ := lookup?_eq_some_iff.mp found
    exact ⟨s, lt, answered, named⟩
  · intro later s lt
    exact (t.within_after later).name lt
  · intro p mem
    have found := t.lookup?_of_mem_constants mem
    exact ⟨found, (lookup?_eq_some_iff.mp found).2⟩

/-- New names get the numbers behind the well-known ones. -/
example : initial.answers [.intern "x", .lookup "y", .intern "car", .intern "y", .intern "x"] =
    [some 24, none, some 12, some 25, some 24] := by decide +kernel

end SymbolTable

end SecdLisp
