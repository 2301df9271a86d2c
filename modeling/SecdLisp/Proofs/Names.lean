import SecdLisp.SymbolTable

/-!
# Names and numbers

Interning gives a name the number that leads back to it. A table that grows keeps the names of
all numbers it has given out.
-/

namespace SecdLisp

namespace SymbolTable

/-- The second table has all names of the first one, under the same numbers. -/
def Within (t t' : SymbolTable) : Prop := t.names.toList <+: t'.names.toList

theorem Within.refl (t : SymbolTable) : t.Within t := List.prefix_rfl

theorem Within.trans {t t' t'' : SymbolTable} (h : t.Within t') (h' : t'.Within t'') :
    t.Within t'' := List.IsPrefix.trans h h'

theorem Within.count_le {t t' : SymbolTable} (h : t.Within t') : t.count ≤ t'.count := by
  simpa [Within, count] using h.length_le

theorem Within.getElem? {t t' : SymbolTable} (h : t.Within t') {i : Symbol} (lt : i < t.count) :
    t'.names[i]? = t.names[i]? := by
  obtain ⟨more, eq⟩ := h
  have lt' : i < t.names.toList.length := by simpa [count] using lt
  rw [← Array.getElem?_toList, ← Array.getElem?_toList, ← eq, List.getElem?_append_left lt']

theorem Within.name {t t' : SymbolTable} (h : t.Within t') {i : Symbol} (lt : i < t.count) :
    t'.name i = t.name i := by
  rw [SymbolTable.name, h.getElem? lt, SymbolTable.name]

theorem name_eq_iff {t : SymbolTable} {i : Symbol} (lt : i < t.count) {s : String} :
    t.name i = s ↔ t.names[i]? = some s := by
  have here : t.names[i]? = some t.names[i] := Array.getElem?_eq_getElem lt
  rw [name, here]
  simp

theorem lookup?_eq_some_iff {t : SymbolTable} {s : String} {i : Symbol} :
    t.lookup? s = some i ↔ i < t.count ∧ t.name i = s := by
  rw [lookup?, t.numbers_iff]
  constructor
  · intro here
    have lt : i < t.count := (Array.getElem?_eq_some_iff.mp here).1
    exact ⟨lt, (name_eq_iff lt).mpr here⟩
  · rintro ⟨lt, here⟩
    exact (name_eq_iff lt).mp here

theorem Within.lookup? {t t' : SymbolTable} (h : t.Within t') {s : String} {i : Symbol}
    (found : t.lookup? s = some i) : t'.lookup? s = some i := by
  obtain ⟨lt, named⟩ := lookup?_eq_some_iff.mp found
  exact lookup?_eq_some_iff.mpr ⟨Nat.lt_of_lt_of_le lt h.count_le, (h.name lt).trans named⟩

theorem name_injective {t : SymbolTable} {i j : Symbol} (hi : i < t.count) (hj : j < t.count)
    (same : t.name i = t.name j) : i = j := by
  have here : t.lookup? (t.name j) = some i := lookup?_eq_some_iff.mpr ⟨hi, same⟩
  have there : t.lookup? (t.name j) = some j := lookup?_eq_some_iff.mpr ⟨hj, rfl⟩
  exact Option.some.inj (here.symm.trans there)

theorem within_intern (t : SymbolTable) (s : String) : t.Within (t.intern s).2 := by
  cases found : t.lookup? s with
  | some i => rw [intern_of_lookup? found]; exact .refl t
  | none =>
    rw [Within, names_intern_of_fresh found, Array.toList_push]
    exact List.prefix_append ..

theorem intern_lt_count (t : SymbolTable) (s : String) :
    (t.intern s).1 < (t.intern s).2.count := by
  cases found : t.lookup? s with
  | some i => rw [intern_of_lookup? found]; exact (lookup?_eq_some_iff.mp found).1
  | none => simp [fst_intern_of_fresh found, count, names_intern_of_fresh found]

theorem name_intern (t : SymbolTable) (s : String) : (t.intern s).2.name (t.intern s).1 = s := by
  cases found : t.lookup? s with
  | some i => rw [intern_of_lookup? found]; exact (lookup?_eq_some_iff.mp found).2
  | none => simp [fst_intern_of_fresh found, name, count, names_intern_of_fresh found]

theorem lookup?_intern (t : SymbolTable) (s : String) :
    (t.intern s).2.lookup? s = some (t.intern s).1 :=
  lookup?_eq_some_iff.mpr ⟨t.intern_lt_count s, t.name_intern s⟩

theorem name_of_wellKnown (t : SymbolTable) {i : Symbol} {s : String}
    (h : Symbol.wellKnown[i]? = some s) : i < t.count ∧ t.name i = s := by
  obtain ⟨more, eq⟩ := t.wellKnown_le
  have lt : i < Symbol.wellKnown.length := (List.getElem?_eq_some_iff.mp h).1
  have here : t.names[i]? = some s := by
    rw [← Array.getElem?_toList, ← eq, List.getElem?_append_left lt, h]
  exact ⟨(Array.getElem?_eq_some_iff.mp here).1, by rw [name, here]; rfl⟩

end SymbolTable

end SecdLisp
