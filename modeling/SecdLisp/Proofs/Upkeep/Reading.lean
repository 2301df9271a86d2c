import SecdLisp.Proofs.Names
import SecdLisp.Proofs.Reading
import SecdLisp.Proofs.Upkeep.Heap

/-!
# What reading does to a heap

Reading adds cells to the heap and names to the table. What it reads refers to these and to
nothing else.
-/

namespace SecdLisp

namespace Reading

open Heap Contract

abbrev Knows (r : Reading) (v : Value) : Prop := v.Within r.heap.size r.symbols.count

/-- Reading adds names and makes changes to the heap. -/
def upkeep : Contract Reading Reading where
  le r r' := r.symbols.Within r'.symbols ∧ Changes r'.symbols.count r.heap r'.heap
  holds w r := r = w ∧ w.heap.Sound w.symbols.count
  error w e := e.Within w.heap.size w.symbols.count
  refl r := ⟨.refl r.symbols, .refl⟩
  trans first second :=
    ⟨first.1.trans second.1, (first.2.mono second.1.count_le).trans second.2⟩

variable {r : Reading} {v : Value}

theorem knows_later {r' : Reading} (later : upkeep.le r r') (known : r.Knows v) : r'.Knows v :=
  known.mono later.2.size_le later.1.count_le

theorem wellKnown_le_count (t : SymbolTable) : Symbol.wellKnown.length ≤ t.count := by
  simpa [SymbolTable.count] using t.wellKnown_le.length_le

theorem sound_intern {h : Heap} {t : SymbolTable} (sound : h.Sound t.count) (name : String) :
    h.Sound (t.intern name).2.count := Heap.Sound.mono sound (t.within_intern name).count_le

theorem keeps_intern (name : String) :
    upkeep.Keeps r (fun r' i => i < r'.symbols.count) (intern name) := by
  rintro r ⟨rfl, sound⟩
  obtain ⟨source, h, symbols⟩ := r
  exact ⟨⟨source, h, (symbols.intern name).2⟩, ⟨symbols.within_intern name, .refl⟩,
    ⟨rfl, sound_intern sound name⟩, symbols.intern_lt_count name⟩

theorem keeps_below {source : Source} {symbols : SymbolTable} {x : HeapM Value}
    (keeps : (Heap.upkeep r.symbols.count).Keeps r.heap (Heap.Knows r.symbols.count) x) :
    (upkeep.below source symbols).Keeps r Knows x := by
  rintro h ⟨rfl, sound⟩
  refine (keeps h ⟨rfl, sound⟩).mono ?_ ?_
  · rintro v h' ⟨_, changes, ⟨rfl, sound'⟩, known⟩
    exact ⟨⟨source, h', symbols⟩, ⟨.refl symbols, changes⟩, ⟨rfl, sound'⟩, known⟩
  · rintro e h' ⟨_, changes, ⟨rfl, sound'⟩, error⟩
    exact ⟨⟨source, h', symbols⟩, ⟨.refl symbols, changes⟩, ⟨rfl, sound'⟩, error⟩

theorem takes_upkeep : Takes upkeep Knows where
  later := knows_later
  error _ _ := Error.within_of_none rfl
  source {_ r} source := by
    rintro ⟨rfl, sound⟩
    exact ⟨{ r with source }, ⟨.refl r.symbols, .refl⟩, rfl, sound⟩
  nil _ := trivial
  truth _ := trivial
  int _ _ := trivial
  wellKnown r _ lt := Nat.lt_of_lt_of_le lt (wellKnown_le_count r.symbols)
  intern _ name := keeps_intern name
  cons _ _ knownCar knownCdr := keeps_below (keeps_cons knownCar knownCdr)
  halves {_ _ a} holds _ := holds.1 ▸ holds.2 a

theorem keeps_form? : upkeep.Keeps r (fun r' found => ∀ v, found = some v → r'.Knows v) form? :=
  takes_upkeep.keeps_form?

theorem keeps_form : upkeep.Keeps r Knows form := takes_upkeep.keeps_form

end Reading

end SecdLisp
