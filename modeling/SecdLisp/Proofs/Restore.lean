import Mathlib.Data.Set.Function
import SecdLisp.Proofs.Capture
import SecdLisp.Proofs.Names
import SecdLisp.Proofs.Validation
import SecdLisp.Session.Image

/-!
# Restoring what was captured

An image of a session's global state, installed in any other session with room for it, gives that
session the same global graph: there is a bijection between the cells reached from the two global
environments that keeps car and cdr, atoms, and identifiers by name.
-/

namespace SecdLisp

namespace Session

open Image

/-- A value that a session can hold: its cell is in the heap and its name in the table. -/
def Knows (s : Session) : Value → Prop
  | .pair a => a < s.heap.size
  | .ident name => name < s.symbols.count
  | _ => True

instance (s : Session) : DecidablePred s.Knows := fun v =>
  match v with
  | .pair a => inferInstanceAs (Decidable (a < s.heap.size))
  | .ident name => inferInstanceAs (Decidable (name < s.symbols.count))
  | .nil | .truth | .int _ | .op _ => .isTrue trivial

/-- No cell, no register of the global state and no entry of a name table leads out of the
session. -/
structure InRange (s : Session) : Prop where
  cells : ∀ a, s.Knows (s.heap.car a) ∧ s.Knows (s.heap.cdr a)
  env : s.Knows s.globals.env
  functions : ∀ name ∈ s.globals.functions, name < s.symbols.count
  macros : ∀ name ∈ s.globals.macros, name < s.symbols.count

theorem Knows.owns {s : Session} {v : Value} (hv : s.Knows v) : s.heap.Owns v := by
  rintro a rfl
  exact hv

theorem InRange.closed {s : Session} (hs : s.InRange) : s.heap.Closed :=
  fun a => ⟨(hs.cells a).1.owns, (hs.cells a).2.owns⟩

/-- A value of one session stands for a value of another: pairs by a map of cells, identifiers by
name, other atoms as they are. -/
def Alike (s t : Session) (f : Addr → Addr) : Value → Value → Prop
  | .nil, w => w = .nil
  | .truth, w => w = .truth
  | .int n, w => w = .int n
  | .op o, w => w = .op o
  | .ident i, w => ∃ j, w = .ident j ∧ j < t.symbols.count ∧ t.symbols.name j = s.symbols.name i
  | .pair a, w => w = .pair (f a)

theorem internAll_spec (names : List String) (s : Session) :
    ∃ symbols numbers, internAll names s = .ok numbers { s with symbols } ∧
      s.symbols.Within symbols ∧ (∀ i ∈ numbers, i < symbols.count) ∧
      numbers.map symbols.name = names := by
  induction names generalizing s with
  | nil => exact ⟨s.symbols, [], rfl, .refl _, by simp, rfl⟩
  | cons name names ih =>
    obtain ⟨symbols, numbers, run, within, known, spelled⟩ :=
      ih { s with symbols := (s.symbols.intern name).2 }
    have first := s.symbols.intern_lt_count name
    refine ⟨symbols, (s.symbols.intern name).1 :: numbers, ?_,
      (s.symbols.within_intern name).trans within, ?_, ?_⟩
    · change (do return (s.symbols.intern name).1 :: (← internAll names) : SessionM _)
        { s with symbols := (s.symbols.intern name).2 } = _
      simp [bind, EStateM.bind, run, pure, EStateM.pure]
    · intro i hi
      rcases List.mem_cons.mp hi with rfl | hi
      · exact Nat.lt_of_lt_of_le first within.count_le
      · exact known i hi
    · rw [List.map_cons, spelled, within.name first, SymbolTable.name_intern]

theorem allocBlank_spec (n : Nat) {h : Heap} (room : h.size + n ≤ h.capacity) :
    ∃ h', allocBlank n h = .ok () h' ∧ h'.size = h.size + n ∧
      ∀ a < h.size, h'.cell a = h.cell a := by
  induction n generalizing h with
  | zero => exact ⟨h, rfl, rfl, fun _ _ => rfl⟩
  | succ n ih =>
    have one : h.size < h.capacity := by omega
    obtain ⟨h', run, size, same⟩ := ih (h := h.grown ⟨.nil, .nil⟩ one) (by simp; omega)
    refine ⟨h', ?_, by rw [size, Heap.size_grown]; omega, fun a ha => ?_⟩
    · rw [allocBlank]
      simp [bind, EStateM.bind, Heap.alloc_eq, one, run]
    · rw [same a (by simp; omega), Heap.cell_grown_of_lt ha]

theorem fillCells_spec (value : Slot → Value) (cells : List ImageCell) (base : Nat) {h : Heap}
    (owned : base + cells.length ≤ h.size) :
    ∃ h', fillCells value base cells h = .ok () h' ∧ h'.size = h.size ∧
      (∀ a < base, h'.cell a = h.cell a) ∧
      ∀ (i : Nat) (c : ImageCell), cells[i]? = some c →
        h'.cell (base + i) = ⟨value c.car, value c.cdr⟩ := by
  induction cells generalizing base h with
  | nil => exact ⟨h, rfl, rfl, fun _ _ => rfl, by simp⟩
  | cons c cells ih =>
    let filled := h.updated base fun _ => ⟨value c.car, value c.cdr⟩
    rw [List.length_cons] at owned
    obtain ⟨h', run, size, before, after⟩ :=
      @ih (base + 1) filled (by simp [filled]; omega)
    refine ⟨h', ?_, by simp [size, filled], fun a ha => ?_, fun i d hd => ?_⟩
    · rw [fillCells]
      simp only [bind, EStateM.bind, Heap.update_eq]
      exact run
    · rw [before a (by omega)]
      exact Heap.cell_updated_of_ne (Nat.ne_of_lt ha) _
    · cases i with
      | zero =>
        cases hd
        rw [Nat.add_zero, before base (Nat.lt_succ_self base)]
        exact Heap.cell_updated_self (show base < h.size by omega) _
      | succ i =>
        have hi := after i d (by simpa using hd)
        rwa [Nat.add_right_comm, Nat.add_assoc] at hi

theorem map_getD_name {names : List Symbol} {symbols : SymbolTable} {i : Nat} {name : String}
    (known : ∀ j ∈ names, j < symbols.count)
    (spelled : (names.map symbols.name)[i]? = some name) :
    names.toArray[i]?.getD default < symbols.count ∧
      symbols.name (names.toArray[i]?.getD default) = name := by
  rw [List.getElem?_map] at spelled
  obtain ⟨j, hj, rfl⟩ := Option.map_eq_some_iff.mp spelled
  rw [List.getElem?_toArray, hj]
  exact ⟨known j (List.mem_of_getElem? hj), rfl⟩

/-- Where there is room, a valid image is installed behind the cells that were there before. -/
theorem restore_spec {image : Image} (valid : image.validate = .ok ()) {t : Session}
    (room : t.heap.size + image.cells.size ≤ t.heap.capacity) :
    ∃ t' value, restore image t = .ok () t' ∧ t'.heap.size = t.heap.size + image.cells.size ∧
      (∀ a < t.heap.size, t'.heap.cell a = t.heap.cell a) ∧
      (∀ (i : Nat) (c : ImageCell), image.cells[i]? = some c →
        t'.heap.cell (t.heap.size + i) = ⟨value c.car, value c.cdr⟩) ∧
      t'.globals.env = value image.root ∧
      t'.globals.functions.map t'.symbols.name = image.functions ∧
      t'.globals.macros.map t'.symbols.name = image.macros ∧
      (∀ n ∈ t'.globals.functions, n < t'.symbols.count) ∧
      (∀ n ∈ t'.globals.macros, n < t'.symbols.count) ∧
      t.symbols.Within t'.symbols ∧
      ∃ names : Array Symbol, value = slotValue names t.heap.size ∧
        ∀ (i : Nat) (name : String), image.names[i]? = some name →
          names[i]?.getD default < t'.symbols.count ∧
            t'.symbols.name (names[i]?.getD default) = name := by
  obtain ⟨symbols₁, names, run₁, within₁, known₁, spelled₁⟩ := internAll_spec image.names.toList t
  obtain ⟨blank, runBlank, blankSize, blankSame⟩ := allocBlank_spec image.cells.size room
  let value := slotValue names.toArray t.heap.size
  obtain ⟨filled, runFill, fillSize, fillBefore, fillAfter⟩ :=
    fillCells_spec value image.cells.toList t.heap.size (h := blank) (by simp [blankSize])
  obtain ⟨symbols₂, functions, run₂, within₂, known₂, spelled₂⟩ :=
    internAll_spec image.functions ⟨filled, symbols₁, t.globals, t.log⟩
  obtain ⟨symbols₃, macros, run₃, within₃, known₃, spelled₃⟩ :=
    internAll_spec image.macros ⟨filled, symbols₂, t.globals, t.log⟩
  have functionNames : functions.map symbols₃.name = image.functions := by
    rw [← spelled₂]
    exact List.map_congr_left fun i hi => within₃.name (known₂ i hi)
  have imageNames : names.map symbols₃.name = image.names.toList := by
    rw [← spelled₁]
    exact List.map_congr_left fun i hi => (within₂.trans within₃).name (known₁ i hi)
  refine ⟨⟨filled, symbols₃, ⟨value image.root, functions, macros⟩,
    t.log.add (.restored image.cells.size)⟩, value, ?_, by simp [fillSize, blankSize], ?_, ?_, rfl,
    functionNames, spelled₃, ?_, known₃, (within₁.trans within₂).trans within₃, names.toArray, rfl,
    ?_⟩
  · simp only [restore, valid, bind, EStateM.bind, run₁, onHeap, Heap.read, runBlank, report]
    rw [show fillCells (slotValue names.toArray t.heap.size) t.heap.size image.cells.toList blank
      = .ok () filled from runFill]
    simp only [run₂, run₃]
    rfl
  · intro a ha
    exact (fillBefore a ha).trans (blankSame a ha)
  · intro i c hc
    exact fillAfter i c (by simpa using hc)
  · intro n hn
    exact Nat.lt_of_lt_of_le (known₂ n hn) within₃.count_le
  · intro i name hi
    refine map_getD_name (fun j hj => ?_) (by rw [imageNames]; simpa using hi)
    exact Nat.lt_of_lt_of_le (known₁ j hj) (within₂.trans within₃).count_le

theorem ends_allocBlank (n : Nat) (h : Heap) : Ends (allocBlank n) h
    (fun _ h' => h.size + n ≤ h.capacity ∧ h'.size = h.size + n)
    fun e h' => e = .heapFull ∧ h.capacity < h.size + n ∧ h.Grows h' ∧
      h'.capacity = h.capacity ∧ h'.size = h.capacity := by
  induction n generalizing h with
  | zero => exact ⟨h.size_le_capacity, rfl⟩
  | succ n ih =>
    rw [allocBlank, ends_bind, Heap.ends_alloc]
    constructor
    · intro room
      refine (ih (h.grown ⟨.nil, .nil⟩ room)).mono ?_ ?_
      · rintro _ h' ⟨fits, size⟩
        rw [Heap.size_grown, Heap.capacity_grown] at fits
        rw [Heap.size_grown] at size
        exact ⟨by omega, by omega⟩
      · rintro e h' ⟨rfl, less, grows, capacity, size⟩
        rw [Heap.size_grown, Heap.capacity_grown] at less
        exact ⟨rfl, by omega, (Heap.grows_grown ..).trans grows, capacity, size⟩
    · intro full
      have same : h.size = h.capacity := Nat.le_antisymm h.size_le_capacity full
      exact ⟨rfl, by omega, .refl h, rfl, same⟩

theorem room_of_restore {image : Image} {t t' : Session} (run : restore image t = .ok () t') :
    image.validate = .ok () ∧ t.heap.size + image.cells.size ≤ t.heap.capacity := by
  obtain ⟨symbols, names, interned, _⟩ := internAll_spec image.names.toList t
  cases valid : image.validate with
  | error cause =>
    simp only [restore, valid] at run
    cases run
  | ok _ =>
    refine ⟨rfl, ?_⟩
    simp only [restore, valid, bind, EStateM.bind, interned, onHeap, Heap.read] at run
    cases blank : allocBlank image.cells.size t.heap with
    | ok _ h => exact ((ends_allocBlank _ _).of_eq_ok blank).1
    | error e h =>
      rw [blank] at run
      cases run

/-- The slots of a charted heap refer to names and cells of the image. -/
theorem has_of_outlines {image : Image} {stands : Value → Slot → Prop} {h : Heap} {root : Value}
    {order : List Addr} (charts : image.Charts stands h root order) {v : Value} {slot : Slot}
    (outlines : image.Outlines order v slot) : image.Has slot := by
  cases v with
  | nil | truth | int | op => cases outlines; trivial
  | ident name =>
    obtain ⟨i, rfl, lt⟩ := outlines
    exact lt
  | pair a =>
    obtain ⟨i, rfl, hi⟩ := outlines
    have lt := (List.getElem?_eq_some_iff.mp hi).1
    rwa [charts.length] at lt

/-- Walking along cdr through an image is walking through the heap that it charts. -/
theorem after?_of_spine {image : Image} {h : Heap} {root : Value} {order : List Addr}
    (charts : image.Charts (image.Outlines order) h root order) {v : Value} {as : List Addr}
    (spine : h.Spine v as) {slot : Slot} (outlines : image.Outlines order v slot) :
    image.after? as.length slot = some .nil := by
  induction spine generalizing slot with
  | nil =>
    cases outlines
    rfl
  | @cons a as _ rest ih =>
    obtain ⟨i, rfl, hi⟩ := outlines
    obtain ⟨c, hc, _, cdr⟩ := charts.cells _ a hi
    rw [List.length_cons, Image.after?, hc]
    exact ih cdr

/-- The image of a heap whose root is a list of at least two cells is valid. -/
theorem validate_of_charts {image : Image} {h : Heap} {root : Value} {order holders : List Addr}
    (charts : image.Charts (image.Outlines order) h root order) (spine : h.Spine root holders)
    (two : 2 ≤ holders.length) : image.validate = .ok () := by
  have complete : image.Complete := by
    refine ⟨fun c mem => ?_, has_of_outlines charts charts.root⟩
    obtain ⟨i, lt, same⟩ := Array.mem_iff_getElem.mp mem
    have here : i < order.length := by rwa [charts.length]
    obtain ⟨c', hc, car, cdr⟩ := charts.cells i order[i] (List.getElem?_eq_getElem here)
    obtain rfl : c = c' := same.symm.trans (Array.getElem?_eq_some_iff.mp hc).2
    exact ⟨has_of_outlines charts car, has_of_outlines charts cdr⟩
  exact complete.validate_of_chained ⟨_, two, after?_of_spine charts spine charts.root⟩

theorem outlines_of_shows {image : Image} {symbols : SymbolTable} {order : List Addr} {v : Value}
    {slot : Slot} (shows : image.Shows symbols order v slot) : image.Outlines order v slot := by
  cases v with
  | ident name =>
    obtain ⟨i, eq, hi⟩ := shows
    exact ⟨i, eq, (Array.getElem?_eq_some_iff.mp hi).1⟩
  | _ => exact shows

theorem validate_of_portrays {image : Image} {h : Heap} {symbols : SymbolTable} {root : Value}
    {order holders : List Addr} (portrays : image.Portrays h symbols root order)
    (spine : h.Spine root holders) (two : 2 ≤ holders.length) : image.validate = .ok () :=
  validate_of_charts ((portrays_iff.mp portrays).imp fun _ _ => outlines_of_shows) spine two

theorem Alike.pair_left {s t : Session} {f : Addr → Addr} {v : Value} {b : Addr}
    (alike : Alike s t f v (.pair b)) : ∃ a, v = .pair a ∧ b = f a := by
  cases v with
  | nil | truth | int | op => cases alike
  | ident => obtain ⟨j, eq, _⟩ := alike; cases eq
  | pair a => exact ⟨a, rfl, Value.pair.inj alike⟩

/-- A map that keeps car and cdr on what is reached is a map onto what is reached. -/
theorem bijOn_of_alike {s t : Session} {f : Addr → Addr} {root root' : Value}
    (start : Alike s t f root root')
    (keeps : ∀ a, s.heap.Reachable root a →
      Alike s t f (s.heap.car a) (t.heap.car (f a)) ∧ Alike s t f (s.heap.cdr a) (t.heap.cdr (f a)))
    (injective : Set.InjOn f {a | s.heap.Reachable root a}) :
    Set.BijOn f {a | s.heap.Reachable root a} {b | t.heap.Reachable root' b} := by
  refine ⟨fun a ha => ?_, injective, fun b hb => ?_⟩
  · show t.heap.Reachable root' (f a)
    induction (show s.heap.Reachable root a from ha) with
    | root here => subst here; exact .root start
    | car before link ih =>
      have alike := (keeps _ before).1
      rw [link] at alike
      exact (ih before).car alike
    | cdr before link ih =>
      have alike := (keeps _ before).2
      rw [link] at alike
      exact (ih before).cdr alike
  · show ∃ a, s.heap.Reachable root a ∧ f a = b
    induction (show t.heap.Reachable root' b from hb) with
    | root here =>
      subst here
      obtain ⟨a, eq, rfl⟩ := start.pair_left
      exact ⟨a, .root eq, rfl⟩
    | car before link ih =>
      obtain ⟨a, reached, rfl⟩ := ih before
      have alike := (keeps a reached).1
      rw [link] at alike
      obtain ⟨c, eq, rfl⟩ := alike.pair_left
      exact ⟨c, reached.car eq, rfl⟩
    | cdr before link ih =>
      obtain ⟨a, reached, rfl⟩ := ih before
      have alike := (keeps a reached).2
      rw [link] at alike
      obtain ⟨c, eq, rfl⟩ := alike.pair_left
      exact ⟨c, reached.cdr eq, rfl⟩

/-- What a captured image shows of a value, its cells placed from `base` on, is like the value. -/
theorem alike_of_shows {s t : Session} {order : List Addr} (nodup : order.Nodup) {base : Nat}
    {names : Array Symbol}
    (known : ∀ (i : Nat) (name : String), s.image.names[i]? = some name →
      names[i]?.getD default < t.symbols.count ∧ t.symbols.name (names[i]?.getD default) = name)
    {v : Value} {slot : Slot} (shows : s.image.Shows s.symbols order v slot) :
    Alike s t (fun a => base + order.idxOf a) v (slotValue names base slot) := by
  cases v with
  | nil | truth | int | op => cases shows; rfl
  | ident name =>
    obtain ⟨i, rfl, hi⟩ := shows
    exact ⟨_, rfl, known _ _ hi⟩
  | pair a =>
    obtain ⟨i, rfl, hi⟩ := shows
    obtain ⟨lt, eq⟩ := List.getElem?_eq_some_iff.mp hi
    have place : order.idxOf a = i.toNat := by rw [← eq, nodup.idxOf_getElem]
    simp only [Alike, slotValue, place]

/-- The second session has the global graph and the name tables of the first one, each cell of it
at its place under `f`. -/
structure Mirrors (s t : Session) (f : Addr → Addr) : Prop where
  owned : ∀ a, s.heap.Reachable s.globals.env a → f a < t.heap.size
  injective : Set.InjOn f {a | s.heap.Reachable s.globals.env a}
  root : Alike s t f s.globals.env t.globals.env
  cells : ∀ a, s.heap.Reachable s.globals.env a →
    Alike s t f (s.heap.car a) (t.heap.car (f a)) ∧ Alike s t f (s.heap.cdr a) (t.heap.cdr (f a))
  functions : t.globals.functions.map t.symbols.name = s.globals.functions.map s.symbols.name
  macros : t.globals.macros.map t.symbols.name = s.globals.macros.map s.symbols.name
  knownFunctions : ∀ n ∈ t.globals.functions, n < t.symbols.count
  knownMacros : ∀ n ∈ t.globals.macros, n < t.symbols.count

theorem image_portrays {s : Session} (inRange : s.InRange)
    (words : s.symbols.count ≤ UInt32.size) :
    ∃ order, s.image.Portrays s.heap s.symbols s.globals.env order := by
  have named : ∀ v name, s.Knows v → v = .ident name → name < UInt32.size := by
    rintro v name knows rfl
    exact Nat.lt_of_lt_of_le knows words
  exact @Image.capture_portrays s.heap s.symbols s.globals inRange.closed inRange.env.owns
    (fun a name h => h.elim (named _ name (inRange.cells a).1) (named _ name (inRange.cells a).2))
    (fun name => named _ name inRange.env)

theorem mirrors_of_restore {s t t' : Session} (inRange : s.InRange)
    (words : s.symbols.count ≤ UInt32.size) (run : restore s.image t = .ok () t') :
    ∃ f, Mirrors s t' f := by
  obtain ⟨order, portrays⟩ := image_portrays inRange words
  obtain ⟨valid, room⟩ := room_of_restore run
  obtain ⟨t'', value, run', size, before, filled, root, functions, macros, knownFunctions,
    knownMacros, _, names, rfl, known⟩ := restore_spec valid room
  obtain rfl : t'' = t' := by
    rw [run] at run'
    cases run'
    rfl
  have alike {v : Value} {slot : Slot} (shows : s.image.Shows s.symbols order v slot) :
      Alike s t'' (fun a => t.heap.size + order.idxOf a) v (slotValue names t.heap.size slot) :=
    alike_of_shows portrays.nodup known shows
  refine ⟨fun a => t.heap.size + order.idxOf a, ?_, ?_, ?_, ?_, functions, macros,
    knownFunctions, knownMacros⟩
  · intro a reached
    have place := List.idxOf_lt_length_of_mem ((portrays.mem_iff a).mpr reached)
    rw [portrays.length] at place
    rw [size]
    exact Nat.add_lt_add_left place _
  · intro a ha b hb same
    have mem := (portrays.mem_iff a).mpr ha
    exact (List.idxOf_inj mem).mp (Nat.add_left_cancel same)
  · rw [root]
    exact alike portrays.root
  · intro a reached
    have here := List.getElem?_idxOf ((portrays.mem_iff a).mpr reached)
    obtain ⟨c, hc, car, cdr⟩ := portrays.cells _ a here
    have cell := filled _ c hc
    have first : t''.heap.car (t.heap.size + order.idxOf a) = slotValue names t.heap.size c.car :=
      congrArg Cell.car cell
    have second : t''.heap.cdr (t.heap.size + order.idxOf a) = slotValue names t.heap.size c.cdr :=
      congrArg Cell.cdr cell
    rw [first, second]
    exact ⟨alike car, alike cdr⟩

/-- Capture, then restore. The image of a session has each reachable cell once. Installed in any
session with room for it, it takes just its own number of new cells, leaves the old ones alone,
and gives a global graph and name tables like those it was taken from. -/
theorem capture_restore {s : Session} (inRange : s.InRange) (words : s.symbols.count ≤ UInt32.size)
    {holders : List Addr} (env : s.heap.Spine s.globals.env holders) (two : 2 ≤ holders.length) :
    (∃ log, Session.capture s = .ok s.image { s with log }) ∧
    (∃ order, s.image.Portrays s.heap s.symbols s.globals.env order) ∧
    ∀ t : Session, t.heap.size + s.image.cells.size ≤ t.heap.capacity →
      ∃ t' f, restore s.image t = .ok () t' ∧
        t'.heap.size = t.heap.size + s.image.cells.size ∧
        (∀ a < t.heap.size, t'.heap.cell a = t.heap.cell a) ∧
        Set.BijOn f {a | s.heap.Reachable s.globals.env a} {b | t'.heap.Reachable t'.globals.env b} ∧
        Alike s t' f s.globals.env t'.globals.env ∧
        (∀ a, s.heap.Reachable s.globals.env a →
          Alike s t' f (s.heap.car a) (t'.heap.car (f a)) ∧
          Alike s t' f (s.heap.cdr a) (t'.heap.cdr (f a))) ∧
        t'.globals.functions.map t'.symbols.name = s.globals.functions.map s.symbols.name ∧
        t'.globals.macros.map t'.symbols.name = s.globals.macros.map s.symbols.name := by
  obtain ⟨order, portrays⟩ := image_portrays inRange words
  refine ⟨⟨_, rfl⟩, ⟨order, portrays⟩, fun t room => ?_⟩
  obtain ⟨t', _, run, size, before, _⟩ := restore_spec (validate_of_portrays portrays env two) room
  obtain ⟨f, mirrors⟩ := mirrors_of_restore inRange words run
  have bijection := bijOn_of_alike mirrors.root mirrors.cells mirrors.injective
  exact ⟨t', f, run, size, before, bijection, mirrors.root, mirrors.cells, mirrors.functions,
    mirrors.macros⟩

/-- A session whose value frame holds the global environment that it is part of. -/
def selfHolding : Session :=
  ⟨⟨#[⟨.pair 2, .pair 1⟩, ⟨.nil, .nil⟩, ⟨.pair 0, .nil⟩], 8, by decide, by decide⟩,
    .initial, ⟨.pair 0, [3], []⟩, .empty .quiet⟩

theorem inRange_selfHolding : selfHolding.InRange where
  cells
    | 0 => by decide
    | 1 => by decide
    | 2 => by decide
    | _ + 3 => ⟨trivial, trivial⟩
  env := by decide
  functions := by decide
  macros := by decide

theorem spine_selfHolding : selfHolding.heap.Spine selfHolding.globals.env [0, 1] :=
  .cons (by decide) (.cons (by decide) .nil)

theorem restore_selfHolding : ∃ t' f, restore selfHolding.image selfHolding = .ok () t' ∧
    Set.BijOn f {a | selfHolding.heap.Reachable selfHolding.globals.env a}
      {b | t'.heap.Reachable t'.globals.env b} := by
  obtain ⟨_, _, installed⟩ :=
    capture_restore inRange_selfHolding (by decide) spine_selfHolding (by decide)
  obtain ⟨t', f, run, _, _, bijection, _⟩ := installed selfHolding (by decide)
  exact ⟨t', f, run, bijection⟩

/-- A session with room for sixteen cells, before anything is evaluated. -/
def fresh : Session :=
  ⟨⟨#[⟨.nil, .nil⟩, ⟨.nil, .pair 0⟩], 16, by decide, by decide⟩, .initial, ⟨.pair 1, [], []⟩,
    .empty .quiet⟩

theorem create_fresh : create 16 .quiet = .ok fresh := rfl

end Session

end SecdLisp
