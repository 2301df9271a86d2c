import SecdLisp.Proofs.Restore
import SecdLisp.Proofs.Validation

/-!
# Images that are refused

An image is checked before anything is changed, and the only thing that can fail after the check is
to find room for its cells. So a refused image leaves the session as it was, and one that there is
no room for takes the room that was left and some new names. No index leads out of its array on the
way: with every index checked, restoring is the same.
-/

namespace SecdLisp

section Checked

variable {σ α β : Type} {x : OptionT (EStateM Error σ) α} {y : EStateM Error σ α} {s : σ}

/-- The work whose indices are checked finds all of them in range, and is the work that does not
check them. -/
def Agrees (x : OptionT (EStateM Error σ) α) (y : EStateM Error σ α) (s : σ) : Prop :=
  x.run s = (some <$> y) s

theorem agrees_lift (y : EStateM Error σ α) (s : σ) : Agrees (OptionT.lift y) y s := rfl

theorem agrees_some {o : Option α} {a : α} (found : o = some a) (s : σ) :
    Agrees (OptionT.mk (pure o)) (pure a) s := by
  rw [found]
  rfl

theorem Agrees.bind {f : α → OptionT (EStateM Error σ) β} {g : α → EStateM Error σ β}
    (first : Agrees x y s) (next : ∀ a s', y s = .ok a s' → Agrees (f a) (g a) s') :
    Agrees (x >>= f) (y >>= g) s := by
  unfold Agrees at first ⊢
  rw [OptionT.run_bind, Option.elimM, map_bind]
  cases run : y s with
  | ok a s' =>
    have found : x.run s = .ok (some a) s' := by
      rw [first, map_eq_pure_bind, bind_of_eq_ok run]
      rfl
    rw [bind_of_eq_ok found, bind_of_eq_ok run]
    exact next a s' run
  | error e s' =>
    have failed : x.run s = .error e s' := by rw [first, map_eq_pure_bind, bind_of_eq_error run]
    rw [bind_of_eq_error failed, bind_of_eq_error run]

end Checked

namespace Image

def walk? (image : Image) : (fuel : Nat) → Slot → Nat → Option (Option (Nat × Slot))
  | 0, .pair _, _ => some none
  | fuel + 1, .pair i, n => image.cells[i.toNat]?.bind fun c => image.walk? fuel c.cdr (n + 1)
  | _, atom, n => some (some (n, atom))

def validate? (image : Image) : Option (Except ImageError Unit) :=
  if !(image.cells.all fun c => image.inRange c.car && image.inRange c.cdr)
      || !image.inRange image.root then
    some (.error .indexOutOfRange)
  else
    (image.walk? image.cells.size image.root 0).map fun
      | none => .error .cyclicEnvironment
      | some (frames, last) =>
        if frames < 2 ∨ last ≠ .nil then .error .malformedEnvironment else .ok ()

variable {image : Image}

theorem Complete.walk?_eq (complete : image.Complete) {slot : Slot} (has : image.Has slot)
    (fuel n : Nat) : image.walk? fuel slot n = some (image.walk fuel slot n) := by
  induction fuel generalizing slot n with
  | zero => cases slot <;> rfl
  | succ fuel ih =>
    cases slot with
    | pair i =>
      obtain ⟨c, here, has⟩ := complete.cell has
      rw [walk?, walk, here, Option.bind_some, Option.getD_some]
      exact ih has (n + 1)
    | _ => rfl

theorem validate?_eq (image : Image) : image.validate? = some image.validate := by
  by_cases complete : image.Complete
  · obtain ⟨cells, root⟩ := complete_iff.mp complete
    rw [complete.validate_eq, validate?, cells, root, complete.walk?_eq complete.root]
    rfl
  · rw [validate_of_not_complete complete]
    rw [complete_iff, ← Bool.and_eq_true, Bool.not_eq_true, Bool.and_eq_false_iff] at complete
    rw [validate?, if_pos (by simpa using complete)]

end Image

namespace Session

open Image

def slotValue? (names : Array Symbol) (cells : Array Addr) : Slot → Option Value
  | .nil => some .nil
  | .truth => some .truth
  | .int n => some (.int n)
  | .ident i => names[i.toNat]?.map .ident
  | .op o => some (.op o)
  | .pair i => cells[i.toNat]?.map .pair

def update? (a : Addr) (c : Cell) : OptionT HeapM Unit := OptionT.mk fun h =>
  if a < h.size then (some <$> Heap.update a fun _ => c) h else .ok none h

def fillCells? (value : Slot → Option Value) : Addr → List ImageCell → OptionT HeapM Unit
  | _, [] => return
  | a, c :: cells => do
    let car ← OptionT.mk (pure (value c.car))
    let cdr ← OptionT.mk (pure (value c.cdr))
    update? a ⟨car, cdr⟩
    fillCells? value (a + 1) cells

/-- Install an image, with every index checked. -/
def restore? (image : Image) : OptionT SessionM Unit := do
  match ← OptionT.mk (pure image.validate?) with
  | .error cause => OptionT.lift (throw (.image cause))
  | .ok () =>
    let names ← OptionT.lift (internAll image.names.toList)
    let base ← OptionT.lift (onHeap (Heap.read Heap.size))
    OptionT.lift (onHeap (allocBlank image.cells.size))
    let value := slotValue? names.toArray ((Array.range image.cells.size).map (base + ·))
    OptionT.mk (onHeap (fillCells? value base image.cells.toList).run)
    let functions ← OptionT.lift (internAll image.functions)
    let macros ← OptionT.lift (internAll image.macros)
    let root ← OptionT.mk (pure (value image.root))
    OptionT.lift fun s => .ok () { s with globals := ⟨root, functions, macros⟩ }
    OptionT.lift (report (.restored image.cells.size))

variable {image : Image} {names : Array Symbol} {base : Addr} {slot : Slot}

theorem slotValue?_eq (count : names.size = image.names.size) (has : image.Has slot) :
    slotValue? names ((Array.range image.cells.size).map (base + ·)) slot =
      some (slotValue names base slot) := by
  cases slot with
  | ident i =>
    have lt : i.toNat < names.size := by
      rw [count]
      exact has
    simp [slotValue?, slotValue, Array.getElem?_eq_getElem lt]
  | pair i =>
    have lt : i.toNat < image.cells.size := has
    simp [slotValue?, slotValue, lt]
  | _ => rfl

theorem agrees_update? {h : Heap} {a : Addr} {c : Cell} (owned : a < h.size) :
    Agrees (update? a c) (Heap.update a fun _ => c) h := if_pos owned

theorem agrees_fillCells? {value? : Slot → Option Value} {value : Slot → Value}
    {cells : List ImageCell} (known : ∀ c ∈ cells, value? c.car = some (value c.car) ∧
      value? c.cdr = some (value c.cdr)) {a : Nat} {h : Heap}
    (owned : a + cells.length ≤ h.size) :
    Agrees (fillCells? value? a cells) (fillCells value a cells) h := by
  induction cells generalizing a h with
  | nil => exact agrees_lift (pure ()) h
  | cons c cells ih =>
    rw [List.forall_mem_cons] at known
    rw [List.length_cons] at owned
    obtain ⟨⟨car, cdr⟩, known⟩ := known
    have fill : fillCells value a (c :: cells) = (do
        let car ← pure (value c.car)
        let cdr ← pure (value c.cdr)
        Heap.update a fun _ => ⟨car, cdr⟩
        fillCells value (a + 1) cells) := rfl
    rw [fill]
    refine (agrees_some car h).bind ?_
    rintro _ _ ⟨⟩
    refine (agrees_some cdr h).bind ?_
    rintro _ _ ⟨⟩
    have here : a < h.size := by omega
    refine (agrees_update? here).bind fun _ h' updated => ih known ?_
    rw [Heap.update_eq] at updated
    cases updated
    rw [Heap.size_updated]
    omega

theorem agrees_onHeap {x : OptionT HeapM Unit} {y : HeapM Unit} {s : Session}
    (agrees : Agrees x y s.heap) : Agrees (OptionT.mk (onHeap x.run)) (onHeap y) s := by
  obtain ⟨h, symbols, globals, log⟩ := s
  unfold Agrees at *
  show onHeap x.run ⟨h, symbols, globals, log⟩ = (some <$> onHeap y) ⟨h, symbols, globals, log⟩
  rw [map_eq_pure_bind] at agrees ⊢
  cases run : y h with
  | ok _ h' =>
    have found : x.run h = .ok (some ()) h' := by rw [agrees, bind_of_eq_ok run]; rfl
    have done : onHeap y ⟨h, symbols, globals, log⟩ = .ok () ⟨h', symbols, globals, log⟩ := by
      rw [onHeap, run]
    rw [bind_of_eq_ok done, onHeap, found]
    rfl
  | error e h' =>
    have failed : x.run h = .error e h' := by rw [agrees, bind_of_eq_error run]
    have failed' : onHeap y ⟨h, symbols, globals, log⟩ = .error e ⟨h', symbols, globals, log⟩ := by
      rw [onHeap, run]
    rw [bind_of_eq_error failed', onHeap, failed]

theorem length_internAll {strings : List String} {s s' : Session} {symbols : List Symbol}
    (run : internAll strings s = .ok symbols s') : symbols.length = strings.length := by
  obtain ⟨_, numbers, run', _, _, spelled⟩ := internAll_spec strings s
  rw [run] at run'
  cases run'
  rw [← spelled, List.length_map]

/-- Restoring never follows an index out of range. -/
theorem agrees_restore? (image : Image) (s : Session) :
    Agrees (restore? image) (restore image) s := by
  have checked : restore image = (do
      match ← pure image.validate with
      | .error cause => throw (.image cause)
      | .ok () =>
        let names ← internAll image.names.toList
        let base ← onHeap (Heap.read Heap.size)
        onHeap (allocBlank image.cells.size)
        onHeap (fillCells (slotValue names.toArray base) base image.cells.toList)
        let functions ← internAll image.functions
        let macros ← internAll image.macros
        let root ← pure (slotValue names.toArray base image.root)
        fun s => .ok () { s with globals := ⟨root, functions, macros⟩ }
        report (.restored image.cells.size)) := by
    rw [pure_bind]
    rfl
  rw [checked]
  refine (agrees_some (validate?_eq image) s).bind ?_
  rintro _ _ ⟨⟩
  cases valid : image.validate with
  | error cause => exact agrees_lift _ s
  | ok _ =>
    obtain ⟨complete, -⟩ := validate_eq_ok_iff.mp valid
    refine (agrees_lift _ s).bind fun names s₁ interned => ?_
    refine (agrees_lift _ s₁).bind fun base s₂ seen => ?_
    have count : names.toArray.size = image.names.size := by
      rw [List.size_toArray, length_internAll interned, Array.length_toList]
    refine (agrees_lift _ s₂).bind fun _ s₃ blank => ?_
    refine (agrees_onHeap (agrees_fillCells? (fun c mem => ?_) ?_)).bind fun _ s₄ filled => ?_
    · obtain ⟨car, cdr⟩ := complete.cells c (Array.mem_toList_iff.mp mem)
      exact ⟨slotValue?_eq count car, slotValue?_eq count cdr⟩
    · obtain ⟨h, symbols, globals, log⟩ := s₁
      cases seen
      have ends := ends_allocBlank image.cells.size h
      rw [onHeap] at blank
      cases run : allocBlank image.cells.size h with
      | error e h' =>
        rw [run] at blank
        cases blank
      | ok _ h' =>
        rw [run] at blank
        cases blank
        rw [Array.length_toList]
        exact Nat.le_of_eq (ends.of_eq_ok run).2.symm
    refine (agrees_lift _ s₄).bind fun functions s₅ _ => ?_
    refine (agrees_lift _ s₅).bind fun macros s₆ _ => ?_
    refine (agrees_some (slotValue?_eq count complete.root) s₆).bind ?_
    rintro _ _ ⟨⟩
    exact (agrees_lift _ s₆).bind fun _ s₇ _ => agrees_lift _ s₇

/-- What is left of a session that had no room for an image: nothing but new cells, which take all
the room, and new names, which the image brought, has changed. -/
structure Exhausted (image : Image) (s s' : Session) : Prop where
  globals : s'.globals = s.globals
  log : s'.log = s.log
  cells : s.heap.Grows s'.heap
  capacity : s'.heap.capacity = s.heap.capacity
  full : s'.heap.size = s.heap.capacity
  names : ∃ new : List String, s'.symbols.names.toList = s.symbols.names.toList ++ new ∧
    ∀ name ∈ new, name ∈ image.names

theorem internAll_new {strings : List String} {s s' : Session} {numbers : List Symbol}
    (run : internAll strings s = .ok numbers s') : ∃ new : List String,
      s'.symbols.names.toList = s.symbols.names.toList ++ new ∧ ∀ name ∈ new, name ∈ strings := by
  induction strings generalizing s numbers with
  | nil =>
    cases run
    exact ⟨[], by simp, nofun⟩
  | cons name strings ih =>
    have first : intern name s = .ok (s.symbols.intern name).1
      { s with symbols := (s.symbols.intern name).2 } := rfl
    rw [internAll, bind_of_eq_ok first] at run
    obtain ⟨others, s₂, run, last⟩ := bind_eq_ok.mp run
    cases last
    obtain ⟨new, eq, brought⟩ := ih run
    have brought (n : String) (mem : n ∈ new) : n ∈ name :: strings :=
      List.mem_cons_of_mem _ (brought n mem)
    cases found : s.symbols.lookup? name with
    | some i =>
      rw [SymbolTable.intern_of_lookup? found] at eq
      exact ⟨new, eq, brought⟩
    | none =>
      rw [SymbolTable.names_intern_of_fresh found, Array.toList_push, List.append_assoc] at eq
      exact ⟨name :: new, eq, List.forall_mem_cons.mpr ⟨List.mem_cons_self, brought⟩⟩

theorem restore_of_invalid {cause : ImageError} (invalid : image.validate = .error cause)
    (s : Session) : restore image s = .error (.image cause) s := by
  simp only [restore, invalid]
  rfl

/-- Without enough room, a valid image is refused and the session exhausted. -/
theorem restore_of_full (valid : image.validate = .ok ()) {s : Session}
    (full : s.heap.capacity < s.heap.size + image.cells.size) :
    ∃ s', restore image s = .error .heapFull s' ∧ Exhausted image s s' := by
  obtain ⟨symbols, numbers, interned, -⟩ := internAll_spec image.names.toList s
  have ends := ends_allocBlank image.cells.size s.heap
  cases blank : allocBlank image.cells.size s.heap with
  | ok _ h =>
    have fits := (ends.of_eq_ok blank).1
    omega
  | error e h =>
    obtain ⟨rfl, -, grows, capacity, size⟩ := ends.of_eq_error blank
    refine ⟨⟨h, symbols, s.globals, s.log⟩, ?_, rfl, rfl, grows, capacity, size, ?_⟩
    · simp only [restore, valid, bind, EStateM.bind, interned, onHeap, Heap.read, blank]
    · obtain ⟨new, eq, brought⟩ := internAll_new interned
      exact ⟨new, eq, fun name mem => Array.mem_toList_iff.mp (brought name mem)⟩

/-- How restoring ends, for every image and every session. -/
theorem ends_restore (image : Image) (s : Session) : Ends (restore image) s
    (fun _ _ => image.validate = .ok () ∧ s.heap.size + image.cells.size ≤ s.heap.capacity)
    fun e s' => (∃ cause, e = .image cause ∧ image.validate = .error cause ∧ s' = s) ∨
      e = .heapFull ∧ image.validate = .ok () ∧
        s.heap.capacity < s.heap.size + image.cells.size ∧ Exhausted image s s' := by
  cases valid : image.validate with
  | error cause =>
    rw [Ends, restore_of_invalid valid]
    exact .inl ⟨cause, rfl, rfl, rfl⟩
  | ok _ =>
    by_cases room : s.heap.size + image.cells.size ≤ s.heap.capacity
    · obtain ⟨s', _, run, _⟩ := restore_spec valid room
      rw [Ends, run]
      exact ⟨rfl, room⟩
    · have full := Nat.lt_of_not_le room
      obtain ⟨s', run, exhausted⟩ := restore_of_full valid full
      rw [Ends, run]
      exact .inr ⟨rfl, rfl, full, exhausted⟩

/-- A failed restore does no damage. An image that is not valid leaves the session just as it was.
A valid one with more cells than the heap has free, and no other, fails for want of room, which
costs the room and new names only. There is no third way to fail, and no index is out of range. -/
theorem restore_harmless (image : Image) (s : Session) :
    (∀ cause s', restore image s = .error (.image cause) s' → s' = s) ∧
    ((∃ s', restore image s = .error .heapFull s') ↔ (image.Complete ∧ image.Chained) ∧
      s.heap.capacity - s.heap.size < image.cells.size) ∧
    (∀ s', restore image s = .error .heapFull s' → Exhausted image s s') ∧
    (∀ e s', restore image s = .error e s' → e = .heapFull ∨ ∃ cause, e = .image cause) ∧
    (restore? image).run s = (some <$> restore image) s := by
  have ends := ends_restore image s
  have within := s.heap.size_le_capacity
  refine ⟨fun cause s' run => ?_, ⟨fun run => ?_, fun both => ?_⟩, fun s' run => ?_,
    fun e s' run => ?_, agrees_restore? image s⟩
  · rcases ends.of_eq_error run with ⟨_, _, _, same⟩ | ⟨other, _⟩
    · exact same
    · cases other
  · obtain ⟨s', run⟩ := run
    rcases ends.of_eq_error run with ⟨_, other, _⟩ | ⟨_, valid, full, _⟩
    · cases other
    · exact ⟨validate_eq_ok_iff.mp valid, by omega⟩
  · obtain ⟨valid, full⟩ := both
    obtain ⟨s', run, _⟩ := restore_of_full (validate_eq_ok_iff.mpr valid) (s := s) (by omega)
    exact ⟨s', run⟩
  · rcases ends.of_eq_error run with ⟨_, other, _⟩ | ⟨_, _, _, exhausted⟩
    · cases other
    · exact exhausted
  · rcases ends.of_eq_error run with ⟨cause, eq, _⟩ | ⟨eq, _⟩
    · exact .inr ⟨cause, eq⟩
    · exact .inl eq

end Session

end SecdLisp
