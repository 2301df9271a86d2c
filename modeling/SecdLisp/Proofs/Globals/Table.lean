import SecdLisp.Proofs.Globals.Frames

/-!
# Environments as tables

An environment that uses no cell twice is a table: a list of rows of values. A variable is then a
place of the table. Reading it, taking the rest of its row and storing there do to the cells what
they would do to the table, and a store that runs out of room only makes its row longer.
-/

namespace SecdLisp

/-- The values of an environment, frame by frame. -/
abbrev ValueTable := List (List Value)

namespace ValueTable

/-- The value at a place; the rows and their values are counted from one. -/
def lookup? (t : ValueTable) (depth index : Nat) : Option Value :=
  t[depth - 1]?.bind fun row => row[index - 1]?

/-- A row without the values before a place. There may be nothing at the place itself. -/
def rest? (t : ValueTable) (depth index : Nat) : Option (List Value) :=
  t[depth - 1]?.bind fun row =>
    if index - 1 ≤ row.length then some (row.drop (index - 1)) else none

/-- The table with a value put in a place. -/
def store (t : ValueTable) (depth index : Nat) (v : Value) : ValueTable :=
  t.modify (depth - 1) fun row => Heap.put row index v

/-- The table with a row made that long. -/
def pad (t : ValueTable) (depth length : Nat) : ValueTable :=
  t.modify (depth - 1) fun row => Heap.padded row length

/-- What could be read from a table can be read when a row has been made longer. -/
theorem lookup?_pad {t : ValueTable} {d i : Nat} {v : Value} (found : t.lookup? d i = some v)
    (depth length : Nat) : (t.pad depth length).lookup? d i = some v := by
  simp only [lookup?, pad, Option.bind_eq_some_iff, List.getElem?_modify] at found ⊢
  obtain ⟨row, here, value⟩ := found
  rw [here]
  by_cases same : depth - 1 = d - 1
  · refine ⟨Heap.padded row length, by simp [same], ?_⟩
    rw [Heap.padded, List.getElem?_append_left (List.getElem?_eq_some_iff.mp value).1, value]
  · exact ⟨row, by simp [same], value⟩

end ValueTable

/-- The cells of a frame, and the one that holds it. -/
structure Row where
  holder : Addr
  cells : List Addr

def Row.all (r : Row) : List Addr := r.holder :: r.cells

namespace Heap

variable {h h' : Heap} {env v : Value} {rows front back : List Row} {r : Row} {cells as : List Addr}
  {depth index k : Nat}

/-- An environment is a list of frames, which are lists, and none of their cells is used twice. -/
structure Tabulates (h : Heap) (env : Value) (rows : List Row) : Prop where
  holders : h.Spine env (rows.map Row.holder)
  frames : ∀ r ∈ rows, h.Spine (h.car r.holder) r.cells
  nodup : (rows.flatMap Row.all).Nodup

def table (h : Heap) (rows : List Row) : ValueTable := rows.map fun r => r.cells.map h.car

theorem getElem?_table (h : Heap) (rows : List Row) (k : Nat) :
    (h.table rows)[k]? = rows[k]?.map fun r => r.cells.map h.car := List.getElem?_map ..

namespace Tabulates

theorem frameHolder? (tab : h.Tabulates env rows) (deep : 0 < depth) :
    h.frameHolder? env depth = rows[depth - 1]?.map Row.holder := by
  obtain ⟨k, rfl⟩ := Nat.exists_eq_add_one.mpr deep
  simp [Heap.frameHolder?, tab.holders.nthCell?]

theorem owned (tab : h.Tabulates env rows) (mem : r ∈ rows) {a : Addr} (inside : a ∈ r.all) :
    a < h.size := by
  rcases List.mem_cons.mp inside with rfl | inside
  · exact tab.holders.owned (List.mem_map_of_mem mem)
  · exact (tab.frames r mem).owned inside

theorem seats (tab : h.Tabulates env rows) (mem : r ∈ rows) : h.Seats r.holder r.cells where
  owned := tab.owned mem (List.mem_cons_self ..)
  apart := (List.nodup_cons.mp ((List.nodup_flatMap.mp tab.nodup).1 r mem)).1
  spine := tab.frames r mem

theorem lookup? (tab : h.Tabulates env rows) (deep : 0 < depth) (positive : 0 < index) :
    h.lookup? env depth index = (h.table rows).lookup? depth index := by
  have found := tab.frameHolder? deep
  rw [ValueTable.lookup?, getElem?_table]
  cases here : rows[depth - 1]? with
  | none =>
    rw [here] at found
    simp [Heap.lookup?, found]
  | some r =>
    rw [here] at found
    exact (tab.seats (List.mem_of_getElem? here)).lookup? found positive

end Tabulates

theorem Spine.dropCells? (spine : h.Spine v as) (n : Nat) :
    Option.Rel h.Spine (h.dropCells? n v) (if n ≤ as.length then some (as.drop n) else none) := by
  induction spine generalizing n with
  | nil =>
    cases n with
    | zero => exact .some .nil
    | succ n => exact .none
  | @cons a as owned rest ih =>
    cases n with
    | zero => exact .some (.cons owned rest)
    | succ n => simpa [Heap.dropCells?] using ih n

theorem Tabulates.lookupRest? (tab : h.Tabulates env rows) (deep : 0 < depth)
    (positive : 0 < index) :
    Option.Rel h.Lists (h.lookupRest? env depth index) ((h.table rows).rest? depth index) := by
  have found := tab.frameHolder? deep
  rw [Heap.lookupRest?, if_neg (Nat.ne_of_gt positive), found, ValueTable.rest?, getElem?_table]
  cases here : rows[depth - 1]? with
  | none => exact .none
  | some r =>
    have rest := (tab.frames r (List.mem_of_getElem? here)).dropCells? (index - 1)
    simp only [Option.map_some, Option.bind_some, List.length_map, ← List.map_drop]
    generalize h.dropCells? (index - 1) (h.car r.holder) = found at rest ⊢
    by_cases inside : index - 1 ≤ r.cells.length
    · rw [if_pos inside] at rest ⊢
      cases rest with
      | some spine => exact .some ⟨_, spine, rfl⟩
    · rw [if_neg inside] at rest ⊢
      cases rest
      exact .none

/-- Only one row changed, and only in cells that are its own or new. -/
def Rewrites (h : Heap) (env : Value) (rows : List Row) (depth : Nat) (t : ValueTable) (h' : Heap) :
    Prop :=
  ∃ r cells, rows[depth - 1]? = some r ∧
    h'.Tabulates env (rows.set (depth - 1) ⟨r.holder, cells⟩) ∧
    h'.table (rows.set (depth - 1) ⟨r.holder, cells⟩) = t ∧
    ∀ a < h.size, a ∉ r.all → h'.cell a = h.cell a

theorem nodup_rows : ((front ++ r :: back).flatMap Row.all).Nodup ↔
    r.all.Nodup ∧ ((front ++ back).flatMap Row.all).Nodup ∧
      r.all.Disjoint ((front ++ back).flatMap Row.all) := by
  rw [List.flatMap_append, List.flatMap_cons, List.flatMap_append, ← List.nodup_append']
  exact List.perm_append_comm_assoc .. |>.nodup_iff

/-- A frame can be given other cells, as long as those that are not new were its own. -/
theorem Tabulates.reseat (tab : h.Tabulates env (front ++ r :: back))
    (same : ∀ a < h.size, a ∉ r.all → h'.cell a = h.cell a) (le : h.size ≤ h'.size)
    (link : h'.cdr r.holder = h.cdr r.holder) (seats : h'.Seats r.holder cells)
    (within : ∀ a ∈ cells, a ∈ r.cells ∨ h.size ≤ a) :
    h'.Tabulates env (front ++ ⟨r.holder, cells⟩ :: back) ∧
      h'.table (front ++ ⟨r.holder, cells⟩ :: back) =
        h.table front ++ cells.map h'.car :: h.table back := by
  obtain ⟨_, unlike, disjoint⟩ := nodup_rows.mp tab.nodup
  have mem {s : Row} (other : s ∈ front ++ back) : s ∈ front ++ r :: back := by
    simp only [List.mem_append, List.mem_cons] at other ⊢
    exact other.imp_right .inr
  have kept (s : Row) (other : s ∈ front ++ back) (a : Addr) (inside : a ∈ s.all) :
      h'.cell a = h.cell a :=
    same a (tab.owned (mem other) inside) fun both =>
      disjoint both (List.mem_flatMap.mpr ⟨s, other, inside⟩)
  have values (rs : List Row) (others : ∀ s ∈ rs, s ∈ front ++ back) : h'.table rs = h.table rs :=
    List.map_congr_left fun s inside => List.map_congr_left fun a cell =>
      congrArg Cell.car (kept s (others s inside) a (List.mem_cons_of_mem _ cell))
  constructor
  · constructor
    · have holders := tab.holders
      simp only [List.map_append, List.map_cons] at holders ⊢
      apply holders.congr le
      intro a inside
      simp only [List.mem_append, List.mem_cons, List.mem_map] at inside
      by_cases here : a = r.holder
      · rw [here, link]
      · obtain ⟨s, other, rfl⟩ : ∃ s ∈ front ++ back, s.holder = a := by
          simp only [List.mem_append]
          grind
        exact congrArg Cell.cdr (kept s other _ (List.mem_cons_self ..))
    · intro s inside
      by_cases other : s ∈ front ++ back
      · have cell := kept s other s.holder (List.mem_cons_self ..)
        rw [Heap.car, cell]
        apply (tab.frames s (mem other)).congr le
        intro a cell
        exact congrArg Cell.cdr (kept s other a (List.mem_cons_of_mem _ cell))
      · simp only [List.mem_append, List.mem_cons] at inside other
        obtain rfl : s = ⟨r.holder, cells⟩ := by tauto
        exact seats.spine
    · apply nodup_rows.mpr
      refine ⟨List.nodup_cons.mpr ⟨seats.apart, seats.spine.nodup⟩, unlike, ?_⟩
      intro a inside other
      obtain ⟨s, mem', cell⟩ := List.mem_flatMap.mp other
      have old := tab.owned (mem mem') cell
      rcases List.mem_cons.mp inside with rfl | inside
      · exact disjoint (List.mem_cons_self ..) other
      · have known := (within a inside).resolve_right (Nat.not_le_of_lt old)
        exact disjoint (List.mem_cons_of_mem _ known) other
  · have first := values front fun s inside => List.mem_append_left _ inside
    have second := values back fun s inside => List.mem_append_right _ inside
    show h'.table _ = _
    rw [table, List.map_append, List.map_cons]
    exact congrArg₂ _ first (congrArg _ second)

/-- What a store makes of the cells of one frame it makes of one row. -/
theorem Tabulates.rewrites (tab : h.Tabulates env rows) (here : rows[depth - 1]? = some r)
    (spares : h.Spares (fun a => (a ∈ r.cells ∨ h.size ≤ a) ∨ a = r.holder) h')
    (link : h'.cdr r.holder = h.cdr r.holder) (seats : h'.Seats r.holder cells)
    (within : ∀ a ∈ cells, a ∈ r.cells ∨ h.size ≤ a) {change : List Value → List Value}
    (values : cells.map h'.car = change (r.cells.map h.car)) :
    h.Rewrites env rows depth ((h.table rows).modify (depth - 1) change) h' := by
  have same (a : Addr) (lt : a < h.size) (out : a ∉ r.all) : h'.cell a = h.cell a := by
    apply spares.cell a lt
    simp only [Row.all, List.mem_cons, not_or] at out
    simp [out, Nat.not_le_of_lt lt]
  obtain ⟨front, back, rfl, count⟩ : ∃ front back, rows = front ++ r :: back ∧ front.length = depth - 1 := by
    obtain ⟨lt, rfl⟩ := List.getElem?_eq_some_iff.mp here
    refine ⟨rows.take (depth - 1), rows.drop (depth - 1 + 1), ?_, by simp; omega⟩
    simp
  have reseated := tab.reseat same spares.size_le link seats within
  have replaced : (front ++ r :: back).set (depth - 1) ⟨r.holder, cells⟩ =
      front ++ ⟨r.holder, cells⟩ :: back := by
    simp [← count]
  refine ⟨r, cells, here, replaced ▸ reseated.1, ?_, same⟩
  rw [replaced, reseated.2, values]
  simp [table, ← count, List.modify_eq_take_drop]

/-- A store finds its row, or there is none. One that finds it fails only by running out of room. -/
theorem Tabulates.ends_store (tab : h.Tabulates env rows) (deep : 0 < depth) (positive : 0 < index)
    (v : Value) : Ends (store env depth index v) h
      (fun stored h' => if depth ≤ rows.length then
          stored = true ∧ h.Rewrites env rows depth ((h.table rows).store depth index v) h'
        else stored = false ∧ h' = h)
      (fun e h' => e = .heapFull ∧
        ∃ length < index, h.Rewrites env rows depth ((h.table rows).pad depth length) h') := by
  have found := tab.frameHolder? deep
  by_cases inside : depth ≤ rows.length
  · have lt : depth - 1 < rows.length := by omega
    have here : rows[depth - 1]? = some rows[depth - 1] := List.getElem?_eq_getElem lt
    have seats := tab.seats (List.getElem_mem lt)
    rw [here, Option.map_some] at found
    have spares := seats.spares_store found index v
    have ends := Heap.ends_store (v := v) seats found positive
    simp only [inside, if_true]
    unfold left at spares
    unfold Ends at ends ⊢
    cases run : Heap.store env depth index v h with
    | ok stored h' =>
      rw [run] at ends spares
      obtain ⟨done, link, cells, seats', values, within⟩ := ends
      exact ⟨done, tab.rewrites here spares link seats' within values⟩
    | error e h' =>
      rw [run] at ends spares
      obtain ⟨⟨full, _⟩, cells, few, seats', grew⟩ := ends
      have link := grew.links _ seats.owned seats.apart
      exact ⟨full, _, few, tab.rewrites here spares link seats' grew.cells grew.values⟩
  · have none : rows[depth - 1]? = none := List.getElem?_eq_none (by omega)
    rw [none] at found
    rw [Heap.store, if_neg (Nat.ne_of_gt positive)]
    simp [found, inside]

theorem Rewrites.lookup?_pad {length d i : Nat} (tab : h.Tabulates env rows)
    (rewrites : h.Rewrites env rows depth ((h.table rows).pad depth length) h')
    (found : h.lookup? env d i = some v) : h'.lookup? env d i = some v := by
  obtain ⟨r, cells, _, tab', values, _⟩ := rewrites
  have deep : 0 < d := by
    by_contra zero
    simp [Heap.lookup?, Heap.frameHolder?, Nat.eq_zero_of_not_pos zero] at found
  have positive : 0 < i := by
    by_contra zero
    simp [Heap.lookup?, Nat.eq_zero_of_not_pos zero] at found
  rw [tab.lookup? deep positive] at found
  rw [tab'.lookup? deep positive, values]
  exact ValueTable.lookup?_pad found depth length

/-- Addresses of variables are places of the table that an environment is. -/
theorem addresses_table (tab : h.Tabulates env rows) (deep : 0 < depth) (positive : 0 < index)
    (v : Value) :
    h.lookup? env depth index = (h.table rows).lookup? depth index ∧
    Option.Rel h.Lists (h.lookupRest? env depth index) ((h.table rows).rest? depth index) ∧
    Ends (store env depth index v) h
      (fun stored h' => if depth ≤ rows.length then
          stored = true ∧ h.Rewrites env rows depth ((h.table rows).store depth index v) h'
        else stored = false ∧ h' = h)
      (fun e h' => e = .heapFull ∧
        (∃ length < index, h.Rewrites env rows depth ((h.table rows).pad depth length) h') ∧
        ∀ d i u, h.lookup? env d i = some u → h'.lookup? env d i = some u) := by
  refine ⟨tab.lookup? deep positive, tab.lookupRest? deep positive, ?_⟩
  apply (tab.ends_store deep positive v).mono fun _ _ => id
  rintro e h' ⟨full, length, few, rewrites⟩
  exact ⟨full, ⟨length, few, rewrites⟩, fun d i u => rewrites.lookup?_pad tab⟩

/-- The environment `((1) nil)`, with room for two more cells. -/
def small : Heap :=
  ⟨#[⟨.int 1, .nil⟩, ⟨.nil, .nil⟩, ⟨.pair 0, .pair 1⟩], 5, by decide, by decide⟩

def smallRows : List Row := [⟨2, [0]⟩, ⟨1, []⟩]

theorem tabulates_small : small.Tabulates (.pair 2) smallRows where
  holders := .cons (by decide) (.cons (by decide) .nil)
  frames r mem := by
    simp only [smallRows, List.mem_cons, List.not_mem_nil, or_false] at mem
    obtain rfl | rfl := mem
    · exact .cons (by decide) .nil
    · exact .nil
  nodup := by decide

/-- The third slot of the first frame is behind its end, until something is stored there. -/
theorem addresses_table_small :
    small.lookup? (.pair 2) 1 3 = none ∧
    Option.Rel small.Lists (small.lookupRest? (.pair 2) 1 3) none ∧
    ∃ h', store (.pair 2) 1 3 (.int 7) small = .ok true h' ∧
      small.Rewrites (.pair 2) smallRows 1 [[.int 1, .nil, .int 7], []] h' := by
  obtain ⟨found, rest, ends⟩ :=
    addresses_table tabulates_small (by decide : 0 < 1) (by decide : 0 < 3) (.int 7)
  have stored : value? (store (.pair 2) 1 3 (.int 7)) small = some true := by decide
  have run := eq_ok_of_value? stored
  exact ⟨found, rest, _, run, (ends.of_eq_ok run).2⟩

end Heap

end SecdLisp
