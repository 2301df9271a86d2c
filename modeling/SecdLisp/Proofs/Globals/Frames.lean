import SecdLisp.Proofs.Upkeep.Heap

/-!
# Storing into a frame

A frame is a list that a cell of an environment holds. A store behind its end gives it cells of nil up
to the slot; and whatever the frame is, a store changes only cells that come after one another in it,
the cell that holds it, and new ones.
-/

namespace SecdLisp

namespace Heap

open Contract

variable {h h' h'' : Heap} {a b c holder : Addr} {as cells : List Addr} {u v : Value}
  {Z : Addr → Prop}

/-- Cells were added, and no other cells than these were changed. -/
structure Spares (h : Heap) (Z : Addr → Prop) (h' : Heap) : Prop where
  size_le : h.size ≤ h'.size
  cell : ∀ a < h.size, ¬Z a → h'.cell a = h.cell a

theorem Spares.refl (h : Heap) (Z : Addr → Prop) : h.Spares Z h := ⟨Nat.le_refl _, fun _ _ _ => rfl⟩

theorem Spares.trans (first : h.Spares Z h') (second : h'.Spares Z h'') : h.Spares Z h'' := by
  refine ⟨Nat.le_trans first.size_le second.size_le, fun a lt out => ?_⟩
  rw [second.cell a (Nat.lt_of_lt_of_le lt first.size_le) out, first.cell a lt out]

theorem Grows.spares (grows : h.Grows h') (Z : Addr → Prop) : h.Spares Z h' :=
  ⟨grows.size_le, fun a lt _ => grows.cell a lt⟩

theorem spares_updated (here : Z a) (f : Cell → Cell) : h.Spares Z (h.updated a f) := by
  refine ⟨Nat.le_of_eq (size_updated h a f).symm, fun b _ out => cell_updated_of_ne ?_ f⟩
  rintro rfl
  exact out here

/-- With each of these cells, the next one is one of them; and so are all new cells. -/
structure Covers (h : Heap) (Z : Addr → Prop) : Prop where
  fresh : ∀ a, h.size ≤ a → Z a
  next : ∀ a b, Z a → h.cdr a = .pair b → Z b

/-- Work changes no other cells than these, and the one that holds the frame. -/
def sparing (Z : Addr → Prop) (holder : Addr) : Contract Heap Heap where
  le h h' := h.Spares (fun a => Z a ∨ a = holder) h'
  holds w h := h = w ∧ w.Covers Z
  error _ _ := True
  refl h := .refl h _
  trans := .trans

abbrev Meets (Z : Addr → Prop) (_ : Heap) (found : Option Addr) : Prop := ∀ a, found = some a → Z a

theorem keeps_blank : (sparing Z holder).Keeps h (fun _ a => Z a) (alloc .nil .nil) := by
  rintro _ ⟨rfl, covers⟩
  refine ends_alloc.mpr ⟨fun room => ?_, fun _ => ⟨_, .refl _ _, ⟨rfl, covers⟩, trivial⟩⟩
  refine ⟨_, (grows_grown ..).spares _, ⟨rfl, ?_, fun a b here link => ?_⟩, covers.fresh _ le_rfl⟩
  · intro a le
    rw [size_grown] at le
    exact covers.fresh a (Nat.le_of_succ_le le)
  · rw [Heap.cdr, cell_grown] at link
    split at link
    · cases link
    · exact covers.next a b here link

theorem keeps_cell {f : Cell → Cell} (here : Z a ∨ a = holder)
    (links : ∀ c b, Z a → (f c).cdr = .pair b → c.cdr = .pair b ∨ Z b) :
    (sparing Z holder).Keeps h (fun _ _ => True) (update a f) := by
  rintro _ ⟨rfl, covers⟩
  refine ends_update.mpr ⟨_, spares_updated here f, ⟨rfl, ?_, fun b c inside link => ?_⟩, trivial⟩
  · exact fun b le => covers.fresh b (size_updated .. ▸ le)
  · rw [Heap.cdr, cell_updated] at link
    split at link
    next same =>
      obtain ⟨rfl, _⟩ := same
      exact (links _ c inside link).elim (covers.next b c inside) id
    next => exact covers.next b c inside link

theorem keeps_follow {relink : Value → HeapM Unit} (link : ∀ b, u = .pair b → Z b)
    (relinks : ∀ h b, Z b → (sparing Z holder).Keeps h (fun _ _ => True) (relink (.pair b))) :
    (sparing Z holder).Keeps h (Meets Z) (follow u relink) := by
  unfold follow
  split
  next b => exact keeps_pure fun c eq => Option.some.inj eq ▸ link b rfl
  · refine keeps_blank.bind fun h₁ b _ new => (relinks h₁ b new).bind fun _ _ _ _ => ?_
    exact keeps_pure fun c eq => Option.some.inj eq ▸ new
  · exact keeps_pure nofun

theorem keeps_extendTo (n : Nat) (here : Z a) :
    (sparing Z holder).Keeps h (Meets Z) (extendTo n a) := by
  induction n generalizing h a with
  | zero => exact keeps_pure fun b eq => Option.some.inj eq ▸ here
  | succ n ih =>
    refine keeps_seen_bind fun h' ⟨same, covers⟩ => ?_
    have next : ∀ b, h'.cdr a = .pair b → Z b := fun b link => covers.next a b here (same ▸ link)
    refine (keeps_follow next fun h₁ b new => ?_).bind fun h₁ found _ known => ?_
    · exact keeps_cell (.inl here) fun c d _ link => .inr (Value.pair.inj link ▸ new)
    · cases found with
      | none => exact keeps_pure nofun
      | some b => exact ih (known b rfl)

/-- A store changes the cell that holds the frame, and cells of the frame. -/
theorem spares_store {env : Value} {depth index : Nat} (covers : h.Covers Z)
    (found : h.frameHolder? env depth = some holder) (first : ∀ b, h.car holder = .pair b → Z b) :
    h.Spares (fun a => Z a ∨ a = holder) (left (store env depth index v) h) := by
  have keeps : (sparing Z holder).Keeps h (fun _ _ => True) (store env depth index v) := by
    have slot (h : Heap) {a : Addr} (here : Z a ∨ a = holder) {v : Value} :
        (sparing Z holder).Keeps h (fun _ _ => True) (setCar a v) :=
      keeps_cell here fun c b _ link => .inl link
    unfold store
    split
    · exact keeps_pure trivial
    refine keeps_seen_bind ?_
    rintro _ ⟨rfl, _⟩
    rw [found]
    dsimp only
    refine keeps_seen_bind ?_
    rintro _ ⟨rfl, _⟩
    refine (keeps_follow first fun h₁ b _ => slot h₁ (.inr rfl)).bind fun h₁ found _ known => ?_
    cases found with
    | none => exact keeps_pure trivial
    | some b =>
      refine (keeps_extendTo (index - 1) (known b rfl)).bind fun h₂ found _ known => ?_
      cases found with
      | none => exact keeps_pure trivial
      | some c => exact (slot h₂ (.inl (known c rfl))).bind fun _ _ _ _ => keeps_pure trivial
  refine Ends.left (p := fun h' => h.Spares (fun a => Z a ∨ a = holder) h')
    ((keeps h ⟨rfl, covers⟩).mono ?_ ?_)
  · rintro _ _ ⟨_, spares, ⟨rfl, _⟩, _⟩
    exact spares
  · rintro _ _ ⟨_, spares, ⟨rfl, _⟩, _⟩
    exact spares

/-- A cell of an environment holds the frame that is made of these cells. -/
structure Seats (h : Heap) (holder : Addr) (cells : List Addr) : Prop where
  owned : holder < h.size
  apart : holder ∉ cells
  spine : h.Spine (h.car holder) cells

theorem Spine.nthCell? (spine : h.Spine v as) (i : Nat) : h.nthCell? v (i + 1) = as[i]? := by
  induction spine generalizing i with
  | nil => rfl
  | @cons a as _ rest ih =>
    cases i with
    | zero => rfl
    | succ i =>
      show Heap.cellAfter? h (i + 1) a = as[i]?
      rw [← ih i, Heap.cellAfter?]
      cases h.cdr a <;> rfl

theorem Seats.lookup? (seats : h.Seats holder cells) {env : Value} {depth slot : Nat}
    (found : h.frameHolder? env depth = some holder) (positive : 0 < slot) :
    h.lookup? env depth slot = (cells.map h.car)[slot - 1]? := by
  obtain ⟨i, rfl⟩ := Nat.exists_eq_succ_of_ne_zero (Nat.pos_iff_ne_zero.mp positive)
  rw [Heap.lookup?, if_neg (Nat.succ_ne_zero i), found, Option.bind_some, seats.spine.nthCell?,
    List.getElem?_map]
  rfl

theorem Seats.congr (seats : h.Seats holder cells) (spares : h.Spares Z h') (out : ¬Z holder)
    (outs : ∀ a ∈ cells, ¬Z a) : h'.Seats holder cells ∧ cells.map h'.car = cells.map h.car := by
  have same (a : Addr) (mem : a ∈ cells) : h'.cell a = h.cell a :=
    spares.cell a (seats.spine.owned mem) (outs a mem)
  refine ⟨⟨Nat.lt_of_lt_of_le seats.owned spares.size_le, seats.apart, ?_⟩, ?_⟩
  · rw [Heap.car, spares.cell holder seats.owned out]
    exact seats.spine.congr spares.size_le fun a mem => congrArg Cell.cdr (same a mem)
  · exact List.map_congr_left fun a mem => congrArg Cell.car (same a mem)

/-- At least that many slots; those that are added are nil. -/
def padded (vs : List Value) (n : Nat) : List Value := vs ++ List.replicate (n - vs.length) .nil

theorem padded_of_le {vs : List Value} {n : Nat} (le : n ≤ vs.length) : padded vs n = vs := by
  simp [padded, Nat.sub_eq_zero_of_le le]

theorem padded_succ {vs : List Value} : vs ++ [.nil] = padded vs (vs.length + 1) := by
  simp [padded]

theorem padded_padded {vs : List Value} {m n : Nat} (le : m ≤ n) :
    padded (padded vs m) n = padded vs n := by
  simp only [padded, List.length_append, List.length_replicate, List.append_assoc,
    List.replicate_append_replicate]
  congr 3
  omega

structure Grew (first : Heap) (old : List Addr) (n : Nat) (h : Heap) (cells : List Addr) : Prop where
  values : cells.map h.car = padded (old.map first.car) n
  cells : ∀ a ∈ cells, a ∈ old ∨ first.size ≤ a
  links : ∀ a < first.size, a ∉ old → h.cdr a = first.cdr a
  size_le : first.size ≤ h.size
  capacity : h.capacity = first.capacity

theorem Grew.refl {n : Nat} (long : n ≤ cells.length) : h.Grew cells n h cells where
  values := by rw [padded_of_le (by rw [List.length_map]; exact long)]
  cells _ mem := .inl mem
  links _ _ _ := rfl
  size_le := le_rfl
  capacity := rfl

theorem Grew.trans {old : List Addr} {m n : Nat} (first : h.Grew old m h' as)
    (second : h'.Grew as n h'' cells) (le : m ≤ n) : h.Grew old n h'' cells where
  values := by rw [second.values, first.values, padded_padded le]
  cells a mem := (second.cells a mem).elim (first.cells a) fun new =>
    .inr (Nat.le_trans first.size_le new)
  links a lt out := by
    have apart : a ∉ as := fun mem => (first.cells a mem).elim out (Nat.not_le_of_lt lt)
    rw [second.links a (Nat.lt_of_lt_of_le lt first.size_le) apart, first.links a lt out]
  size_le := Nat.le_trans first.size_le second.size_le
  capacity := second.capacity.trans first.capacity

def Reaches (first : Heap) (holder : Addr) (old : List Addr) (i : Nat) (found : Option Addr)
    (h : Heap) : Prop :=
  ∃ cells c, found = some c ∧ cells[i]? = some c ∧ h.Seats holder cells ∧
    first.Grew old (i + 1) h cells

def NoRoom (first : Heap) (e : Error) (h : Heap) : Prop := e = .heapFull ∧ first.capacity ≤ h.size

theorem NoRoom.ok_of_lt {α : Type} {work : HeapM α} {p : α → Heap → Prop}
    (ends : Ends work h p h.NoRoom) (room : (left work h).size < h.capacity) :
    ∃ x, work h = .ok x (left work h) ∧ p x (left work h) := by
  unfold left at room ⊢
  unfold Ends at ends
  cases run : work h with
  | ok x h' =>
    rw [run] at ends
    exact ⟨x, rfl, ends⟩
  | error e h' =>
    rw [run] at ends room
    exact (Nat.not_le_of_lt room ends.2).elim

/-- There was no room left for all of that many slots. The frame was padded as far as it went. -/
structure Stops (first : Heap) (holder : Addr) (old : List Addr) (slots : Nat) (e : Error)
    (h : Heap) : Prop where
  noRoom : first.NoRoom e h
  padded : ∃ cells, cells.length < slots ∧ h.Seats holder cells ∧ first.Grew old cells.length h cells

theorem ends_first (seats : h.Seats holder cells) :
    Ends (follow (h.car holder) (setCar holder)) h (Reaches h holder cells 0)
      (h.Stops holder cells 1) := by
  obtain ⟨owned, apart, spine⟩ := seats
  generalize eq : h.car holder = link at spine
  cases spine with
  | nil =>
    simp only [follow, setCar, ends_bind, ends_alloc, ends_update, ends_pure]
    refine ⟨fun room => ?_, fun full => ⟨⟨rfl, full⟩, [], Nat.zero_lt_one, ?_, .refl le_rfl⟩⟩
    swap
    · exact ⟨owned, apart, eq ▸ .nil⟩
    have lt : holder < (h.grown ⟨.nil, .nil⟩ room).size := by
      rw [size_grown]
      exact Nat.lt_succ_of_lt owned
    have new := cell_updated_of_ne (h := h.grown ⟨.nil, .nil⟩ room) (Nat.ne_of_gt owned)
      fun c => { c with car := .pair h.size }
    rw [cell_grown_size] at new
    refine ⟨[h.size], h.size, rfl, rfl, ⟨by simpa using lt, ?_, ?_⟩, ?_, by simp, ?_, by simp, rfl⟩
    · simpa using Nat.ne_of_lt owned
    · rw [Heap.car, cell_updated_self lt]
      refine .cons (by simp) ?_
      rw [Heap.cdr, new]
      exact .nil
    · simp [Heap.car, new, padded]
    · intro a below _
      rw [Heap.cdr, cell_updated, cell_grown_of_lt below]
      split <;> rfl
  | @cons c cs lt rest =>
    exact ⟨c :: cs, c, rfl, rfl, ⟨owned, apart, eq ▸ .cons lt rest⟩, .refl (by simp)⟩

theorem Spine.after (spine : h.Spine v as) {i : Nat} (here : as[i]? = some c) :
    h.Spine (h.cdr c) (as.drop (i + 1)) := by
  induction spine generalizing i with
  | nil => cases here
  | cons _ rest ih =>
    cases i with
    | zero => exact Option.some.inj here ▸ rest
    | succ i => exact ih here

theorem Seats.lengthened (seats : h.Seats holder cells) (mem : c ∈ cells) (stop : h.cdr c = .nil)
    (room : h.size < h.capacity) : (h.lengthened c room).Seats holder (cells ++ [h.size]) ∧
      (cells ++ [h.size]).map (h.lengthened c room).car = cells.map h.car ++ [.nil] := by
  obtain ⟨owned, apart, spine⟩ := seats
  have lt : c < h.size := spine.owned mem
  have cars : (h.lengthened c room).car = h.car := funext (car_lengthened room lt)
  have blank : h.car h.size = .nil := congrArg Cell.car (cell_of_le le_rfl)
  have longer := spine.lengthened lt stop room
  rw [if_pos mem] at longer
  refine ⟨⟨?_, ?_, ?_⟩, ?_⟩
  · rw [size_lengthened]
    exact Nat.lt_succ_of_lt owned
  · simp [apart, Nat.ne_of_lt owned]
  · rw [cars]
    exact longer
  · simp [cars, blank]

theorem ends_next {i : Nat} (seats : h.Seats holder cells) (here : cells[i]? = some c) :
    Ends (read (·.cdr c) >>= fun link => follow link (setCdr c)) h
      (Reaches h holder cells (i + 1)) (h.Stops holder cells (i + 2)) := by
  have lt := (List.getElem?_eq_some_iff.mp here).1
  have rest := seats.spine.after here
  have mem := List.mem_of_getElem? here
  rw [ends_bind, ends_read]
  generalize stop : h.cdr c = link at rest
  generalize behind : cells.drop (i + 1) = others at rest
  cases rest with
  | nil =>
    -- That cell is the last one of the frame.
    have last : cells.length = i + 1 := by
      have le := List.drop_eq_nil_iff.mp behind
      omega
    simp only [follow, setCdr, ends_bind, ends_alloc, ends_update, ends_pure]
    refine ⟨fun room => ?_, fun full => ⟨⟨rfl, full⟩, _, ?_, seats, .refl le_rfl⟩⟩
    swap
    · rw [last]
      exact Nat.lt_succ_self _
    obtain ⟨seats', cars⟩ := seats.lengthened mem stop room
    refine ⟨_, h.size, rfl, ?_, seats', ?_, fun a mem => ?_, fun a below out => ?_, ?_, rfl⟩
    · simp [← last]
    · refine cars.trans ?_
      rw [padded_succ, List.length_map, last]
    · rcases List.mem_append.mp mem with old | new
      · exact .inl old
      · exact .inr (Nat.le_of_eq (List.mem_singleton.mp new).symm)
    · have ne : a ≠ c := fun eq => out (eq ▸ mem)
      show (h.lengthened c room).cdr a = h.cdr a
      rw [Heap.cdr, cell_lengthened room (seats.spine.owned mem), if_neg ne]
      rfl
    · show h.size ≤ (h.lengthened c room).size
      rw [size_lengthened]
      exact Nat.le_succ _
  | @cons b bs _ _ =>
    have next : cells[i + 1]? = some b := by
      rw [← List.head?_drop, behind]
      rfl
    exact ⟨cells, b, rfl, next, seats, .refl (List.getElem?_eq_some_iff.mp next).1⟩

theorem Grew.reaches {old : List Addr} {m i : Nat} {found : Option Addr}
    (grew : h.Grew old m h' as) (reaches : h'.Reaches holder as i found h'') (le : m ≤ i + 1) :
    h.Reaches holder old i found h'' := by
  obtain ⟨cells, c, eq, here, seats, grew'⟩ := reaches
  exact ⟨cells, c, eq, here, seats, grew.trans grew' le⟩

theorem Stops.mono {old : List Addr} {m n : Nat} {e : Error} (stops : h.Stops holder old m e h')
    (le : m ≤ n) : h.Stops holder old n e h' := by
  obtain ⟨cells, few, padded⟩ := stops.padded
  exact ⟨stops.noRoom, cells, Nat.lt_of_lt_of_le few le, padded⟩

theorem Grew.length_le {old : List Addr} {n : Nat} (grew : h.Grew old n h' cells) :
    max old.length n ≤ cells.length := by
  have lengths := congrArg List.length grew.values
  simp only [padded, List.length_append, List.length_map, List.length_replicate] at lengths
  omega

theorem Grew.stops {old : List Addr} {m slots : Nat} {e : Error} (grew : h.Grew old m h' as)
    (stops : h'.Stops holder as slots e h'') : h.Stops holder old slots e h'' := by
  obtain ⟨⟨full, most⟩, cells, few, seats, grew'⟩ := stops
  have first := grew.length_le
  have second := grew'.length_le
  exact ⟨⟨full, grew.capacity ▸ most⟩, cells, few, seats, grew.trans grew' (by omega)⟩

theorem ends_extendTo (n : Nat) {i : Nat} (seats : h.Seats holder cells)
    (here : cells[i]? = some c) :
    Ends (extendTo n c) h (Reaches h holder cells (i + n)) (h.Stops holder cells (i + n + 1)) := by
  induction n generalizing h cells i c with
  | zero => exact ⟨cells, c, rfl, here, seats, .refl (List.getElem?_eq_some_iff.mp here).1⟩
  | succ n ih =>
    rw [extendTo, ← bind_assoc, ends_bind]
    refine (ends_next seats here).mono ?_ fun _ _ stops => stops.mono (by omega)
    rintro found h₁ ⟨cells₁, c₁, rfl, here₁, seats₁, grew⟩
    have rest := ih seats₁ here₁
    rw [show i + 1 + n = i + (n + 1) by omega] at rest
    exact rest.mono (fun _ _ reaches => grew.reaches reaches (by omega)) fun _ _ => grew.stops

/-- Changing the car of a slot's cell sets the slot. -/
theorem Seats.stored (seats : h.Seats holder cells) {i : Nat} (here : cells[i]? = some c)
    (v : Value) :
    let h' := h.updated c fun cell => { cell with car := v }
    h'.Seats holder cells ∧ cells.map h'.car = (cells.map h.car).set i v := by
  obtain ⟨owned, apart, spine⟩ := seats
  obtain ⟨lt, rfl⟩ := List.getElem?_eq_some_iff.mp here
  have below : cells[i] < h.size := spine.owned (List.getElem_mem lt)
  have ne : holder ≠ cells[i] := fun eq => apart (eq ▸ List.getElem_mem lt)
  have link (b : Addr) : (h.updated cells[i] fun cell => { cell with car := v }).cdr b = h.cdr b := by
    rw [Heap.cdr, cell_updated]
    split <;> rfl
  refine ⟨⟨by simpa using owned, apart, ?_⟩, ?_⟩
  · rw [Heap.car, cell_updated_of_ne ne]
    exact spine.congr (by simp) fun b _ => link b
  · have same : ∀ b ∈ cells, b ≠ cells[i] →
        (h.updated cells[i] fun cell => { cell with car := v }).car b = h.car b :=
      fun b _ ne => congrArg Cell.car (cell_updated_of_ne ne _)
    rw [map_eq_set spine.nodup here same, Heap.car, cell_updated_self below]

/-- A frame with a value in a slot, and with nil in those before it that it did not have. -/
def put (vs : List Value) (slot : Nat) (v : Value) : List Value :=
  (padded vs slot).set (slot - 1) v

/-- A store puts a value in a slot, and the frame may grow by new cells. -/
theorem ends_store {env : Value} {depth slot : Nat} (seats : h.Seats holder cells)
    (found : h.frameHolder? env depth = some holder) (positive : 0 < slot) :
    Ends (store env depth slot v) h
      (fun stored h' => stored = true ∧ h'.cdr holder = h.cdr holder ∧ ∃ cells', h'.Seats holder cells' ∧
        cells'.map h'.car = put (cells.map h.car) slot v ∧ ∀ a ∈ cells', a ∈ cells ∨ h.size ≤ a)
      (h.Stops holder cells slot) := by
  obtain ⟨i, rfl⟩ := Nat.exists_eq_succ_of_ne_zero (Nat.pos_iff_ne_zero.mp positive)
  rw [store, if_neg (Nat.succ_ne_zero i)]
  simp only [ends_bind, ends_read, found]
  refine (ends_first seats).mono ?_ fun _ _ stops => stops.mono (Nat.le_add_left 1 i)
  rintro _ h₁ ⟨cells₁, c₁, rfl, here₁, seats₁, grew₁⟩
  have rest := ends_extendTo (i + 1 - 1) seats₁ here₁
  rw [Nat.zero_add, Nat.add_sub_cancel] at rest
  simp only [ends_bind, Nat.succ_eq_add_one, Nat.add_sub_cancel]
  refine rest.mono ?_ fun _ _ => grew₁.stops
  intro found h₂ reaches
  obtain ⟨cells₂, c₂, rfl, here₂, seats₂, grew₂⟩ := grew₁.reaches reaches (Nat.le_add_left 1 i)
  simp only [ends_bind, setCar, ends_update, ends_pure]
  obtain ⟨seats₃, values₃⟩ := seats₂.stored here₂ v
  refine ⟨trivial, ?_, cells₂, seats₃, ?_, grew₂.cells⟩
  · rw [← grew₂.links holder seats.owned seats.apart, Heap.cdr, cell_updated]
    split <;> rfl
  · rw [values₃, grew₂.values]
    rfl

/-- A frame and all new cells are closed under links. -/
theorem Seats.covers (seats : h.Seats holder cells) : h.Covers fun c => c ∈ cells ∨ h.size ≤ c where
  fresh _ le := .inr le
  next c d inside link := by
    rcases inside with mem | le
    · obtain last | ⟨e, next, link'⟩ := seats.spine.cdr_mem mem
      · rw [last] at link
        cases link
      · rw [link'] at link
        cases link
        exact .inl next
    · rw [Heap.cdr, cell_of_le le] at link
      cases link

/-- A store changes no cells but new ones, those of its frame and the one that holds it. -/
theorem Seats.spares_store (seats : h.Seats holder cells) {env : Value} {depth : Nat}
    (found : h.frameHolder? env depth = some holder) (slot : Nat) (v : Value) :
    h.Spares (fun c => (c ∈ cells ∨ h.size ≤ c) ∨ c = holder) (left (store env depth slot v) h) :=
  Heap.spares_store seats.covers found fun d link => by
    have spine := link ▸ seats.spine
    cases spine with
    | cons _ _ => exact .inl (List.mem_cons_self ..)

/-- Two cells of an environment hold frames that have nothing in common. -/
structure SeatsBoth (h : Heap) (a b : Addr) (cells others : List Addr) : Prop where
  first : h.Seats a cells
  second : h.Seats b others
  ne : a ≠ b
  first_not_mem : a ∉ others
  second_not_mem : b ∉ cells
  disjoint : ∀ c ∈ cells, c ∉ others

variable {others : List Addr}

theorem SeatsBoth.symm (both : h.SeatsBoth a b cells others) : h.SeatsBoth b a others cells where
  first := both.second
  second := both.first
  ne := both.ne.symm
  first_not_mem := both.second_not_mem
  second_not_mem := both.first_not_mem
  disjoint c mem mem' := both.disjoint c mem' mem

theorem SeatsBoth.congr (both : h.SeatsBoth a b cells others) (spares : h.Spares Z h')
    (holders : ¬Z a ∧ ¬Z b) (outs : ∀ c ∈ cells, ¬Z c) (outs' : ∀ c ∈ others, ¬Z c) :
    h'.SeatsBoth a b cells others ∧ cells.map h'.car = cells.map h.car ∧
      others.map h'.car = others.map h.car := by
  obtain ⟨first, values⟩ := both.first.congr spares holders.1 outs
  obtain ⟨second, values'⟩ := both.second.congr spares holders.2 outs'
  exact ⟨{ both with first, second }, values, values'⟩

/-- A store into one of two frames leaves the other one alone. -/
theorem SeatsBoth.ends_store (both : h.SeatsBoth a b cells others) {env : Value} {depth slot : Nat}
    (found : h.frameHolder? env depth = some a) (positive : 0 < slot) :
    Ends (store env depth slot v) h
      (fun stored h' => stored = true ∧ ∃ cells', h'.SeatsBoth a b cells' others ∧
        cells'.map h'.car = put (cells.map h.car) slot v ∧ others.map h'.car = others.map h.car)
      h.NoRoom := by
  obtain ⟨seats, seats', ne, out, out', disjoint⟩ := both
  have spares := seats.spares_store found slot v
  have ends := Heap.ends_store (v := v) seats found positive
  unfold left at spares
  unfold Ends at ends ⊢
  cases run : store env depth slot v h with
  | error e h' =>
    rw [run] at ends
    exact ends.noRoom
  | ok stored h' =>
    rw [run] at ends spares
    obtain ⟨done, _, cells', seats₁, values, within⟩ := ends
    -- The cells that were changed are not cells of the other frame.
    have apart (c : Addr) (lt : c < h.size) (mem : c ∉ cells) (ne : c ≠ a) :
        ¬((c ∈ cells ∨ h.size ≤ c) ∨ c = a) := by
      simpa [mem, ne] using lt
    obtain ⟨seats₂, values'⟩ := seats'.congr spares (apart b seats'.owned out' ne.symm)
      fun c mem => apart c (seats'.spine.owned mem) (fun mem' => disjoint c mem' mem)
        fun eq => out (eq ▸ mem)
    have old {c : Addr} (mem : c ∈ cells') (lt : c < h.size) : c ∈ cells :=
      (within c mem).resolve_right (Nat.not_le_of_lt lt)
    refine ⟨done, cells', ⟨seats₁, seats₂, ne, out, ?_, ?_⟩, values, values'⟩
    · exact fun mem => out' (old mem seats'.owned)
    · exact fun c mem mem' => disjoint c (old mem (seats'.spine.owned mem')) mem'

end Heap

end SecdLisp
