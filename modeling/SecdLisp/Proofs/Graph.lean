import Mathlib.Algebra.Group.Nat.Defs
import Mathlib.Data.Finset.Card
import Mathlib.Data.List.Nodup
import SecdLisp.Heap
import SecdLisp.Proofs.Outcome

/-!
# The heap as a graph

Allocation and update as functions on heaps, chains along cdr, the cells of a proper list, and the
cells that can be reached from a value. A chain that comes to an atom passes no cell twice, so the
walk that collects the elements of a list never stops short of its end.
-/

namespace SecdLisp

/-- Where a function changes at one element of a list, one of its values there does. -/
theorem map_eq_set {α β : Type} {f f' : α → β} {xs : List α} (nodup : xs.Nodup) {i : Nat} {x : α}
    (here : xs[i]? = some x) (same : ∀ y ∈ xs, y ≠ x → f' y = f y) :
    xs.map f' = (xs.map f).set i (f' x) := by
  induction xs generalizing i with
  | nil => rfl
  | cons y xs ih =>
    obtain ⟨out, nodup⟩ := List.nodup_cons.mp nodup
    cases i with
    | zero =>
      cases here
      have others : xs.map f' = xs.map f := by
        refine List.map_congr_left fun z mem => same z (List.mem_cons_of_mem _ mem) ?_
        rintro rfl
        exact out mem
      rw [List.map_cons, List.map_cons, others]
      rfl
    | succ i =>
      have ne : y ≠ x := by
        rintro rfl
        exact out (List.mem_of_getElem? here)
      have first := same y (List.mem_cons_self ..) ne
      have others := ih nodup here fun z mem => same z (List.mem_cons_of_mem _ mem)
      rw [List.map_cons, List.map_cons, first, others]
      rfl

namespace Heap

def grown (h : Heap) (c : Cell) (room : h.size < h.capacity) : Heap :=
  ⟨h.cells.push c, h.capacity, by rw [Array.size_push]; exact room, h.capacity_le⟩

def updated (h : Heap) (a : Addr) (f : Cell → Cell) : Heap :=
  ⟨h.cells.modify a f, h.capacity, by simpa using h.size_le, h.capacity_le⟩

/-- The heap where the cell at an address has a new cell behind it. -/
def lengthened (h : Heap) (a : Addr) (room : h.size < h.capacity) : Heap :=
  (h.grown ⟨.nil, .nil⟩ room).updated a fun c => { c with cdr := .pair h.size }

theorem alloc_eq (car cdr : Value) (h : Heap) :
    alloc car cdr h = if room : h.size < h.capacity then .ok h.size (h.grown ⟨car, cdr⟩ room)
      else .error .heapFull h := rfl

theorem update_eq (a : Addr) (f : Cell → Cell) (h : Heap) :
    update a f h = .ok () (h.updated a f) := rfl

@[simp] theorem size_grown (h : Heap) (c : Cell) (room : h.size < h.capacity) :
    (h.grown c room).size = h.size + 1 := Array.size_push ..

@[simp] theorem capacity_grown (h : Heap) (c : Cell) (room : h.size < h.capacity) :
    (h.grown c room).capacity = h.capacity := rfl

@[simp] theorem size_updated (h : Heap) (a : Addr) (f : Cell → Cell) :
    (h.updated a f).size = h.size := Array.size_modify ..

theorem cell_grown (h : Heap) (c : Cell) (room : h.size < h.capacity) (a : Addr) :
    (h.grown c room).cell a = if a = h.size then c else h.cell a := cell_of_push rfl a

@[simp] theorem cell_grown_size (h : Heap) (c : Cell) (room : h.size < h.capacity) :
    (h.grown c room).cell h.size = c := by
  rw [cell_grown, if_pos rfl]

theorem cell_grown_of_ne {h : Heap} {c : Cell} {room : h.size < h.capacity} {a : Addr}
    (ne : a ≠ h.size) : (h.grown c room).cell a = h.cell a := by
  rw [cell_grown, if_neg ne]

theorem cell_grown_of_lt {h : Heap} {c : Cell} {room : h.size < h.capacity} {a : Addr}
    (lt : a < h.size) : (h.grown c room).cell a = h.cell a := cell_grown_of_ne (Nat.ne_of_lt lt)

theorem cell_of_le {h : Heap} {a : Addr} (le : h.size ≤ a) : h.cell a = ⟨.nil, .nil⟩ := by
  have none : h.cells[a]? = none := Array.getElem?_eq_none le
  simp [cell, none]

theorem cell_updated (h : Heap) (a b : Addr) (f : Cell → Cell) :
    (h.updated a f).cell b = if b = a ∧ a < h.size then f (h.cell b) else h.cell b := by
  by_cases hb : b = a
  · subst hb
    by_cases hs : b < h.cells.size <;> simp [updated, cell, size, hs, Array.getElem_modify]
  · have hba : a ≠ b := Ne.symm hb
    simp [updated, cell, hb, Array.getElem?_modify, hba]

theorem updated_grown (h : Heap) (c : Cell) (room : h.size < h.capacity) (f : Cell → Cell) :
    (h.grown c room).updated h.size f = h.grown (f c) room := by
  have cells : (h.cells.push c).modify h.cells.size f = h.cells.push (f c) := by
    refine Array.ext (by simp) fun i _ le => ?_
    rcases Nat.lt_succ_iff_lt_or_eq.mp (Array.size_push .. ▸ le) with lt | rfl
    · simp [Array.getElem_modify, Array.getElem_push, lt, Nat.ne_of_gt lt]
    · simp [Array.getElem_modify]
  simp only [grown, updated, size, cells]

theorem cell_updated_self {h : Heap} {a : Addr} (lt : a < h.size) (f : Cell → Cell) :
    (h.updated a f).cell a = f (h.cell a) := by
  rw [cell_updated, if_pos ⟨rfl, lt⟩]

theorem cell_updated_of_ne {h : Heap} {a b : Addr} (ne : b ≠ a) (f : Cell → Cell) :
    (h.updated a f).cell b = h.cell b := by
  rw [cell_updated, if_neg fun both => ne both.1]

section Lengthened

variable {h : Heap} {a : Addr}

@[simp] theorem size_lengthened (room : h.size < h.capacity) :
    (h.lengthened a room).size = h.size + 1 := by
  simp [Heap.lengthened]

theorem cell_lengthened (room : h.size < h.capacity) (owned : a < h.size) (b : Addr) :
    (h.lengthened a room).cell b =
      if b = a then ⟨h.car a, .pair h.size⟩ else h.cell b := by
  rw [Heap.lengthened, cell_updated]
  by_cases same : b = a
  · subst same
    have lt : b < (h.grown ⟨.nil, .nil⟩ room).size := by
      rw [size_grown]
      exact Nat.lt_succ_of_lt owned
    rw [if_pos ⟨rfl, lt⟩, if_pos rfl, cell_grown_of_lt owned]
    rfl
  · rw [if_neg fun both => same both.1, if_neg same, cell_grown]
    split
    next new => rw [new, cell_of_le (Nat.le_refl _)]
    next => rfl

@[simp] theorem car_lengthened (room : h.size < h.capacity) (owned : a < h.size) (b : Addr) :
    (h.lengthened a room).car b = h.car b := by
  rw [Heap.car, cell_lengthened room owned]
  split
  next same => rw [same]
  next => rfl

end Lengthened

theorem size_lt_word (h : Heap) : h.size < UInt32.size := by
  have room : h.size ≤ UInt32.size - 1 := Nat.le_trans h.size_le h.capacity_le
  have pos : 0 < UInt32.size := by decide
  omega

section Ends

variable {h : Heap} {q : Error → Heap → Prop}

@[simp] theorem ends_read {α : Type} {f : Heap → α} {p : α → Heap → Prop} :
    Ends (read f) h p q ↔ p (f h) h := Iff.rfl

@[simp] theorem ends_alloc {car cdr : Value} {p : Addr → Heap → Prop} :
    Ends (alloc car cdr) h p q ↔
      (∀ room, p h.size (h.grown ⟨car, cdr⟩ room)) ∧ (h.capacity ≤ h.size → q .heapFull h) := by
  rw [Ends, alloc_eq]
  by_cases room : h.size < h.capacity
  · simp [room, Nat.not_le_of_lt room]
  · simp [room, Nat.le_of_not_lt room]

@[simp] theorem ends_cons {car cdr : Value} {p : Value → Heap → Prop} :
    Ends (cons car cdr) h p q ↔
      (∀ room, p (.pair h.size) (h.grown ⟨car, cdr⟩ room)) ∧
        (h.capacity ≤ h.size → q .heapFull h) := by
  simp [cons]

@[simp] theorem ends_update {a : Addr} {f : Cell → Cell} {p : Unit → Heap → Prop} :
    Ends (update a f) h p q ↔ p () (h.updated a f) := Iff.rfl

end Ends

/-- A value does not dangle: if it is a pair, the heap has its cell. -/
def Owns (h : Heap) (v : Value) : Prop := ∀ a, v = .pair a → a < h.size

/-- No cell of the heap refers to a cell that the heap does not have. -/
def Closed (h : Heap) : Prop := ∀ a, h.Owns (h.car a) ∧ h.Owns (h.cdr a)

theorem length_le_of_nodup {as : List Addr} {n : Nat} (nodup : as.Nodup) (below : ∀ a ∈ as, a < n) :
    as.length ≤ n := by
  have sub : as.toFinset ⊆ Finset.range n := by
    intro a ha
    exact Finset.mem_range.mpr (below a (List.mem_toFinset.mp ha))
  have card := Finset.card_le_card sub
  rwa [List.toFinset_card_of_nodup nodup, Finset.card_range] at card

/-- The cells that are passed along cdr from a value up to an atom, and that atom. -/
inductive Chain (h : Heap) : Value → List Addr → Value → Prop where
  | last {v : Value} (atom : v.isPair = false) : Chain h v [] v
  | cell {a : Addr} {as : List Addr} {last : Value} (rest : Chain h (h.cdr a) as last) :
    Chain h (.pair a) (a :: as) last

namespace Chain

variable {h h' : Heap} {v last : Value} {as : List Addr}

theorem unique {bs : List Addr} {last' : Value} (chain : h.Chain v as last)
    (other : h.Chain v bs last') : as = bs ∧ last = last' := by
  induction chain generalizing bs with
  | last atom =>
    cases other with
    | last => exact ⟨rfl, rfl⟩
    | cell => cases atom
  | cell _ ih =>
    cases other with
    | last atom => cases atom
    | cell rest =>
      obtain ⟨rfl, rfl⟩ := ih rest
      exact ⟨rfl, rfl⟩

theorem from_mem (chain : h.Chain v as last) {a : Addr} (mem : a ∈ as) :
    ∃ bs, h.Chain (.pair a) bs last ∧ bs.length ≤ as.length := by
  induction chain with
  | last => cases mem
  | @cell b as _ rest ih =>
    rcases List.mem_cons.mp mem with rfl | mem
    · exact ⟨_, .cell rest, Nat.le_refl _⟩
    · obtain ⟨bs, chain, le⟩ := ih mem
      exact ⟨bs, chain, Nat.le_succ_of_le le⟩

theorem nodup (chain : h.Chain v as last) : as.Nodup := by
  induction chain with
  | last => exact List.nodup_nil
  | @cell a as _ rest ih =>
    refine List.nodup_cons.mpr ⟨fun again => ?_, ih⟩
    obtain ⟨bs, chain, le⟩ := rest.from_mem again
    obtain ⟨rfl, _⟩ := chain.unique (.cell rest)
    exact Nat.not_succ_le_self _ le

theorem congr (chain : h.Chain v as last) (same : ∀ a ∈ as, h'.cdr a = h.cdr a) :
    h'.Chain v as last := by
  induction chain with
  | last atom => exact .last atom
  | @cell a as _ _ ih =>
    rw [List.forall_mem_cons] at same
    refine .cell ?_
    rw [same.1]
    exact ih same.2

theorem lengthened {a : Addr} (chain : h.Chain v as last) (owned : a < h.size)
    (stop : h.cdr a = .nil) (room : h.size < h.capacity) :
    (h.lengthened a room).Chain v (as ++ if a ∈ as then [h.size] else []) last := by
  induction chain with
  | last atom => exact .last atom
  | @cell b as last rest ih =>
    have link := cell_lengthened room owned b
    by_cases here : b = a
    · subst here
      rw [stop] at rest
      cases rest
      rw [if_pos (List.mem_cons_self ..)]
      refine .cell ?_
      rw [Heap.cdr, link, if_pos rfl]
      refine .cell ?_
      rw [Heap.cdr, cell_lengthened room owned, if_neg (Nat.ne_of_gt owned),
        cell_of_le (Nat.le_refl _)]
      exact .last rfl
    · simp only [List.mem_cons, Ne.symm here, false_or, List.cons_append]
      refine .cell ?_
      rw [Heap.cdr, link, if_neg here]
      exact ih

/-- The fuel of a walk is not short if there is a cell for each unit of it. -/
theorem collect (chain : h.Chain v as last) {fuel : Nat} (enough : as.length ≤ fuel)
    (acc : List Value) : h.collect fuel v acc =
      if last = .nil then some (acc.reverse ++ as.map h.car) else none := by
  induction chain generalizing fuel acc with
  | @last v atom => cases v <;> cases fuel <;> simp_all [Heap.collect, Value.isPair]
  | cell rest ih =>
    cases fuel with
    | zero => cases enough
    | succ fuel =>
      rw [Heap.collect, ih (Nat.le_of_succ_le_succ enough)]
      simp

end Chain

/-- The cells of a proper list, in order. -/
inductive Spine (h : Heap) : Value → List Addr → Prop where
  | nil : Spine h .nil []
  | cons {a : Addr} {as : List Addr} (owned : a < h.size) (rest : Spine h (h.cdr a) as) :
    Spine h (.pair a) (a :: as)

namespace Spine

variable {h h' : Heap} {v : Value} {as : List Addr}

theorem chain (hs : Spine h v as) : h.Chain v as .nil := by
  induction hs with
  | nil => exact .last rfl
  | cons _ _ ih => exact .cell ih

theorem owned (hs : Spine h v as) {a : Addr} (ha : a ∈ as) : a < h.size := by
  induction hs with
  | nil => cases ha
  | cons owned rest ih =>
    rcases List.mem_cons.mp ha with rfl | ha
    · exact owned
    · exact ih ha

theorem cdr_mem (hs : Spine h v as) {a : Addr} (ha : a ∈ as) :
    h.cdr a = .nil ∨ ∃ b ∈ as, h.cdr a = .pair b := by
  induction hs with
  | nil => cases ha
  | @cons c as owned rest ih =>
    rcases List.mem_cons.mp ha with rfl | ha
    · generalize h.cdr a = next at rest
      cases rest with
      | nil => exact .inl rfl
      | cons => exact .inr ⟨_, by simp, rfl⟩
    · obtain last | ⟨b, mem, link⟩ := ih ha
      · exact .inl last
      · exact .inr ⟨b, List.mem_cons_of_mem _ mem, link⟩

theorem nodup (hs : Spine h v as) : as.Nodup := hs.chain.nodup

theorem length_le (hs : Spine h v as) : as.length ≤ h.size :=
  length_le_of_nodup hs.nodup fun _ ha => hs.owned ha

theorem of_chain (chain : h.Chain v as .nil) (owned : ∀ a ∈ as, a < h.size) : Spine h v as := by
  generalize eq : Value.nil = last at chain
  induction chain with
  | last =>
    subst eq
    exact .nil
  | cell _ ih =>
    rw [List.forall_mem_cons] at owned
    exact .cons owned.1 (ih owned.2 eq)

theorem congr (hs : Spine h v as) (le : h.size ≤ h'.size)
    (same : ∀ a ∈ as, h'.cdr a = h.cdr a) : Spine h' v as :=
  of_chain (hs.chain.congr same) fun _ ha => Nat.lt_of_lt_of_le (hs.owned ha) le

theorem lengthened {a : Addr} (hs : Spine h v as) (owned : a < h.size) (stop : h.cdr a = .nil)
    (room : h.size < h.capacity) :
    (h.lengthened a room).Spine v (as ++ if a ∈ as then [h.size] else []) := by
  refine of_chain (hs.chain.lengthened owned stop room) fun b hb => ?_
  rw [size_lengthened]
  rcases List.mem_append.mp hb with old | new
  · exact Nat.lt_succ_of_lt (hs.owned old)
  · split at new
    · exact Nat.lt_succ_of_le (Nat.le_of_eq (List.mem_singleton.mp new))
    · cases new

end Spine

/-- The elements of a proper list whose cells the heap has. -/
def Lists (h : Heap) (v : Value) (vs : List Value) : Prop := ∃ as, h.Spine v as ∧ vs = as.map h.car

/-- Only cells were added. -/
structure Grows (h h' : Heap) : Prop where
  size_le : h.size ≤ h'.size
  cell : ∀ a < h.size, h'.cell a = h.cell a

theorem collect_of_spine {h : Heap} {v : Value} {as : List Addr} (hs : h.Spine v as)
    {fuel : Nat} (enough : as.length ≤ fuel) (acc : List Value) :
    h.collect fuel v acc = some (acc.reverse ++ as.map h.car) := by
  rw [hs.chain.collect enough, if_pos rfl]

theorem spine_of_collect {h : Heap} (closed : h.Closed) {fuel : Nat} {v : Value}
    {acc vs : List Value} (owns : h.Owns v) (some : h.collect fuel v acc = some vs) :
    ∃ as, h.Spine v as ∧ vs = acc.reverse ++ as.map h.car := by
  induction fuel generalizing v acc with
  | zero =>
    cases v <;> simp [collect] at some
    exact ⟨[], .nil, by simp [some]⟩
  | succ fuel ih =>
    cases v <;> simp [collect] at some
    · exact ⟨[], .nil, by simp [some]⟩
    · next a =>
      obtain ⟨as, hs, rfl⟩ := ih (closed a).2 some
      exact ⟨a :: as, .cons (owns a rfl) hs, by simp⟩

theorem forall_collect {h : Heap} {p q : Value → Prop}
    (halves : ∀ a, p (.pair a) → q (h.car a) ∧ p (h.cdr a)) {fuel : Nat} {v : Value}
    {acc vs : List Value} (start : p v) (known : ∀ v ∈ acc, q v)
    (some : h.collect fuel v acc = some vs) : ∀ v ∈ vs, q v := by
  induction fuel generalizing v acc with
  | zero =>
    cases v <;> simp [collect] at some
    subst some
    simpa using known
  | succ fuel ih =>
    cases v <;> simp [collect] at some
    · subst some
      simpa using known
    · next a =>
      obtain ⟨first, rest⟩ := halves a start
      exact ih rest (List.forall_mem_cons.mpr ⟨first, known⟩) some

theorem forall_toList? {h : Heap} {p q : Value → Prop}
    (halves : ∀ a, p (.pair a) → q (h.car a) ∧ p (h.cdr a)) {v : Value} {vs : List Value}
    (start : p v) (found : h.toList? v = some vs) : ∀ v ∈ vs, q v :=
  forall_collect halves start (by simp) found

theorem length_collect_le {h : Heap} {fuel : Nat} {v : Value} {acc vs : List Value}
    (some : h.collect fuel v acc = some vs) : vs.length ≤ fuel + acc.length := by
  induction fuel generalizing v acc with
  | zero =>
    cases v <;> simp [collect] at some
    simp [← some]
  | succ fuel ih =>
    cases v <;> simp [collect] at some
    · simp [← some]
    · simpa [Nat.add_right_comm, Nat.add_assoc] using ih some

theorem length_toList?_le {h : Heap} {v : Value} {vs : List Value}
    (found : h.toList? v = some vs) : vs.length ≤ h.size := length_collect_le found

theorem toList?_of_spine {h : Heap} {v : Value} {as : List Addr} (hs : h.Spine v as) :
    h.toList? v = some (as.map h.car) := by
  simpa [toList?] using collect_of_spine hs hs.length_le []

theorem Lists.toList? {h : Heap} {v : Value} {vs : List Value} (lists : h.Lists v vs) :
    h.toList? v = some vs := by
  obtain ⟨as, spine, rfl⟩ := lists
  exact toList?_of_spine spine

theorem Lists.length_lt {h : Heap} {v : Value} {vs : List Value} (lists : h.Lists v vs) :
    vs.length < 2 ^ 63 := by
  obtain ⟨as, spine, rfl⟩ := lists
  have few := Nat.lt_of_le_of_lt spine.length_le h.size_lt_word
  have word : UInt32.size < 2 ^ 63 := by decide
  rw [List.length_map]
  omega

theorem Lists.uncons {h : Heap} {v w : Value} {vs : List Value} (lists : h.Lists v (w :: vs)) :
    ∃ a, v = .pair a ∧ a < h.size ∧ h.car a = w ∧ h.Lists (h.cdr a) vs := by
  obtain ⟨as, spine, eq⟩ := lists
  cases spine with
  | nil => cases eq
  | @cons a as owned rest =>
    obtain ⟨rfl, rfl⟩ := List.cons.inj eq
    exact ⟨a, rfl, owned, rfl, as, rest, rfl⟩

theorem Grows.refl (h : Heap) : h.Grows h := ⟨Nat.le_refl _, fun _ _ => rfl⟩

theorem Grows.trans {h₁ h₂ h₃ : Heap} (first : h₁.Grows h₂) (second : h₂.Grows h₃) :
    h₁.Grows h₃ := by
  refine ⟨Nat.le_trans first.size_le second.size_le, fun a ha => ?_⟩
  rw [second.cell a (Nat.lt_of_lt_of_le ha first.size_le), first.cell a ha]

theorem Grows.car {h h' : Heap} (grows : h.Grows h') {a : Addr} (lt : a < h.size) :
    h'.car a = h.car a := congrArg Cell.car (grows.cell a lt)

theorem Grows.cdr {h h' : Heap} (grows : h.Grows h') {a : Addr} (lt : a < h.size) :
    h'.cdr a = h.cdr a := congrArg Cell.cdr (grows.cell a lt)

theorem grows_grown (h : Heap) (c : Cell) (room : h.size < h.capacity) : h.Grows (h.grown c room) :=
  ⟨by simp, fun _ ha => cell_grown_of_lt ha⟩

theorem cons_grows {car cdr v : Value} {h h' : Heap} (run : cons car cdr h = .ok v h') :
    h.Grows h' ∧ v = .pair h.size ∧ h.size < h'.size ∧ h'.cell h.size = ⟨car, cdr⟩ := by
  simp only [cons, bind_eq_ok, pure_eq_ok, alloc_eq] at run
  obtain ⟨a, h₁, added, rfl, rfl⟩ := run
  split at added
  · cases added
    exact ⟨grows_grown .., rfl, by simp, by simp⟩
  · cases added

theorem Lists.mono {h h' : Heap} {v : Value} {vs : List Value} (lists : h.Lists v vs)
    (grows : h.Grows h') : h'.Lists v vs := by
  obtain ⟨as, spine, rfl⟩ := lists
  have same : ∀ a ∈ as, h'.cell a = h.cell a := fun a ha => grows.cell a (spine.owned ha)
  refine ⟨as, spine.congr grows.size_le fun a ha => congrArg Cell.cdr (same a ha), ?_⟩
  exact List.map_congr_left fun a ha => (congrArg Cell.car (same a ha)).symm

theorem toList?_eq_some_iff {h : Heap} (closed : h.Closed) {v : Value} (owns : h.Owns v)
    {vs : List Value} : h.toList? v = some vs ↔ ∃ as, h.Spine v as ∧ vs = as.map h.car := by
  constructor
  · intro some
    simpa using spine_of_collect closed owns some
  · rintro ⟨as, hs, rfl⟩
    exact toList?_of_spine hs

/-- The cells that can be reached from a value by car and cdr. -/
inductive Reachable (h : Heap) (root : Value) : Addr → Prop where
  | root {a : Addr} (here : root = .pair a) : Reachable h root a
  | car {a b : Addr} (before : Reachable h root a) (link : h.car a = .pair b) :
    Reachable h root b
  | cdr {a b : Addr} (before : Reachable h root a) (link : h.cdr a = .pair b) :
    Reachable h root b

theorem Reachable.owned {h : Heap} (closed : h.Closed) {root : Value} (owns : h.Owns root)
    {a : Addr} (ha : h.Reachable root a) : a < h.size := by
  induction ha with
  | root here => exact owns _ here
  | car _ link _ => exact (closed _).1 _ link
  | cdr _ link _ => exact (closed _).2 _ link

/-- What is reached from a list is one of its cells or reached from an element. -/
theorem Spine.mem_or_reachable {h : Heap} {v : Value} {as : List Addr} (hs : h.Spine v as)
    {a : Addr} (ha : h.Reachable v a) : a ∈ as ∨ ∃ b ∈ as, h.Reachable (h.car b) a := by
  induction ha with
  | root here =>
    subst here
    cases hs
    exact .inl List.mem_cons_self
  | car _ link ih =>
    obtain mem | ⟨b, mem, reached⟩ := ih
    · exact .inr ⟨_, mem, .root link⟩
    · exact .inr ⟨b, mem, reached.car link⟩
  | cdr _ link ih =>
    obtain mem | ⟨b, mem, reached⟩ := ih
    · obtain last | ⟨c, next, link'⟩ := hs.cdr_mem mem
      · rw [last] at link
        cases link
      · rw [link'] at link
        cases link
        exact .inl next
    · exact .inr ⟨b, mem, reached.cdr link⟩

end Heap

end SecdLisp
