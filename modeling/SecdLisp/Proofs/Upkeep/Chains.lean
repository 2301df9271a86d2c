import SecdLisp.Proofs.Upkeep.Arising

/-!
# Chains along cdr

Following cdr from a value leads to an atom, since a cell only ever gets a cdr that is older than
it, or a last cell of its own. Addresses do not measure this: a frame that grew leads from an old
cell to a new one. Where every chain ends, the walks along a list are never cut short.
-/

namespace SecdLisp

namespace Heap

/-- Following cdr from the value reaches an atom. -/
def Unwinds (h : Heap) (v : Value) : Prop := ∃ as last, h.Chain v as last

variable {names : Nat} {h h' : Heap} {v last : Value} {as : List Addr}

namespace Chain

theorem owned (chain : h.Chain v as last) (sound : h.Sound names) (known : h.Knows names v) :
    ∀ a ∈ as, a < h.size := by
  induction chain with
  | last => exact nofun
  | @cell a _ _ _ ih =>
    exact List.forall_mem_cons.mpr ⟨known, ih (sound a).2⟩

theorem length_le (chain : h.Chain v as last) (sound : h.Sound names) (known : h.Knows names v) :
    as.length ≤ h.size := length_le_of_nodup chain.nodup (chain.owned sound known)

theorem countFrom (chain : h.Chain v as last) {fuel : Nat} (enough : as.length ≤ fuel) (n : Nat) :
    h.countFrom fuel v n = n + as.length := by
  induction chain generalizing fuel n with
  | @last v atom => cases v <;> cases fuel <;> simp_all [Heap.countFrom, Value.isPair]
  | cell rest ih =>
    cases fuel with
    | zero => cases enough
    | succ fuel =>
      rw [Heap.countFrom, ih (Nat.le_of_succ_le_succ enough), List.length_cons]
      omega

end Chain

/-- The walks along a chain tell what is on it, and given any more fuel they tell the same. -/
structure Walked (h : Heap) (v : Value) (as : List Addr) (last : Value) : Prop where
  collect : ∀ fuel, h.size ≤ fuel → h.collect fuel v [] = h.toList? v
  count : ∀ fuel, h.size ≤ fuel → h.countFrom fuel v 0 = h.chainLength v
  list : h.toList? v = if last = .nil then some (as.map h.car) else none
  proper : h.isProperList v = true ↔ last = .nil
  length : h.chainLength v = as.length

theorem Chain.walked (chain : h.Chain v as last) (sound : h.Sound names)
    (known : h.Knows names v) : h.Walked v as last := by
  have few := chain.length_le sound known
  have collected (fuel : Nat) (le : h.size ≤ fuel) := chain.collect (Nat.le_trans few le) []
  have counted (fuel : Nat) (le : h.size ≤ fuel) := chain.countFrom (Nat.le_trans few le) 0
  simp only [List.reverse_nil, List.nil_append] at collected
  simp only [Nat.zero_add] at counted
  have list := collected h.size (Nat.le_refl _)
  have count := counted h.size (Nat.le_refl _)
  refine ⟨fun fuel le => ?_, fun fuel le => ?_, list, ?_, count⟩
  · rw [collected fuel le]
    exact list.symm
  · rw [counted fuel le]
    exact count.symm
  · rw [isProperList, toList?, list]
    split <;> simp [*]

theorem unwinds_of_isPair (atom : v.isPair = false) : h.Unwinds v := ⟨[], v, .last atom⟩

theorem Unwinds.cell {a : Addr} (rest : h.Unwinds (h.cdr a)) : h.Unwinds (.pair a) := by
  obtain ⟨as, last, chain⟩ := rest
  exact ⟨a :: as, last, .cell chain⟩

/-- An address beyond the heap is a cell of two nils. -/
theorem unwinds_of_le {a : Addr} (beyond : h.size ≤ a) : h.Unwinds (.pair a) := by
  refine .cell ?_
  rw [cdr, cell_of_le beyond]
  exact unwinds_of_isPair rfl

theorem unwinds_of_cells (cells : ∀ a < h.size, h.Unwinds (.pair a)) : ∀ v, h.Unwinds v := by
  intro v
  cases v with
  | pair a =>
    by_cases owned : a < h.size
    · exact cells a owned
    · exact unwinds_of_le (Nat.le_of_not_lt owned)
  | _ => exact unwinds_of_isPair rfl

/-- A change to a heap where every chain ends leaves such a heap. -/
theorem Change.unwinds (change : Change names h h') (sound : h.Sound names)
    (all : ∀ v, h.Unwinds v) : ∀ v, h'.Unwinds v := by
  cases change with
  | @added car cdr knownCar knownCdr room =>
    have old (v : Value) (known : h.Knows names v) : (h.grown ⟨car, cdr⟩ room).Unwinds v := by
      obtain ⟨as, last, chain⟩ := all v
      refine ⟨as, last, chain.congr fun a mem => ?_⟩
      rw [Heap.cdr, cell_grown_of_lt (chain.owned sound known a mem), Heap.cdr]
    refine unwinds_of_cells fun a owned => ?_
    rcases Nat.lt_succ_iff_lt_or_eq.mp (size_grown h _ room ▸ owned) with lt | rfl
    · exact old _ lt
    · refine .cell ?_
      rw [Heap.cdr, cell_grown_size]
      exact old _ knownCdr
  | @stored a w owned known =>
    intro v
    obtain ⟨as, last, chain⟩ := all v
    refine ⟨as, last, chain.congr fun b _ => ?_⟩
    rw [cdr, cell_updated, cdr]
    split <;> rfl
  | lengthened owned stop room =>
    intro v
    obtain ⟨as, last, chain⟩ := all v
    exact ⟨_, last, chain.lengthened owned stop room⟩

theorem Changes.unwinds (changes : Changes names h h') (sound : h.Sound names)
    (all : ∀ v, h.Unwinds v) : ∀ v, h'.Unwinds v := by
  induction changes with
  | refl => exact all
  | tail before change ih => exact change.unwinds (Changes.sound before sound) ih

end Heap

namespace Session

open Heap Machine

variable {s s' t : Session} {image : Image} {names : Array Symbol}

theorem Installed.unwinds_slot (installed : Installed image names s s') {h : Heap} {root : Value}
    {order : List Addr} (charts : image.Charts (image.Outlines order) h root order) {v last : Value}
    {as : List Addr} (chain : h.Chain v as last) {slot : Slot}
    (outlines : image.Outlines order v slot) :
    s'.heap.Unwinds (slotValue names s.heap.size slot) := by
  induction chain generalizing slot with
  | @last v atom =>
    cases v with
    | pair => cases atom
    | ident =>
      obtain ⟨i, rfl, _⟩ := outlines
      exact unwinds_of_isPair rfl
    | _ =>
      cases outlines
      exact unwinds_of_isPair rfl
  | @cell a as _ _ ih =>
    obtain ⟨i, rfl, here⟩ := outlines
    obtain ⟨c, hc, _, cdr⟩ := charts.cells _ a here
    refine .cell ?_
    rw [Heap.cdr, installed.new _ c hc]
    exact ih cdr

theorem Installed.unwinds (installed : Installed image names s s') {h : Heap} {root : Value}
    {order : List Addr} (charts : image.Charts (image.Outlines order) h root order)
    (inRange : s.InRange) (all : ∀ v, s.heap.Unwinds v) (source : ∀ v, h.Unwinds v) :
    ∀ v, s'.heap.Unwinds v := by
  obtain ⟨sound, _⟩ := inRange_iff.mp inRange
  refine unwinds_of_cells fun a owned => ?_
  rcases installed.cell_cases a with ⟨lt, _⟩ | ⟨i, c, hc, rfl, same⟩ | beyond
  · obtain ⟨as, last, chain⟩ := all (.pair a)
    refine ⟨as, last, chain.congr fun b mem => ?_⟩
    rw [Heap.cdr, installed.old b (chain.owned sound lt b mem), Heap.cdr]
  · have place : i < order.length := by
      rw [charts.length]
      exact (Array.getElem?_eq_some_iff.mp hc).1
    obtain ⟨d, hd, _, cdr⟩ := charts.cells i order[i] (List.getElem?_eq_getElem place)
    obtain rfl : c = d := Option.some.inj (hc.symm.trans hd)
    obtain ⟨as, last, chain⟩ := source (h.cdr order[i])
    refine .cell ?_
    rw [Heap.cdr, same]
    exact installed.unwinds_slot charts chain cdr
  · exact unwinds_of_le beyond

theorem unwinds_of_create {cells : Nat} {level : LogLevel} (new : create cells level = .ok s) :
    ∀ v, s.heap.Unwinds v := by
  obtain ⟨_, _, held⟩ := create_eq_ok new
  have size : s.heap.size = 2 := congrArg Array.size held
  have first : s.heap.Unwinds (.pair 0) := by
    refine .cell ?_
    rw [Heap.cdr, cell, held]
    exact unwinds_of_isPair rfl
  refine unwinds_of_cells fun a owned => ?_
  rw [size] at owned
  obtain rfl | rfl : a = 0 ∨ a = 1 := by omega
  · exact first
  · refine .cell ?_
    rw [Heap.cdr, cell, held]
    exact first

/-- In a session that operations lead to, without images from elsewhere, every chain ends. -/
theorem unwinds_of_arises (arises : Arises (fun _ => False) s) :
    s.InRange ∧ ∀ v, s.heap.Unwinds v := by
  refine arises.invariant (P := fun s => s.InRange ∧ ∀ v, s.heap.Unwinds v) ?_ ?_ ?_
  · exact fun _ _ s new => ⟨inRange_of_create new, unwinds_of_create new⟩
  · rintro s op native permitted ⟨inRange, all⟩
    have leaves := leaves_perform native permitted inRange
    obtain ⟨sound, _⟩ := inRange_iff.mp inRange
    have more := leaves.later.symbols.count_le
    exact ⟨leaves.inRange, leaves.later.heap.unwinds (Heap.Sound.mono sound more) all⟩
  · rintro s image (foreign | ⟨t, ⟨inRangeSource, source⟩, rfl⟩) ⟨inRange, all⟩
    · exact foreign.elim
    refine ⟨(leaves_restore _ inRange).1, ?_⟩
    unfold perform answered
    dsimp only
    cases run : restore t.image s with
    | ok _ s' =>
      obtain ⟨_, names, installed⟩ := installed_of_restore run
      obtain ⟨order, charts⟩ := Image.capture_outlines t.symbols inRangeSource.closed
        inRangeSource.env.owns
      exact installed.unwinds charts inRange all source
    | error e s' =>
      obtain ⟨later, _⟩ := restore_error inRange run
      obtain ⟨sound, _⟩ := inRange_iff.mp inRange
      exact later.heap.unwinds (Heap.Sound.mono sound later.symbols.count_le) all

end Session

end SecdLisp
