import SecdLisp.Proofs.Globals.Passage
import SecdLisp.Proofs.Globals.Steps

/-!
# What the stores make of the value frame

Only assignments to global variables change the value frame. So it is what they make of an empty one:
each puts a value in a slot, and fills the slots before it that the frame did not have with nil.
-/

namespace SecdLisp

namespace Machine

abbrev Store := Nat × Value

/-- The frame that stores make of an empty one. -/
def frameAfter (stores : List Store) : List Value :=
  stores.foldl (fun vs p => Heap.put vs p.1 p.2) []

/-- The value of the last store to a slot. -/
def latest? (slot : Nat) (stores : List Store) : Option Value :=
  (stores.reverse.find? (·.1 = slot)).map Prod.snd

/-- Nothing was put into the slot, but something into a later one. -/
def PassedOver (slot : Nat) (stores : List Store) : Prop :=
  latest? slot stores = none ∧ ∃ p ∈ stores, slot < p.1

/-- What is in a slot after stores: one that was passed over has nil. -/
def valueAfter? (slot : Nat) (stores : List Store) : Option Value :=
  (latest? slot stores).or (if stores.any (slot < ·.1) then some .nil else none)

theorem getElem?_padded {vs : List Value} {n j : Nat} :
    (Heap.padded vs n)[j]? = if j < n then some (vs[j]?.getD .nil) else vs[j]? := by
  rw [Heap.padded]
  by_cases inside : j < vs.length
  · rw [List.getElem?_append_left inside]
    simp [List.getElem?_eq_getElem inside]
  · have behind := Nat.le_of_not_lt inside
    rw [List.getElem?_append_right behind, List.getElem?_replicate,
      List.getElem?_eq_none_iff.mpr behind]
    exact if_congr (by omega) rfl rfl

theorem getElem?_put {vs : List Value} {i j : Nat} {v : Value} : (Heap.put vs (i + 1) v)[j]? =
    if j = i then some v else if j < i then some (vs[j]?.getD .nil) else vs[j]? := by
  have long : i < (Heap.padded vs (i + 1)).length := by
    rw [Heap.padded, List.length_append, List.length_replicate]
    omega
  rw [Heap.put, Nat.add_sub_cancel, List.getElem?_set, if_pos long, getElem?_padded]
  by_cases same : i = j
  · rw [if_pos same, if_pos same.symm]
  · rw [if_neg same, if_neg (Ne.symm same)]
    exact if_congr (by omega) rfl rfl

/-- A slot holds what its last store put there, or nil if a store to a later slot passed it over. -/
theorem getElem?_frameAfter {j : Nat} {stores : List Store} (positive : ∀ p ∈ stores, 0 < p.1) :
    (frameAfter stores)[j]? = valueAfter? (j + 1) stores := by
  induction stores using List.reverseRecOn with
  | nil => rfl
  | append_singleton stores p ih =>
    rw [List.forall_mem_append, List.forall_mem_singleton] at positive
    obtain ⟨slot, v⟩ := p
    obtain ⟨i, rfl⟩ : ∃ i, slot = i + 1 := ⟨slot - 1, by have := positive.2; omega⟩
    have step : frameAfter (stores ++ [(i + 1, v)]) = Heap.put (frameAfter stores) (i + 1) v := by
      rw [frameAfter, List.foldl_append]
      rfl
    rw [step, getElem?_put, ih positive.1]
    simp only [valueAfter?, latest?, List.reverse_append, List.reverse_singleton,
      List.singleton_append, List.find?_cons, List.any_append, List.any_cons, List.any_nil, Bool.or_false]
    rcases Nat.lt_trichotomy j i with before | rfl | behind
    · have passed : j + 1 < i + 1 := Nat.succ_lt_succ before
      have other : i + 1 ≠ j + 1 := Nat.ne_of_gt passed
      simp only [Nat.ne_of_lt before, before, passed, other, if_true, if_false, decide_true,
        decide_false, Bool.or_true]
      cases stores.reverse.find? (·.1 = j + 1) <;> cases stores.any (j + 1 < ·.1) <;> rfl
    · simp
    · have ahead : ¬j + 1 < i + 1 := by omega
      have other : i + 1 ≠ j + 1 := by omega
      simp only [Nat.ne_of_gt behind, Nat.not_lt_of_gt behind, ahead, other, if_false, decide_false,
        Bool.or_false]

theorem latest?_eq_none {slot : Nat} {stores : List Store} :
    latest? slot stores = none ↔ ∀ p ∈ stores, p.1 ≠ slot := by
  simp [latest?]

theorem valueAfter?_eq_some {slot : Nat} {stores : List Store} {v : Value} :
    valueAfter? slot stores = some v ↔
      latest? slot stores = some v ∨ v = .nil ∧ PassedOver slot stores := by
  have any : stores.any (slot < ·.1) = true ↔ ∃ p ∈ stores, slot < p.1 := by simp
  unfold valueAfter? PassedOver
  rw [← any]
  cases latest? slot stores with
  | some u => simp
  | none => cases stores.any (slot < ·.1) <;> simp [eq_comm]

theorem valueAfter?_eq_none {slot : Nat} {stores : List Store} :
    valueAfter? slot stores = none ↔ ∀ p ∈ stores, p.1 < slot := by
  have any : stores.any (slot < ·.1) = true ↔ ∃ p ∈ stores, slot < p.1 := by simp
  have none : valueAfter? slot stores = none ↔
      latest? slot stores = none ∧ ¬∃ p ∈ stores, slot < p.1 := by
    rw [valueAfter?, Option.or_eq_none_iff, ← any]
    cases stores.any (slot < ·.1) <;> simp
  rw [none, latest?_eq_none]
  constructor
  · rintro ⟨other, behind⟩ p mem
    exact Nat.lt_of_le_of_ne (Nat.le_of_not_lt fun lt => behind ⟨p, mem, lt⟩) (other p mem)
  · intro before
    refine ⟨fun p mem => Nat.ne_of_lt (before p mem), ?_⟩
    rintro ⟨p, mem, lt⟩
    exact Nat.lt_asymm (before p mem) lt

theorem address?_positive {h : Heap} {v : Value} {depth slot : Nat}
    (spelled : address? h v = some (depth, slot)) : 0 < depth ∧ 0 < slot := by
  have positive {n : Int64} (lt : 0 < n) : 0 < n.toInt.toNat := by
    rw [Int64.lt_iff_toInt_lt] at lt
    exact Int.pos_iff_toNat_pos.mp lt
  unfold address? at spelled
  split at spelled
  · split at spelled
    next both =>
      cases spelled
      exact ⟨positive both.1, positive both.2⟩
    next => cases spelled
  · cases spelled

namespace Moment

variable {m : Moment} {o : Opcode} {root : Value} {slot : Nat} {p : Store}

/-- The slot that the instruction is about, if it is that operation on the frame of that cell of the
environment. -/
def slot? (m : Moment) (o : Opcode) (root : Value) : Option Nat :=
  (address m.heap m.registers).bind fun (depth, slot) =>
    if m.instruction? = some (.op o) ∧
        (m.heap.frameHolder? m.registers.env depth).map Value.pair = some root
    then some slot else none

/-- What the instruction puts into the frame of that cell of the environment. -/
def stored? (m : Moment) (root : Value) : Option Store :=
  match m.outcome with
  | .ok _ _ => (m.slot? .st root).bind fun slot => (m.heap.carOf? m.registers.stack).map (slot, ·)
  | .error _ _ => none

theorem slot?_eq_some : m.slot? o root = some slot ↔ m.instruction? = some (.op o) ∧
    ∃ depth a, root = .pair a ∧ address m.heap m.registers = some (depth, slot) ∧
      m.heap.frameHolder? m.registers.env depth = some a := by
  unfold slot?
  constructor
  · intro found
    obtain ⟨⟨depth, slot'⟩, place, here⟩ := Option.bind_eq_some_iff.mp found
    dsimp only at here
    split at here
    next both =>
      cases here
      obtain ⟨a, holder, rfl⟩ := Option.map_eq_some_iff.mp both.2
      exact ⟨both.1, depth, a, rfl, place, holder⟩
    next => cases here
  · rintro ⟨instruction, depth, a, rfl, place, holder⟩
    rw [place, Option.bind_some]
    exact if_pos ⟨instruction, by rw [holder]; rfl⟩

theorem positive_of_slot? (found : m.slot? o root = some slot) : 0 < slot := by
  obtain ⟨_, _, _, _, place, _⟩ := slot?_eq_some.mp found
  obtain ⟨_, _, spelled⟩ := Option.bind_eq_some_iff.mp place
  exact (address?_positive spelled).2

theorem slot?_of_stored? (found : m.stored? root = some p) : m.slot? .st root = some p.1 := by
  unfold stored? at found
  split at found
  · obtain ⟨slot, here, value⟩ := Option.bind_eq_some_iff.mp found
    obtain ⟨v, _, rfl⟩ := Option.map_eq_some_iff.mp value
    exact here
  · cases found

end Moment

/-- What the instructions of a history put into the frame of that cell of the environment. -/
def stores (root : Value) (history : List Moment) : List Store := history.filterMap (·.stored? root)

theorem positive_of_stores {root : Value} {history : List Moment} :
    ∀ p ∈ stores root history, 0 < p.1 := by
  intro p mem
  obtain ⟨m, _, found⟩ := List.mem_filterMap.mp mem
  exact Moment.positive_of_slot? (Moment.slot?_of_stored? found)

theorem frameAfter_snoc {root : Value} {history : List Moment} {m : Moment} :
    frameAfter (stores root (history ++ [m])) =
      (m.stored? root).elim (frameAfter (stores root history)) fun p =>
        Heap.put (frameAfter (stores root history)) p.1 p.2 := by
  unfold stores frameAfter
  rw [List.filterMap_append, List.foldl_append]
  cases found : m.stored? root <;> simp [found]

end Machine

namespace Discipline

open Heap Machine

namespace World

variable {w : World} {a b : Addr} {scopes : List Frame} {cells : List Addr} {values : List Value}
  {env v : Value} {r : Registers} {m : Moment} {h : Heap}

/-- The cells of the global environment: the one that holds the value frame, and the one behind it. -/
structure Global (w : World) (a b : Addr) : Prop where
  root : w.root = .pair a
  first : w.InEnv a none
  link : w.heap.cdr a = .pair b
  second : w.InEnv b none

theorem Typed.global (typed : w.Typed) : ∃ a b, w.Global a b := by
  obtain ⟨a, b, root, first, link, second⟩ := typed.root
  exact ⟨a, b, root, first, link, second⟩

theorem Global.past (global : w.Global a b) (past : w.Past m) : ∃ w₀ : World, w₀.heap = m.heap ∧
    w₀.heap.capacity = w.heap.capacity ∧ w₀.Typed ∧ w₀.Ready m.registers ∧ w₀.Global a b := by
  obtain ⟨w₀, le, heap, typed, ready⟩ := past
  obtain ⟨a₀, b₀, global₀⟩ := typed.global
  obtain rfl : a = a₀ := Value.pair.inj (global.root.symm.trans (le.root.trans global₀.root))
  have link := le.cdr a global₀.first.1 _ global₀.first.2
  obtain rfl : b = b₀ := Value.pair.inj (global.link.symm.trans (link.trans global₀.link))
  exact ⟨w₀, heap, le.capacity.symm, typed, ready, global₀⟩

/-- A frame that an address is in is local, or one of the two global ones. -/
theorem Global.frameHolder? (global : w.Global a b) {depth : Nat} (frames : w.Env scopes env)
    (positive : 0 < depth) (le : depth ≤ scopes.length + 2) :
    ∃ c, w.heap.frameHolder? env depth = some c ∧ ((∃ n, w.InEnv c (some n)) ∨ c = a ∨ c = b) := by
  induction scopes generalizing env depth with
  | nil =>
    obtain rfl : env = .pair a := frames.trans global.root
    match depth with
    | 1 => exact ⟨a, rfl, .inr (.inl rfl)⟩
    | 2 => exact ⟨b, frameHolder?_next global.link Nat.one_pos rfl, .inr (.inr rfl)⟩
  | cons frame scopes ih =>
    obtain ⟨c, rfl, lt, role, rest⟩ := frames
    match depth with
    | 1 => exact ⟨c, rfl, .inl ⟨_, lt, role⟩⟩
    | depth + 2 =>
      obtain ⟨d, found, known⟩ := ih rest (Nat.succ_pos depth) (Nat.le_of_succ_le_succ le)
      exact ⟨d, frameHolder?_next rfl (Nat.succ_pos depth) found, known⟩

theorem Typed.inFrame_of_spine (typed : w.Typed) (framed : w.Framed none v)
    (spine : w.heap.Spine v cells) : ∀ c ∈ cells, w.InFrame c none := by
  induction spine with
  | nil => simp
  | cons _ _ ih =>
    have here := framed.inFrame
    exact List.forall_mem_cons.mpr ⟨here, ih (typed.frame here).2⟩

/-- The value frame has these values, and nothing in common with the macro frame. -/
def Laid (a b : Addr) (values : List Value) (h : Heap) : Prop :=
  ∃ cells others, h.SeatsBoth a b cells others ∧ cells.map h.car = values

theorem Laid.grows {h' : Heap} (laid : Laid a b values h) (grows : h.Grows h') :
    Laid a b values h' := by
  obtain ⟨cells, others, both, rfl⟩ := laid
  obtain ⟨both', same, _⟩ := both.congr (grows.spares fun _ => False) ⟨id, id⟩ (fun _ _ => id)
    fun _ _ => id
  exact ⟨cells, others, both', same⟩

/-- What changes local frames only leaves the value frame alone. -/
theorem Global.laid_of_spares (global : w.Global a b) (typed : w.Typed)
    (laid : Laid a b values w.heap) {Z : Addr → Prop} (spares : w.heap.Spares Z h)
    (out : ∀ c, w.InEnv c none ∨ w.InFrame c none → ¬Z c) : Laid a b values h := by
  obtain ⟨cells, others, both, rfl⟩ := laid
  have frames {c : Addr} {cells : List Addr} (inEnv : w.InEnv c none)
      (seats : w.heap.Seats c cells) : ∀ d ∈ cells, ¬Z d := fun d mem =>
    out d (.inr (typed.inFrame_of_spine (typed.holder inEnv).1 seats.spine d mem))
  obtain ⟨both', same, _⟩ := both.congr spares
    ⟨out a (.inl global.first), out b (.inl global.second)⟩ (frames global.first both.first) (frames global.second both.second)
  exact ⟨cells, others, both', same⟩

/-- A store changes a frame of its own extent. -/
theorem Typed.spares_local (typed : w.Typed) {c : Addr} {n depth slot : Nat}
    (inEnv : w.InEnv c (some n)) (found : w.heap.frameHolder? env depth = some c) :
    w.heap.Spares (fun d => ((∃ k, w.InFrame d (some k)) ∨ w.heap.size ≤ d) ∨ d = c)
      (left (Heap.store env depth slot v) w.heap) := by
  refine spares_store ⟨fun _ => .inr, fun d e inside link => ?_⟩ found fun d link => ?_
  · rcases inside with ⟨k, inFrame⟩ | le
    · have next := link ▸ (typed.frame inFrame).2
      exact .inl ⟨_, next.inFrame⟩
    · rw [Heap.cdr, cell_of_le le] at link
      cases link
  · have first := link ▸ (typed.holder inEnv).1
    exact .inl ⟨_, first.inFrame⟩

theorem Ready.size_le (ready : w.Ready r) (typed : w.Typed) (symbols : SymbolTable) :
    w.heap.size ≤ (left (step symbols r) w.heap).size := by
  by_cases assigns : w.heap.carOf? r.code = some (.op .st)
  · obtain ⟨scopes, depth, slot, v, frames, place, positive, le, top⟩ := ready.assignment assigns
    obtain ⟨c, found, _⟩ := Env.frameHolder? typed frames positive.1 le
    rw [left_assignment assigns place symbols rfl top]
    exact (spares_store (Z := fun _ => True) ⟨fun _ _ => trivial, fun _ _ _ _ => trivial⟩ found
      fun _ _ => trivial).size_le
  · by_cases calls : w.heap.carOf? r.code = some (.op .rap)
    · obtain ⟨_, _, _, spares⟩ := ready.spares_rap symbols calls
      exact spares.size_le
    · exact (grows_step symbols assigns calls).size_le

theorem stored?_eq_none {symbols : SymbolTable} {c : Addr} {depth slot : Nat} (ne : c ≠ a)
    (place : address h r = some (depth, slot)) (found : h.frameHolder? r.env depth = some c) :
    (Moment.mk symbols r h).stored? (.pair a) = none := by
  rw [Option.eq_none_iff_forall_ne_some]
  intro p stored
  obtain ⟨_, _, _, same, place', found'⟩ := Moment.slot?_eq_some.mp (Moment.slot?_of_stored? stored)
  cases place.symm.trans place'
  cases same
  exact ne (Option.some.inj (found.symm.trans found'))

theorem stored?_eq_some {symbols : SymbolTable} {h' : Heap} {depth slot : Nat}
    (assigns : h.carOf? r.code = some (.op .st)) (place : address h r = some (depth, slot))
    (found : h.frameHolder? r.env depth = some a) (top : h.carOf? r.stack = some v)
    (run : Heap.store r.env depth slot v h = .ok true h') :
    (Moment.mk symbols r h).stored? (.pair a) = some (slot, v) := by
  obtain ⟨code, ran⟩ := step_assignment assigns place symbols rfl top
  rw [run] at ran
  have here : (Moment.mk symbols r h).slot? .st (.pair a) = some slot :=
    Moment.slot?_eq_some.mpr ⟨assigns, depth, a, rfl, place, found⟩
  unfold Moment.stored? Moment.outcome
  dsimp only
  rw [ran, here, Option.bind_some, top]
  rfl

/-- An instruction puts into the value frame what it stores there, unless there is no room left. -/
theorem Global.laid_after (global : w.Global a b) (typed : w.Typed) (ready : w.Ready r)
    (laid : Laid a b values w.heap) {symbols : SymbolTable}
    (room : (Moment.mk symbols r w.heap).after.size < w.heap.capacity) :
    Laid a b (((Moment.mk symbols r w.heap).stored? (.pair a)).elim values
      fun p => put values p.1 p.2) (Moment.mk symbols r w.heap).after := by
  rw [Moment.after_eq] at room ⊢
  by_cases assigns : w.heap.carOf? r.code = some (.op .st)
  · obtain ⟨scopes, depth, slot, v, frames, place, positive, le, top⟩ := ready.assignment assigns
    obtain ⟨c, found, known⟩ := global.frameHolder? frames positive.1 le
    rw [left_assignment assigns place symbols rfl top] at room ⊢
    rcases known with ⟨n, inEnv⟩ | rfl | rfl
    · -- The frame is a local one.
      have ne : c ≠ a := by
        rintro rfl
        cases inEnv.2.symm.trans global.first.2
      rw [stored?_eq_none ne place found]
      refine global.laid_of_spares typed laid (typed.spares_local inEnv found) ?_
      rintro d here ((⟨k, inFrame⟩ | le) | rfl)
      · rcases here with here | here <;> cases inFrame.2.symm.trans here.2
      · exact Nat.not_le_of_lt (here.elim And.left And.left) le
      · rcases here with here | here <;> cases inEnv.2.symm.trans here.2
    · -- The frame is the value frame.
      obtain ⟨cells, others, both, rfl⟩ := laid
      obtain ⟨_, run, rfl, cells', both', values, _⟩ :=
        NoRoom.ok_of_lt (both.ends_store (v := v) found positive.2) room
      rw [stored?_eq_some assigns place found top run]
      exact ⟨cells', others, both', values⟩
    · -- The frame is the macro frame.
      obtain ⟨cells, others, both, rfl⟩ := laid
      obtain ⟨_, _, _, others', both', _, values⟩ :=
        NoRoom.ok_of_lt (both.symm.ends_store (v := v) found positive.2) room
      rw [stored?_eq_none both.ne.symm place found]
      exact ⟨cells, others', both'.symm, values⟩
  · have none : (Moment.mk symbols r w.heap).stored? (.pair a) = none := by
      rw [Option.eq_none_iff_forall_ne_some]
      intro p stored
      exact assigns (Moment.slot?_eq_some.mp (Moment.slot?_of_stored? stored)).1
    rw [none]
    by_cases calls : w.heap.carOf? r.code = some (.op .rap)
    · obtain ⟨c, n, inEnv, spares⟩ := ready.spares_rap symbols calls
      refine global.laid_of_spares typed laid spares ?_
      rintro _ (here | here) rfl
      · cases inEnv.2.symm.trans here.2
      · cases inEnv.2.symm.trans here.2
    · exact laid.grows (grows_step symbols assigns calls)

/-- As long as there is room, the value frame is what the stores into it have made of it. -/
theorem Global.laid {first : Heap} {history : List Moment} (global : w.Global a b)
    (spans : Spans first history h) (past : ∀ m ∈ history, w.Past m) (start : Laid a b [] first)
    (room : h.size < w.heap.capacity) : Laid a b (frameAfter (stores (.pair a) history)) h := by
  induction spans with
  | started grows => exact start.grows grows
  | @ran history m h before grows ih =>
    rw [List.forall_mem_append, List.forall_mem_singleton] at past
    obtain ⟨w₀, heap, capacity, typed, ready, global₀⟩ := global.past past.2
    obtain ⟨symbols, r, h₀⟩ := m
    obtain rfl : w₀.heap = h₀ := heap
    have room : (Moment.mk symbols r w₀.heap).after.size < w.heap.capacity :=
      Nat.lt_of_le_of_lt grows.size_le room
    have size := ready.size_le typed symbols
    rw [← Moment.after_eq] at size
    have laid := ih past.1 (Nat.lt_of_le_of_lt size room)
    rw [frameAfter_snoc]
    exact (global₀.laid_after typed ready laid (capacity ▸ room)).grows grows

theorem Laid.lookup? {history : List Moment} {root : Value}
    (laid : Laid a b (frameAfter (stores root history)) h) {depth slot : Nat}
    (found : h.frameHolder? env depth = some a) (positive : 0 < slot) :
    h.lookup? env depth slot = valueAfter? slot (stores root history) := by
  obtain ⟨cells, others, both, values⟩ := laid
  rw [both.first.lookup? found positive, values, getElem?_frameAfter positive_of_stores,
    Nat.sub_add_cancel positive]

end World

end Discipline

namespace Session

open Discipline Heap Machine

variable {s : Session} {history before : List Moment} {m : Moment} {a b : Addr} {x : Symbol}

theorem laid_of_create {cells : Nat} {level : LogLevel} (new : create cells level = .ok s) :
    s.globals.env = .pair 1 ∧ s.heap.cdr 1 = .pair 0 ∧ World.Laid 1 0 [] s.heap := by
  obtain ⟨_, globals, held⟩ := create_eq_ok new
  have size : s.heap.size = 2 := congrArg Array.size held
  have cell (a : Addr) : s.heap.cell a =
      (#[⟨.nil, .nil⟩, ⟨.nil, .pair 0⟩] : Array Cell)[a]?.getD ⟨.nil, .nil⟩ := by
    rw [Heap.cell, held]
  have empty {a : Addr} (lt : a < 2) : s.heap.Seats a [] := by
    refine ⟨size ▸ lt, List.not_mem_nil, ?_⟩
    rw [Heap.car, cell]
    obtain rfl | rfl := Nat.le_one_iff_eq_zero_or_eq_one.mp (Nat.le_of_lt_succ lt)
    · exact .nil
    · exact .nil
  refine ⟨by rw [globals], by rw [Heap.cdr, cell]; rfl, [], [], ?_, rfl⟩
  exact ⟨empty Nat.one_lt_two, empty Nat.two_pos, by decide, by simp, by simp, by simp⟩

/-- Along an honest story, the value frame is what the stores into it have made of it: now, and before
each instruction. -/
theorem Story.laid (story : Story s history) (honest : Honest history) :
    ∃ a b, s.globals.env = .pair a ∧
      (s.heap.size < s.heap.capacity →
        World.Laid a b (frameAfter (stores s.globals.env history)) s.heap) ∧
      ∀ before m, before ++ [m] <+: history → m.heap.size < m.heap.capacity →
        World.Laid a b (frameAfter (stores s.globals.env before)) m.heap := by
  obtain ⟨o, described⟩ := story.holds
  cases o with
  | none => exact (described.2 honest).elim
  | some w =>
    obtain ⟨_, stands⟩ := described
    obtain ⟨a, b, global⟩ := stands.typed.global
    have heap : s.heap = w.heap := stands.heap
    have root : s.globals.env = .pair a := stands.origin.symm.trans global.root
    have past : ∀ m ∈ history, w.Past m := stands.recalls.past
    obtain ⟨_, _, s₀, new, env, spans⟩ := story.spans
    obtain ⟨env₀, link₀, start⟩ := laid_of_create new
    obtain rfl : a = 1 := Value.pair.inj (root.symm.trans (env.trans env₀))
    have kept {h : Heap} (grows : s₀.heap.Grows h) : h.cdr 1 = .pair 0 := by
      obtain ⟨_, _, both, _⟩ := start
      rw [← link₀, Heap.cdr, grows.cell 1 both.first.owned]
      rfl
    -- The two cells were linked before the first instruction, and nothing ever changes the link.
    obtain rfl : b = 0 := by
      cases history with
      | nil =>
        have link := kept (heap ▸ spans.grows)
        exact Value.pair.inj (global.link.symm.trans link)
      | cons m rest =>
        obtain ⟨w₀, heap₀, _, _, _, global₀⟩ := global.past (past m (List.mem_cons_self ..))
        have none : Spans s₀.heap [] m.heap := spans.earlier ⟨rest, rfl⟩
        have link := kept (heap₀ ▸ none.grows)
        exact Value.pair.inj (global₀.link.symm.trans link)
    refine ⟨1, 0, root, fun room => ?_, fun before m here room => ?_⟩
    · rw [root]
      exact global.laid spans past start (heap ▸ room)
    · obtain ⟨rest, rfl⟩ := here
      rw [List.append_assoc] at past
      obtain ⟨w₀, heap₀, capacity, _⟩ := global.past (past m (by simp))
      rw [root]
      refine global.laid (spans.earlier ⟨rest, rfl⟩) (fun d mem => ?_) start ?_
      · exact past d (List.mem_append_left _ mem)
      · rw [← capacity, heap₀]
        exact room

end Session

end SecdLisp
