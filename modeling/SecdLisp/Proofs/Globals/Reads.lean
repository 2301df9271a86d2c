import SecdLisp.Proofs.Globals.Stores

/-!
# Reading global variables

The code of a global name loads what is in its slot. With nothing in the slot that is an error; but a
slot that was passed over is there, and has nil in it.
-/

namespace SecdLisp

namespace Compile

open Heap Discipline

variable {ω : Type} {s : State ω} {x : Symbol} {slot : Nat}

/-- Code that loads the value of a global name, and halts. -/
def Loads (h : Heap) (slot : Nat) (code : Value) : Prop :=
  ∃ a b c d, code = .pair a ∧ h.cell a = ⟨.op .ld, .pair b⟩ ∧ h.cell b = ⟨.pair c, .pair d⟩ ∧
    h.cell c = ⟨.int (Int64.ofNat 1), .int (Int64.ofNat slot)⟩ ∧ h.cell d = ⟨.op .halt, .nil⟩

theorem ends_inspect {α : Type} {f : Globals → α} {p : α → State ω → Prop}
    {q : Error → State ω → Prop} : Ends (inspect f) s p q ↔ p (f s.globals) s := Iff.rfl

theorem ends_program_ident (recorder : Recorder ω) (symbols : SymbolTable) (steps : Nat)
    (known : s.globals.functionSlot? x = some slot) :
    Ends (program recorder symbols steps (.ident x)) s
      (fun code t => t.globals = s.globals ∧ s.heap.Grows t.heap ∧
        t.heap.capacity = s.heap.capacity ∧ t.heap.size = s.heap.size + 4 ∧ Loads t.heap slot code)
      fun e _ => e = .heapFull ∧ s.heap.capacity < s.heap.size + 4 := by
  show Ends (emit [.op .halt] .nil >>= identifier ⟨symbols, steps, recorder, [], 0⟩ x) s _ _
  have nowhere : (⟨symbols, steps, recorder, [], 0⟩ : Context ω).locate? x = none := rfl
  simp only [emit, address, Heap.listWithTail, List.foldrM_cons, List.foldrM_nil, pure_bind,
    ends_bind, ends_onHeap, identifier, nowhere, ends_inspect, known]
  refine ends_added (fun h₁ halt => ?_) fun full => ⟨rfl, by omega⟩
  have size₁ := halt.size
  have capacity₁ := halt.capacity
  refine ends_added (fun h₂ place => ?_) fun full => ⟨rfl, by omega⟩
  have size₂ := place.size
  have capacity₂ := place.capacity
  refine ends_added (fun h₃ operand => ?_) fun full => ⟨rfl, by omega⟩
  have size₃ := operand.size
  have capacity₃ := operand.capacity
  refine ends_added (fun h₄ load => ?_) fun full => ⟨rfl, by omega⟩
  have size₄ := load.size
  have grows₃ := operand.grows.trans load.grows
  have grows₂ := place.grows.trans grows₃
  refine ⟨trivial, halt.grows.trans grows₂, ?_, by omega, h₃.size, h₂.size, h₁.size, s.heap.size,
    rfl, load.cell, ?_, ?_, ?_⟩
  · rw [load.capacity, capacity₃, capacity₂, capacity₁]
  · exact (load.grows.cell _ (by omega)).trans operand.cell
  · exact (grows₃.cell _ (by omega)).trans place.cell
  · exact (grows₂.cell _ (by omega)).trans halt.cell

end Compile

namespace Machine

open Compile Heap

variable {h : Heap} {slot n : Nat} {code : Value}

theorem runFrom_halt (symbols : SymbolTable) {r : Registers} {d : Addr} {rest : Value}
    (code : r.code = .pair d) (halt : h.cell d = ⟨.op .halt, rest⟩) :
    runFrom symbols (n + 1) r h = .ok ((h.carOf? r.stack).getD .nil) h := by
  obtain ⟨stack, env, _, dump⟩ := r
  obtain rfl := code
  have fetch : operand ⟨stack, env, .pair d, dump⟩ h =
      .ok (.op .halt, ⟨stack, env, rest, dump⟩) h := by
    show EStateM.Result.ok ((h.cell d).car, Registers.mk stack env (h.cell d).cdr dump) h = _
    rw [halt]
  rw [runFrom_succ, step_eq symbols fetch]
  rfl

/-- The code of a global name runs to the value in its slot, and needs a cell for that. -/
theorem ends_run_loads (symbols : SymbolTable) (env : Value) (loads : Loads h slot code)
    (positive : 0 < slot) (few : slot < 2 ^ 63) : Ends (run symbols n env code) h
      (fun v _ => h.lookup? env 1 slot = some v ∧ h.size < h.capacity)
      fun e _ => e = .outOfSteps ∧ n < 2 ∨ e = .heapFull ∧ h.capacity ≤ h.size ∨
        h.lookup? env 1 slot = none ∧ e = .runtime (.unbound 1 slot) (start env code) := by
  obtain ⟨a, b, c, d, rfl, load, operand, place, halt⟩ := loads
  have fetched : h.carOf? (.pair a) = some (.op .ld) := congrArg (some ∘ Cell.car) load
  have second : h.cdrOf? (.pair a) = some (.pair b) := congrArg (some ∘ Cell.cdr) load
  have spelled : address h (start env (.pair a)) = some (1, slot) := by
    have here : h.carOf? (.pair b) = some (.pair c) := congrArg (some ∘ Cell.car) operand
    show ((h.cdrOf? (.pair a)).bind h.carOf?).bind (address? h) = _
    rw [second, Option.bind_some, here, Option.bind_some]
    exact address?_of_cell place ⟨Nat.one_pos, positive⟩ ⟨by decide, few⟩
  cases n with
  | zero => exact .inl ⟨rfl, Nat.two_pos⟩
  | succ n =>
    obtain ⟨next, behind, ends⟩ := ends_load fetched spelled symbols rfl
    obtain rfl : .pair d = next := by
      have third : h.cdrOf? (.pair b) = some (.pair d) := congrArg (some ∘ Cell.cdr) operand
      have behind : (h.cdrOf? (.pair a)).bind h.cdrOf? = some next := behind
      rw [second, Option.bind_some, third] at behind
      exact Option.some.inj behind
    unfold Ends run at *
    rw [runFrom_succ]
    cases ran : step symbols (start env (.pair a)) h with
    | error e h' =>
      rw [ran] at ends
      rcases ends with ⟨none, rfl, _⟩ | full
      · exact .inr (.inr ⟨none, rfl⟩)
      · exact .inr (.inl full)
    | ok o h' =>
      rw [ran] at ends
      obtain ⟨v, found, added, rfl⟩ := ends
      cases n with
      | zero => exact .inl ⟨rfl, Nat.one_lt_two⟩
      | succ n =>
        have owned : d < h.size := by
          refine Nat.lt_of_not_le fun le => ?_
          rw [cell_of_le le] at halt
          cases halt
        dsimp only
        rw [runFrom_halt symbols rfl ((added.grows.cell d owned).trans halt)]
        have top : h'.carOf? (.pair h.size) = some v := congrArg (some ∘ Cell.car) added.cell
        exact ⟨by rw [top]; exact found, added.room⟩

end Machine

namespace Session

open Compile Discipline Heap Machine

variable {s : Session} {history before : List Moment} {m : Moment} {x : Symbol} {slot : Nat}

theorem ends_compile_ident (known : s.globals.functionSlot? x = some slot) (steps : Nat) :
    Ends (compile steps (.ident x)) s
      (fun code t => t.globals = s.globals ∧ s.heap.Grows t.heap ∧
        t.heap.capacity = s.heap.capacity ∧ t.heap.size = s.heap.size + 4 ∧ Loads t.heap slot code)
      fun e _ => e = .heapFull ∧ s.heap.capacity < s.heap.size + 4 := by
  obtain ⟨h, symbols, g, log⟩ := s
  have ends := ends_program_ident (s := ⟨h, g, log⟩) Log.recorder symbols steps known
  unfold compile Ends
  dsimp only
  rw [toplevel_eq]
  unfold Ends at ends
  cases ran : program Log.recorder symbols steps (.ident x) ⟨h, g, log⟩ <;>
  · rw [ran] at ends
    exact ends

/-- Evaluating a global name comes to the value in its slot, unless there is no room or the run is cut
short. -/
theorem ends_eval_ident (known : s.globals.functionSlot? x = some slot) (positive : 0 < slot)
    (few : slot < 2 ^ 63) (steps : Nat) :
    Ends (eval steps (.ident x)) s
      (fun v _ => s.heap.size + 5 ≤ s.heap.capacity ∧
        ∃ h, s.heap.Grows h ∧ h.lookup? s.globals.env 1 slot = some v)
      fun e _ => e = .outOfSteps ∧ steps < 2 ∨ e = .heapFull ∧ s.heap.capacity < s.heap.size + 5 ∨
        ∃ h r, s.heap.Grows h ∧ h.lookup? s.globals.env 1 slot = none ∧
          e = .runtime (.unbound 1 slot) r := by
  rw [eval, ends_bind]
  refine (ends_compile_ident known steps).mono ?_ ?_
  · rintro code ⟨h, symbols, g, log⟩ ⟨rfl, grows, capacity, size, loads⟩
    dsimp only at grows capacity size loads
    rw [ends_bind]
    have ends := ends_run_loads (n := steps) symbols s.globals.env loads positive few
    unfold run
    unfold Ends at ends ⊢
    dsimp only
    cases ran : Machine.run symbols steps s.globals.env code h with
    | ok v h' =>
      rw [ran] at ends
      obtain ⟨found, room⟩ := ends
      exact ⟨by omega, h, grows, found⟩
    | error e h' =>
      rw [ran] at ends
      rcases ends with cut | ⟨rfl, full⟩ | ⟨none, rfl⟩
      · exact .inl cut
      · exact .inr (.inl ⟨rfl, by omega⟩)
      · exact .inr (.inr ⟨h, _, grows, none, rfl⟩)
  · rintro e t ⟨rfl, full⟩
    exact .inr (.inl ⟨rfl, by omega⟩)

theorem Story.slot_lt (story : Story s history) (honest : Honest history)
    (known : s.globals.functionSlot? x = some slot) :
    0 < slot ∧ (s.heap.size < s.heap.capacity → slot < 2 ^ 63) := by
  obtain ⟨o, described⟩ := story.holds
  have known : Globals.slotIn? (s.globals.table .functions) x = some slot := known
  obtain ⟨positive, few⟩ := slotted_of_slotIn? described known
  cases o with
  | none => exact (described.2 honest).elim
  | some w =>
    have heap : s.heap = w.heap := described.2.heap
    rw [heap]
    exact ⟨positive, few w rfl⟩

/-- A global name that is evaluated is read from what the stores have made of the value frame. -/
theorem Story.ends_eval (story : Story s history) (honest : Honest history)
    (known : s.globals.functionSlot? x = some slot) (steps : Nat) :
    Ends (eval steps (.ident x)) s
      (fun v _ => valueAfter? slot (stores s.globals.env history) = some v)
      fun e _ => e = .outOfSteps ∧ steps < 2 ∨ e = .heapFull ∧ s.heap.capacity < s.heap.size + 5 ∨
        valueAfter? slot (stores s.globals.env history) = none ∧
          ∃ r, e = .runtime (.unbound 1 slot) r := by
  obtain ⟨positive, few⟩ := story.slot_lt honest known
  obtain ⟨a, b, root, now, _⟩ := story.laid honest
  by_cases room : s.heap.size < s.heap.capacity
  · have found (h : Heap) (grows : s.heap.Grows h) :
        h.lookup? s.globals.env 1 slot = valueAfter? slot (stores s.globals.env history) := by
      refine ((now room).grows grows).lookup? ?_ positive
      rw [root]
      rfl
    refine (ends_eval_ident known positive (few room) steps).mono ?_ ?_
    · rintro v _ ⟨_, h, grows, value⟩
      exact (found h grows).symm.trans value
    · rintro e _ (cut | full | ⟨h, r, grows, none, error⟩)
      · exact .inl cut
      · exact .inr (.inl full)
      · exact .inr (.inr ⟨(found h grows).symm.trans none, r, error⟩)
  · rw [eval, ends_bind]
    refine (ends_compile_ident known steps).mono ?_ ?_
    · rintro _ t ⟨_, _, capacity, size, _⟩
      have le : t.heap.size ≤ t.heap.capacity := t.heap.size_le
      omega
    · rintro e t ⟨rfl, full⟩
      exact .inr (.inl ⟨rfl, by omega⟩)

theorem Story.load (story : Story s history) (honest : Honest history)
    (here : before ++ [m] <+: history) (loads : m.slot? .ld s.globals.env = some slot) :
    (∀ v, m.left? = some v → valueAfter? slot (stores s.globals.env before) = some v) ∧
      (m.left? = none → m.heap.capacity ≤ m.heap.size ∨
        valueAfter? slot (stores s.globals.env before) = none ∧ ∃ depth,
          m.outcome = .error (.runtime (.unbound depth slot) m.registers) m.heap) := by
  obtain ⟨a, b, root, _, earlier⟩ := story.laid honest
  have positive := Moment.positive_of_slot? loads
  obtain ⟨instruction, depth, a', root', place, found⟩ := Moment.slot?_eq_some.mp loads
  obtain rfl : a = a' := Value.pair.inj (root.symm.trans root')
  have held (room : m.heap.size < m.heap.capacity) :
      m.heap.lookup? m.registers.env depth slot = valueAfter? slot (stores s.globals.env before) :=
    (earlier before m here room).lookup? found positive
  obtain ⟨code, _, ends⟩ := ends_load instruction place m.symbols rfl
  have outcome : m.outcome = step m.symbols m.registers m.heap := rfl
  unfold Ends at ends
  unfold Moment.left?
  rw [outcome]
  cases ran : step m.symbols m.registers m.heap with
  | ok o h' =>
    rw [ran] at ends
    obtain ⟨v, value, added, rfl⟩ := ends
    have top : h'.carOf? (.pair m.heap.size) = some v := congrArg (some ∘ Cell.car) added.cell
    dsimp only
    rw [top]
    refine ⟨?_, nofun⟩
    rintro _ ⟨⟩
    exact (held added.room).symm.trans value
  | error e h' =>
    rw [ran] at ends
    refine ⟨nofun, fun _ => ?_⟩
    by_cases room : m.heap.size < m.heap.capacity
    · rcases ends with ⟨none, rfl, rfl⟩ | ⟨_, full⟩
      · exact .inr ⟨(held room).symm.trans none, depth, rfl⟩
      · exact .inl full
    · exact .inl (Nat.le_of_not_lt room)

/-- What a global variable is read as, whether its name is evaluated or it is read on the way. A read
that comes to a value comes to the one that was last stored for the name, or to nil if nothing was
stored for it and its slot was passed over by a store for a later name. As long as neither is so,
reading it is an error. -/
theorem global_read (story : Story s history) (honest : Honest history) :
    (∀ x slot steps, s.globals.functionSlot? x = some slot →
      Ends (eval steps (.ident x)) s
        (fun v _ => latest? slot (stores s.globals.env history) = some v ∨
          v = .nil ∧ PassedOver slot (stores s.globals.env history))
        fun e _ => e = .outOfSteps ∧ steps < 2 ∨ e = .heapFull ∧ s.heap.capacity < s.heap.size + 5 ∨
          (∀ p ∈ stores s.globals.env history, p.1 < slot) ∧
            ∃ r, e = .runtime (.unbound 1 slot) r) ∧
    ∀ before m slot, before ++ [m] <+: history → m.slot? .ld s.globals.env = some slot →
      (∀ v, m.left? = some v → latest? slot (stores s.globals.env before) = some v ∨
        v = .nil ∧ PassedOver slot (stores s.globals.env before)) ∧
      (m.left? = none → m.heap.capacity ≤ m.heap.size ∨
        (∀ p ∈ stores s.globals.env before, p.1 < slot) ∧
          ∃ depth, m.outcome = .error (.runtime (.unbound depth slot) m.registers) m.heap) := by
  refine ⟨fun x slot steps known => ?_, fun before m slot here loads => ?_⟩
  · refine (story.ends_eval honest known steps).mono ?_ ?_
    · exact fun v _ => valueAfter?_eq_some.mp
    · rintro e _ (cut | full | ⟨none, unbound⟩)
      · exact .inl cut
      · exact .inr (.inl full)
      · exact .inr (.inr ⟨valueAfter?_eq_none.mp none, unbound⟩)
  · obtain ⟨value, error⟩ := story.load honest here loads
    refine ⟨fun v left => valueAfter?_eq_some.mp (value v left), fun none => ?_⟩
    exact (error none).imp_right fun ⟨none, unbound⟩ => ⟨valueAfter?_eq_none.mp none, unbound⟩

/-- A session that is about to compile an assignment to `a` that is not carried out. -/
def skipping : Session := left (readNext (.ofString "(if nil (set a 1) nil)")) spacious

/-- Then `a` is read, `b` is assigned, and `a` is read again. -/
def missing : Session := left (readNext (.ofString "a")) (left (eval 20 (.pair 8)) skipping)

def passing : Session :=
  left (readNext (.ofString "(set b 2)")) (left (eval 20 (.ident 24)) missing)

@[irreducible] def passed : Session :=
  left (readNext (.ofString "a")) (left (eval 20 (.pair 31)) passing)

@[irreducible] def passage : List Moment :=
  evaluated 20 (.pair 31) passing <| evaluated 20 (.ident 24) missing <|
    evaluated 20 (.pair 8) skipping []

theorem story_passed : Story passed passage := by
  have made : create 64 .quiet = .ok spacious := rfl
  have first : value? (readNext (.ofString "(if nil (set a 1) nil)")) spacious =
      some (some (.pair 8), ⟨22, []⟩) := by decide +kernel
  have second : value? (readNext (.ofString "a")) (left (eval 20 (.pair 8)) skipping) =
      some (some (.ident 24), ⟨1, []⟩) := by decide +kernel
  have third : value? (readNext (.ofString "(set b 2)")) (left (eval 20 (.ident 24)) missing) =
      some (some (.pair 31), ⟨9, []⟩) := by decide +kernel
  unfold passed passage
  exact ((((Story.created made).evaluated first 20).evaluated second 20).evaluated third 20).read _

theorem honest_passage : Honest passage := by decide +kernel

/-- There, `b` is what was assigned to it, and the first read of `a` was an error. -/
theorem global_read_passed :
    (∃ v, value? (eval 20 (.ident 25)) passed = some v ∧
      latest? 2 (stores passed.globals.env passage) = some v) ∧
    ∃ m ∈ passage, ∃ depth, m.outcome = .error (.runtime (.unbound depth 1) m.registers) m.heap := by
  obtain ⟨evaluated, loaded⟩ := global_read story_passed honest_passage
  have known : passed.globals.functionSlot? 25 = some 2 := by decide +kernel
  have found : value? (eval 20 (.ident 25)) passed = some (.int 2) := by decide +kernel
  have run := eq_ok_of_value? found
  have value := (evaluated 25 2 20 known).of_eq_ok run
  have lt : 5 < passage.length := by decide +kernel
  have loads : passage[5].slot? .ld passed.globals.env = some 1 := by decide +kernel +revert
  have fails : passage[5].left? = none := by decide +kernel +revert
  have room : ¬passage[5].heap.capacity ≤ passage[5].heap.size := by decide +kernel +revert
  have here : passage.take 5 ++ [passage[5]] <+: passage :=
    List.take_concat_get' passage 5 lt ▸ List.take_prefix ..
  have error := ((loaded _ _ 1 here loads).2 fails).resolve_left room
  exact ⟨⟨_, found, value.resolve_right fun skipped => nomatch skipped.1⟩, _,
    List.getElem_mem lt, error.2⟩

/-- But once `b` was assigned, `a` is nil, though nothing was ever assigned to it. -/
theorem passed_over_read : Story passed passage ∧ Honest passage ∧
    passed.globals.functionSlot? 24 = some 1 ∧
    stores passed.globals.env passage = [(2, .int 2)] ∧
    value? (eval 20 (.ident 24)) passed = some .nil := by
  refine ⟨story_passed, honest_passage, ?_, ?_, ?_⟩ <;> decide +kernel

end Session

end SecdLisp
