import SecdLisp.Proofs.Graph
import SecdLisp.Proofs.Instruction
import SecdLisp.Proofs.Run

/-!
# Faults

An instruction takes its operands apart before it changes anything. So if it is at fault, the heap
and the registers are those that the instruction before it left, and the machine, started from
there, finds the same fault at once. Only where the heap is full an instruction may stop halfway.
-/

namespace SecdLisp

namespace Heap

variable {α β : Type} {x : HeapM α} {f : α → HeapM β} {h : Heap}

/-- The work leaves the heap as it is, and a fault is its only error. -/
def Looks (x : HeapM α) : Prop :=
  ∀ h, Ends x h (fun _ h' => h' = h) fun e h' => h' = h ∧ ∃ f, e = .fault f

/-- A full heap is the only error of the work. -/
def Fills (x : HeapM α) : Prop := ∀ h, Ends x h (fun _ _ => True) fun e _ => e = .heapFull

/-- Where the work is at fault, it leaves the heap as it is; a full heap is its only other error. -/
def Refuses (x : HeapM α) : Prop :=
  ∀ h, Ends x h (fun _ _ => True) fun e h' => e = .heapFull ∨ h' = h ∧ ∃ f, e = .fault f

theorem looks_pure (a : α) : Looks (pure a) := fun _ => rfl

theorem looks_read (f : Heap → α) : Looks (read f) := fun _ => rfl

theorem looks_fault (f : Fault) : Looks (throw (.fault f) : HeapM α) := fun _ => ⟨rfl, f, rfl⟩

theorem Looks.bind (first : Looks x) (next : ∀ a, Looks (f a)) : Looks (x >>= f) := by
  intro h
  rw [ends_bind]
  apply (first h).mono _ fun _ _ => id
  rintro a h' rfl
  exact next a h'

theorem Looks.refuses_bind (first : Looks x) (next : ∀ a, Refuses (f a)) : Refuses (x >>= f) := by
  intro h
  rw [ends_bind]
  apply (first h).mono
  · rintro a h' rfl
    exact next a h'
  · exact fun _ _ => .inr

theorem Looks.refuses (looks : Looks x) : Refuses x :=
  fun h => (looks h).mono (fun _ _ _ => trivial) fun _ _ => .inr

theorem refuses_pure (a : α) : Refuses (pure a) := (looks_pure a).refuses

theorem refuses_fault (f : Fault) : Refuses (throw (.fault f) : HeapM α) := (looks_fault f).refuses

theorem fills_pure (a : α) : Fills (pure a) := fun _ => trivial

theorem Fills.bind (first : Fills x) (next : ∀ a, Fills (f a)) : Fills (x >>= f) := by
  intro h
  rw [ends_bind]
  exact (first h).mono (fun a h' _ => next a h') fun _ _ => id

theorem Fills.refuses (fills : Fills x) : Refuses x :=
  fun h => (fills h).mono (fun _ _ => id) fun _ _ => .inl

/-- The heap changes behind the last fault. -/
theorem Refuses.bind_fills (first : Refuses x) (next : ∀ a, Fills (f a)) : Refuses (x >>= f) := by
  intro h
  rw [ends_bind]
  apply (first h).mono _ fun _ _ => id
  intro a h' _
  exact (next a h').mono (fun _ _ => id) fun _ _ => .inl

theorem fills_alloc (car cdr : Value) : Fills (alloc car cdr) := fun _ =>
  ends_alloc.mpr ⟨fun _ => trivial, fun _ => rfl⟩

theorem fills_cons (car cdr : Value) : Fills (cons car cdr) :=
  (fills_alloc car cdr).bind fun _ => fills_pure _

theorem fills_update (a : Addr) (f : Cell → Cell) : Fills (update a f) := fun _ => trivial

theorem fills_listWithTail (vs : List Value) (tail : Value) : Fills (listWithTail vs tail) := by
  induction vs with
  | nil => exact fills_pure tail
  | cons v vs ih =>
    rw [listWithTail, List.foldrM_cons]
    exact ih.bind fun rest => fills_cons v rest

/-- The chain can be made longer from this cell on. -/
def Continues (h : Heap) (a : Addr) : Prop := h.cdr a = .nil ∨ h.cdr a = .pair a

theorem continues_linked {a : Addr} {room : h.size < h.capacity} (f : Cell → Cell)
    (car : ∀ c, (f c).cdr = c.cdr ∨ (f c).cdr = .pair h.size) :
    ((h.grown ⟨.nil, .nil⟩ room).updated a f).Continues h.size := by
  rw [Continues, cdr, cell_updated]
  split
  · have linked := car ⟨.nil, .nil⟩
    rwa [cell_grown_size]
  · rw [cell_grown_size]
    exact .inl rfl

theorem ends_extendTo_of_continues {n : Nat} {a : Addr} (continues : h.Continues a) :
    Ends (extendTo n a) h (fun found _ => found ≠ none) fun e _ => e = .heapFull := by
  induction n generalizing h a with
  | zero => nofun
  | succ n ih =>
    rw [extendTo, ends_bind, ends_read]
    obtain link | link := continues
    · rw [link, follow]
      simp only [ends_bind, ends_alloc, ends_pure, implies_true, and_true]
      exact fun room => ih (continues_linked _ fun _ => .inr rfl)
    · rw [link]
      exact ih (.inr link)

theorem ends_extendTo_none (n : Nat) (a : Addr) (h : Heap) :
    Ends (extendTo n a) h (fun found h' => found = none → h' = h) fun e _ => e = .heapFull := by
  induction n generalizing h a with
  | zero => nofun
  | succ n ih =>
    rw [extendTo, ends_bind, ends_read]
    cases link : h.cdr a with
    | pair b => exact ih b h
    | nil =>
      have longer := ends_extendTo_of_continues (n := n + 1) (.inl link)
      rw [extendTo, ends_bind, ends_read, link] at longer
      exact longer.mono (fun found _ some none => absurd none some) fun _ _ => id
    | _ => exact fun _ => rfl

theorem ends_first_none (holder : Addr) (n : Nat) (h : Heap) :
    Ends (follow (h.car holder) (setCar holder)) h
      (fun first h' => match first with
        | some a => Ends (extendTo n a) h' (fun found h'' => found = none → h'' = h)
          fun e _ => e = .heapFull
        | none => h' = h)
      fun e _ => e = .heapFull := by
  cases h.car holder with
  | pair a => exact ends_extendTo_none n a h
  | nil =>
    rw [follow]
    simp only [ends_bind, ends_alloc, ends_pure, implies_true, and_true]
    intro room
    have longer := ends_extendTo_of_continues (n := n) (h := (h.grown ⟨.nil, .nil⟩ room).updated holder
      fun c => { c with car := .pair h.size }) (continues_linked _ fun _ => .inl rfl)
    exact longer.mono (fun found _ some none => absurd none some) fun _ _ => id
  | _ => exact rfl

theorem ends_store_false (env : Value) (depth index : Nat) (v : Value) (h : Heap) :
    Ends (store env depth index v) h (fun stored h' => stored = false → h' = h)
      fun e _ => e = .heapFull := by
  unfold store
  split
  · exact fun _ => rfl
  rw [ends_bind, ends_read]
  cases h.frameHolder? env depth with
  | none => exact fun _ => rfl
  | some holder =>
    dsimp only
    rw [ends_bind, ends_read, ends_bind]
    apply (ends_first_none holder (index - 1) h).mono _ fun _ _ => id
    intro first h' ends
    cases first with
    | none => exact fun _ => ends
    | some a =>
      dsimp only at ends ⊢
      rw [ends_bind]
      apply ends.mono _ fun _ _ => id
      intro found h'' missing
      cases found with
      | none => exact fun _ => missing rfl
      | some target => nofun

end Heap

namespace Builtin

open Heap

theorem looks_integers (b : Builtin) (x y : Value) : Looks (b.integers x y) := by
  unfold integers
  split
  · exact looks_pure _
  · exact looks_fault _
  · exact looks_fault _

theorem looks_word (b : Builtin) (n : Int) : Looks (b.word n) := by
  unfold word
  split
  · exact looks_pure _
  · exact looks_fault _

theorem looks_quotient (x y : Value) : Looks (quotient x y) := by
  refine (looks_integers div x y).bind fun p => ?_
  dsimp only
  split
  · exact looks_fault _
  · exact looks_word div _

theorem looks_half (b : Builtin) (f : Heap → Value → Option Value) (v : Value) :
    Looks (half b f v) := by
  refine (looks_read _).bind fun found => ?_
  cases found with
  | some w => exact looks_pure w
  | none => exact looks_fault _

theorem refuses_apply (b : Builtin) (x y : Value) : Refuses (b.apply x y) := by
  have arithmetic (b : Builtin) (f : Int → Int → Int) : Refuses (b.arithmetic f x y) :=
    ((looks_integers b x y).bind fun p => looks_word b _).refuses
  have comparison (b : Builtin) (f : Int64 → Int64 → Bool) : Refuses (b.comparison f x y) :=
    ((looks_integers b x y).bind fun p => looks_pure _).refuses
  cases b with
  | add => exact arithmetic add _
  | sub => exact arithmetic sub _
  | mul => exact arithmetic mul _
  | div => exact (looks_quotient x y).refuses
  | car => exact (looks_half car _ x).refuses
  | cdr => exact (looks_half cdr _ x).refuses
  | cons => exact (fills_cons x y).refuses
  | eq => exact refuses_pure _
  | lt => exact comparison lt fun m n => m < n
  | gt => exact comparison gt fun m n => n < m
  | le => exact comparison le fun m n => m ≤ n
  | ge => exact comparison ge fun m n => n ≤ m

end Builtin

namespace Machine

open Heap

variable {symbols : SymbolTable} {n m : Nat} {r r' : Registers} {h h' : Heap} {f : Fault}

theorem looks_split (v : Value) (f : Fault) : Looks (split v f) := by
  cases v with
  | pair a => exact looks_read _
  | _ => exact looks_fault f

theorem looks_pop (r : Registers) : Looks (pop r) :=
  (looks_split r.stack _).bind fun _ => looks_pure _

theorem looks_popDump (r : Registers) : Looks (popDump r) :=
  (looks_split r.dump _).bind fun _ => looks_pure _

theorem looks_operand (r : Registers) : Looks (operand r) :=
  (looks_split r.code _).bind fun _ => looks_pure _

theorem looks_addressOperand (r : Registers) : Looks (addressOperand r) := by
  refine (looks_operand r).bind fun p => ?_
  refine (looks_read _).bind fun address => ?_
  cases address with
  | some address => exact looks_pure _
  | none => exact looks_fault _

theorem looks_popClosure (r : Registers) : Looks (popClosure r) := by
  refine (looks_pop r).bind fun p => ?_
  refine (looks_split p.1 _).bind fun halves => ?_
  dsimp only
  split
  · exact looks_pure _
  · exact looks_fault _

theorem fills_push (v : Value) (r : Registers) : Fills (push v r) :=
  (fills_cons v r.stack).bind fun _ => fills_pure _

theorem fills_enter (body env callerEnv : Value) (r : Registers) :
    Fills (enter body env callerEnv r) :=
  (fills_listWithTail _ r.dump).bind fun _ => fills_pure _

theorem refuses_load (find : Heap → Value → Nat → Nat → Option Value) (r : Registers) :
    Refuses (load find r) := by
  refine (looks_addressOperand r).refuses_bind fun p => ?_
  refine (looks_read _).refuses_bind fun found => ?_
  cases found with
  | some v => exact (fills_push v p.2).refuses
  | none => exact refuses_fault _

theorem refuses_store (r : Registers) : Refuses (store r) := by
  refine (looks_addressOperand r).refuses_bind fun p => ?_
  refine (looks_split p.2.stack _).refuses_bind fun top => ?_
  intro h
  rw [ends_bind]
  apply (ends_store_false p.2.env p.1.1 p.1.2 top.1 h).mono
  · intro stored h' missing
    cases stored with
    | true => trivial
    | false => exact .inr ⟨missing rfl, _, rfl⟩
  · exact fun _ _ => .inl

theorem refuses_apply (r : Registers) : Refuses (apply r) := by
  refine (looks_popClosure r).refuses_bind fun p => ?_
  refine (looks_pop p.2).refuses_bind fun q => ?_
  refine Fills.refuses ?_
  refine (fills_enter p.1.1 p.1.2 q.2.env q.2).bind fun r' => ?_
  exact (fills_cons q.1 p.1.2).bind fun _ => fills_pure _

/-- Whether there is a placeholder is found out before it is filled. -/
theorem refuses_applyRecursive (r : Registers) : Refuses (applyRecursive r) := by
  refine (looks_popClosure r).refuses_bind fun p => ?_
  refine (looks_pop p.2).refuses_bind fun q => ?_
  obtain ⟨⟨body, closureEnv⟩, r⟩ := p
  obtain ⟨arguments, r⟩ := q
  cases closureEnv with
  | pair placeholder =>
    refine Fills.refuses ?_
    refine (fills_update placeholder _).bind fun _ => ?_
    exact Fills.bind (fun _ => trivial) fun env => fills_enter body _ env r
  | _ => exact refuses_fault _

theorem refuses_leave (r : Registers) : Refuses (leave r) := by
  refine (looks_pop r).refuses_bind fun p => ?_
  refine (looks_popDump p.2).refuses_bind fun q => ?_
  refine (looks_popDump q.2).refuses_bind fun s => ?_
  refine (looks_popDump s.2).refuses_bind fun t => ?_
  exact (fills_push p.1 _).refuses

theorem refuses_select (r : Registers) : Refuses (select r) := by
  refine (looks_pop r).refuses_bind fun p => ?_
  refine (looks_operand p.2).refuses_bind fun q => ?_
  refine (looks_operand q.2).refuses_bind fun s => ?_
  exact ((fills_cons s.2.code s.2.dump).bind fun _ => fills_pure _).refuses

theorem refuses_execute (r : Registers) (o : Opcode) : Refuses (execute r o) := by
  cases o with
  | nil => exact (fills_push .nil r).refuses
  | ldc => exact (looks_operand r).refuses_bind fun p => (fills_push p.1 p.2).refuses
  | ld => exact refuses_load _ r
  | ldr => exact refuses_load _ r
  | st => exact refuses_store r
  | cons =>
    refine (looks_pop r).refuses_bind fun p => ?_
    refine (looks_pop p.2).refuses_bind fun q => ?_
    exact ((fills_cons p.1 q.1).bind fun v => fills_push v q.2).refuses
  | sel => exact refuses_select r
  | join => exact ((looks_popDump r).bind fun _ => looks_pure _).refuses
  | ldf =>
    refine (looks_operand r).refuses_bind fun p => ?_
    exact ((fills_cons p.1 p.2.env).bind fun v => fills_push v p.2).refuses
  | ap => exact refuses_apply r
  | rtn => exact refuses_leave r
  | dum => exact ((fills_cons .nil r.env).bind fun _ => fills_pure _).refuses
  | rap => exact refuses_applyRecursive r
  | halt => exact refuses_pure r

theorem refuses_applyBuiltin (symbols : SymbolTable) (name : Symbol) (r : Registers) :
    Refuses (applyBuiltin symbols name r) := by
  unfold applyBuiltin
  cases Builtin.ofSymbol? name with
  | none => exact refuses_fault _
  | some b =>
    have taken (x y : Value) (r : Registers) : Refuses (b.apply x y >>= fun v => push v r) :=
      (Builtin.refuses_apply b x y).bind_fills fun v => fills_push v r
    refine (looks_pop r).refuses_bind fun p => ?_
    dsimp only
    split
    · exact (looks_pop p.2).refuses_bind fun q => taken p.1 q.1 q.2
    · exact taken p.1 .nil p.2

theorem refuses_dispatch (symbols : SymbolTable) (r : Registers) (instruction : Value) :
    Refuses (dispatch symbols r instruction) := by
  cases instruction with
  | op o =>
    cases o
    case halt => exact refuses_pure _
    all_goals exact (refuses_execute r _).bind_fills fun _ => fills_pure _
  | ident name => exact (refuses_applyBuiltin symbols name r).bind_fills fun _ => fills_pure _
  | _ => exact refuses_fault _

/-- An instruction that fails leaves the heap as it was and carries the registers as they were,
unless the heap is full. -/
theorem ends_step_fault (symbols : SymbolTable) (r : Registers) (h : Heap) :
    Ends (step symbols r) h (fun _ _ => True)
      fun e h' => e = .heapFull ∨ h' = h ∧ ∃ f, e = .runtime f r := by
  rw [ends_step]
  have refuses := (looks_operand r).refuses_bind fun p => refuses_dispatch symbols p.2 p.1
  apply (refuses h).mono fun _ _ => id
  rintro e h' (rfl | ⟨rfl, f, rfl⟩)
  · exact .inl rfl
  · exact .inr ⟨rfl, f, rfl⟩

/-- A run that fails has come to an instruction that fails. -/
theorem runFrom_eq_error {e : Error} (run : runFrom symbols n r h = .error e h') :
    e = .outOfSteps ∨ ∃ c, Passes symbols ⟨r, h⟩ c ∧ step symbols c.registers c.heap = .error e h' := by
  induction n generalizing r h with
  | zero =>
    cases run
    exact .inl rfl
  | succ n ih =>
    rw [runFrom_succ] at run
    cases here : step symbols r h with
    | error e₁ h₁ =>
      rw [here] at run
      cases run
      exact .inr ⟨⟨r, h⟩, .refl, here⟩
    | ok outcome h₁ =>
      rw [here] at run
      cases outcome with
      | halted r₁ => cases run
      | running r₁ =>
        apply (ih run).imp_right
        rintro ⟨c, passes, fails⟩
        have goes : Goes symbols ⟨r, h⟩ ⟨r₁, h₁⟩ := here
        exact ⟨c, passes.head goes, fails⟩

/-- A run that fails, other than for lack of steps or room, is at fault in an instruction that
changes nothing: the error carries the registers that the instructions before it led to, the heap is
the one that they left, and a run from there is at the same fault at once. -/
theorem run_fails_at_instruction {e : Error} (run : runFrom symbols n r h = .error e h') :
    e = .outOfSteps ∨ e = .heapFull ∨ ∃ f r', e = .runtime f r' ∧
      Passes symbols ⟨r, h⟩ ⟨r', h'⟩ ∧ step symbols r' h' = .error e h' ∧
      ∀ m, runFrom symbols (m + 1) r' h' = .error e h' := by
  apply (runFrom_eq_error run).imp_right
  rintro ⟨⟨r', h₁⟩, passes, fails⟩
  apply ((ends_step_fault symbols r' h₁).of_eq_error fails).imp_right
  rintro ⟨rfl, f, rfl⟩
  refine ⟨f, r', rfl, passes, fails, fun m => ?_⟩
  rw [runFrom_succ, fails]

/-- Code that stores seven in a frame that is too short, and then takes the car of five. -/
def fiveHalved : Heap :=
  ⟨#[⟨.op .dum, .pair 1⟩, ⟨.op .ldc, .pair 2⟩, ⟨.int 7, .pair 3⟩, ⟨.op .st, .pair 4⟩,
    ⟨.pair 9, .pair 5⟩, ⟨.op .ldc, .pair 6⟩, ⟨.int 5, .pair 7⟩, ⟨.ident Builtin.car.symbol, .pair 8⟩,
    ⟨.op .halt, .nil⟩, ⟨.int 1, .int 2⟩], 48, by decide, by decide⟩

theorem run_fails_at_instruction_halving : ∃ f r' h',
    runFrom .initial 9 (start .nil (.pair 0)) fiveHalved = .error (.runtime f r') h' ∧
    f = .notPair "car" .integer ∧ r' = ⟨.pair 14, .pair 10, .pair 7, .nil⟩ ∧ h'.size = 15 ∧
    Passes .initial ⟨start .nil (.pair 0), fiveHalved⟩ ⟨r', h'⟩ ∧
    ∀ m, runFrom .initial (m + 1) r' h' = .error (.runtime f r') h' := by
  have run : runFrom .initial 9 (start .nil (.pair 0)) fiveHalved =
      .error (.runtime (.notPair "car" .integer) ⟨.pair 14, .pair 10, .pair 7, .nil⟩)
        _ := eq_error_of_error? (by decide +kernel)
  obtain cut | full | ⟨f, r', same, passes, -, again⟩ := run_fails_at_instruction run
  · cases cut
  · cases full
  · cases same
    exact ⟨_, _, _, run, rfl, rfl, by decide +kernel, passes, again⟩

end Machine

end SecdLisp
