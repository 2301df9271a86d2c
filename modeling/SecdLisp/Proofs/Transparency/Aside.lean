import SecdLisp.Proofs.Parallel.Compile
import SecdLisp.Proofs.Running

/-!
# Cells that are set aside

Cells that nothing leads to but other such cells stay out of all work that does not start from them:
it neither changes them nor comes to hold one of them. So of two computations side by side, the cells
of one that are set aside correspond to none of the other.
-/

namespace SecdLisp

open Contract

/-- A value that is none of the cells set aside. -/
def Value.Avoids (aside : Addr → Prop) (v : Value) : Prop := ∀ a, v = .pair a → ¬aside a

def Error.Avoids (aside : Addr → Prop) (e : Error) : Prop :=
  ∀ r, e.registers? = some r → Machine.Bear (Value.Avoids aside) r

variable {aside : Addr → Prop}

@[simp] theorem Value.avoids_nil : Value.nil.Avoids aside := nofun

@[simp] theorem Value.avoids_truth : Value.truth.Avoids aside := nofun

@[simp] theorem Value.avoids_int (n : Int64) : (Value.int n).Avoids aside := nofun

@[simp] theorem Value.avoids_ident (name : Symbol) : (Value.ident name).Avoids aside := nofun

@[simp] theorem Value.avoids_op (o : Opcode) : (Value.op o).Avoids aside := nofun

theorem Value.avoids_pair_iff {a : Addr} : (Value.pair a).Avoids aside ↔ ¬aside a :=
  ⟨fun avoids => avoids a rfl, fun free b eq => by cases eq; exact free⟩

theorem Error.avoids_of_none {e : Error} (none : e.registers? = none) : e.Avoids aside := by
  intro r carried
  rw [none] at carried
  cases carried

namespace Heap

/-- The cells set aside hold what they held in an earlier heap, and no other cell leads to them. -/
structure SetsAside (aside : Addr → Prop) (base h : Heap) : Prop where
  owned : ∀ a, aside a → a < h.size
  cars : ∀ a, ¬aside a → (h.car a).Avoids aside
  cdrs : ∀ a, ¬aside a → (h.cdr a).Avoids aside
  same : ∀ a, aside a → h.cell a = base.cell a

variable {base h : Heap} {a : Addr} {v u : Value}

theorem SetsAside.new (sets : SetsAside aside base h) : ¬aside h.size :=
  fun mem => Nat.lt_irrefl _ (sets.owned _ mem)

theorem SetsAside.car_eq (sets : SetsAside aside base h) (mem : aside a) : h.car a = base.car a :=
  congrArg Cell.car (sets.same a mem)

theorem SetsAside.cdr_eq (sets : SetsAside aside base h) (mem : aside a) : h.cdr a = base.cdr a :=
  congrArg Cell.cdr (sets.same a mem)

theorem SetsAside.grown (sets : SetsAside aside base h) (car : v.Avoids aside)
    (cdr : u.Avoids aside) (room : h.size < h.capacity) :
    SetsAside aside base (h.grown ⟨v, u⟩ room) where
  owned a mem := by
    rw [size_grown]
    exact Nat.lt_succ_of_lt (sets.owned a mem)
  cars a free := by
    rw [Heap.car, cell_grown]
    split
    · exact car
    · exact sets.cars a free
  cdrs a free := by
    rw [Heap.cdr, cell_grown]
    split
    · exact cdr
    · exact sets.cdrs a free
  same a mem := by
    rw [cell_grown_of_lt (sets.owned a mem)]
    exact sets.same a mem

theorem SetsAside.updated {f : Cell → Cell} (sets : SetsAside aside base h) (free : ¬aside a)
    (car : (f (h.cell a)).car.Avoids aside) (cdr : (f (h.cell a)).cdr.Avoids aside) :
    SetsAside aside base (h.updated a f) where
  owned b mem := by
    rw [size_updated]
    exact sets.owned b mem
  cars b free' := by
    rw [Heap.car, cell_updated]
    split
    next here => exact here.1 ▸ car
    next => exact sets.cars b free'
  cdrs b free' := by
    rw [Heap.cdr, cell_updated]
    split
    next here => exact here.1 ▸ cdr
    next => exact sets.cdrs b free'
  same b mem := by
    have ne : b ≠ a := by
      rintro rfl
      exact free mem
    rw [cell_updated_of_ne ne]
    exact sets.same b mem

/-- Work that leaves the cells set aside alone. -/
def settingAside (aside : Addr → Prop) (base : Heap) : Contract Unit Heap where
  le _ _ := True
  holds _ h := SetsAside aside base h
  error _ e := e.Avoids aside
  refl _ := trivial
  trans _ _ := trivial

section Keeps

variable {α : Type} {p : Unit → α → Prop} {x : HeapM α}

theorem keeps_settingAside (ends : ∀ h, SetsAside aside base h → Ends x h
      (fun a h' => SetsAside aside base h' ∧ p () a)
      fun e h' => SetsAside aside base h' ∧ e.Avoids aside) :
    (settingAside aside base).Keeps () p x := by
  intro h sets
  refine (ends h sets).mono ?_ ?_
  · exact fun a h' ends => ⟨(), trivial, ends⟩
  · exact fun e h' ends => ⟨(), trivial, ends⟩

theorem keeps_alloc_aside (car : v.Avoids aside) (cdr : u.Avoids aside) :
    (settingAside aside base).Keeps () (fun _ a => (Value.pair a).Avoids aside) (alloc v u) :=
  keeps_settingAside fun _ sets => ends_alloc.mpr
    ⟨fun room => ⟨sets.grown car cdr room, Value.avoids_pair_iff.mpr sets.new⟩,
      fun _ => ⟨sets, Error.avoids_of_none rfl⟩⟩

theorem keeps_setCar_aside (free : (Value.pair a).Avoids aside) (car : v.Avoids aside) :
    (settingAside aside base).Keeps () (fun _ _ => True) (setCar a v) :=
  keeps_settingAside fun _ sets => by
    have free := Value.avoids_pair_iff.mp free
    exact ends_update.mpr ⟨sets.updated free car (sets.cdrs a free), trivial⟩

theorem keeps_setCdr_aside (free : (Value.pair a).Avoids aside) (cdr : v.Avoids aside) :
    (settingAside aside base).Keeps () (fun _ _ => True) (setCdr a v) :=
  keeps_settingAside fun _ sets => by
    have free := Value.avoids_pair_iff.mp free
    exact ends_update.mpr ⟨sets.updated free (sets.cars a free) cdr, trivial⟩

theorem keeps_extend_aside (free : (Value.pair a).Avoids aside) :
    (settingAside aside base).Keeps () (fun _ found => Machine.Finds (Value.Avoids aside) found)
      (read (·.cdr a) >>= fun link => follow link (setCdr a)) := by
  refine keeps_seen_bind fun h sets => ?_
  have next := sets.cdrs a (Value.avoids_pair_iff.mp free)
  cases link : h.cdr a with
  | pair b =>
    rw [link] at next
    exact keeps_pure fun c eq => Option.some.inj eq ▸ next
  | nil =>
    refine (keeps_alloc_aside Value.avoids_nil Value.avoids_nil).bind fun _ b _ new =>
      (keeps_setCdr_aside free new).bind fun _ _ _ _ => ?_
    exact keeps_pure fun c eq => Option.some.inj eq ▸ new
  | _ => exact keeps_pure fun c eq => by cases eq

end Keeps

end Heap

namespace Machine

open Heap

theorem takes_settingAside (aside : Addr → Prop) (base : Heap) :
    Takes (settingAside aside base) fun _ => Value.Avoids aside where
  later _ := id
  nil _ := Value.avoids_nil
  truth _ := Value.avoids_truth
  int _ := Value.avoids_int
  fault _ f r carried := by
    cases carried
    exact ⟨Value.avoids_nil, Value.avoids_nil, Value.avoids_nil, Value.avoids_nil⟩
  carried {_ e _} known bear := by
    cases e with
    | runtime f r' =>
      intro r carried
      cases carried
      exact bear
    | _ => exact known
  outOfSteps _ := Error.avoids_of_none rfl
  halves {_ _ a} sets free :=
    have free := Value.avoids_pair_iff.mp free
    ⟨sets.cars a free, sets.cdrs a free⟩
  alloc := keeps_alloc_aside
  setCar := keeps_setCar_aside
  extend := keeps_extend_aside

end Machine

namespace Compile

open Heap

variable {ω α : Type} {base : Heap} {recorder : Recorder ω} {ctx : Context ω} {ws : List Value}
  {v k : Value} {p : Unit → α → Prop}

def settingAside (aside : Addr → Prop) (base : Heap) : Contract Unit (State ω) where
  le _ _ := True
  holds _ s := SetsAside aside base s.heap ∧ s.globals.env.Avoids aside
  error _ e := e.Avoids aside
  refl _ := trivial
  trans _ _ := trivial

theorem keeps_onHeap_aside {x : HeapM α} (keeps : (Heap.settingAside aside base).Keeps () p x) :
    (settingAside aside base).Keeps () p (onHeap x : CompileM ω α) := by
  rintro s ⟨sets, env⟩
  rw [ends_onHeap]
  refine (keeps s.heap sets).mono ?_ ?_
  · rintro a h ⟨_, _, sets, value⟩
    exact ⟨(), trivial, ⟨sets, env⟩, value⟩
  · rintro e h ⟨_, _, sets, error⟩
    exact ⟨(), trivial, ⟨sets, env⟩, error⟩

theorem keeps_emit_aside (words : ∀ w ∈ ws, w.Avoids aside) (rest : k.Avoids aside) :
    (settingAside aside base).Keeps () (fun _ => Value.Avoids aside)
      (emit ws k : CompileM ω Value) :=
  keeps_onHeap_aside ((Machine.takes_settingAside aside base).keeps_listWithTail words rest)

theorem keeps_address_aside (depth index : Nat) :
    (settingAside aside base).Keeps () (fun _ => Value.Avoids aside)
      (address depth index : CompileM ω Value) :=
  keeps_onHeap_aside ((Machine.takes_settingAside aside base).keeps_cons
    (Value.avoids_int _) (Value.avoids_int _))

theorem keeps_report_aside (e : Event) :
    (settingAside aside base).Keeps () (fun _ _ => True) (report ctx e) :=
  fun _ holds => ⟨(), trivial, holds, trivial⟩

theorem keeps_define_aside (table : Table) (name : Symbol) :
    (settingAside aside base).Keeps () (fun _ _ => True) (define table ctx name) := by
  cases table with
  | functions => exact fun _ holds => ⟨(), trivial, holds, trivial⟩
  | macros => exact fun _ holds => ⟨(), trivial, holds, trivial⟩

theorem keeps_runNow_aside (code : v.Avoids aside) :
    (settingAside aside base).Keeps () (fun _ => Value.Avoids aside) (runNow ctx v) := by
  rintro s ⟨sets, env⟩
  have machine := Machine.takes_settingAside aside base
  rw [ends_runNow]
  refine (machine.keeps_run (w := ()) ctx.symbols ctx.steps env code s.heap sets).mono ?_ ?_
  · rintro a h ⟨_, _, sets, value⟩
    exact ⟨(), trivial, ⟨sets, env⟩, value⟩
  · rintro e h ⟨_, _, sets, error⟩
    exact ⟨(), trivial, ⟨sets, env⟩, error⟩

theorem keeps_callMacro_aside {args : List Value} (slot : Nat) (items : ∀ v ∈ args, v.Avoids aside) :
    (settingAside aside base).Keeps () (fun _ => Value.Avoids aside) (callMacro ctx slot args) := by
  have machine := Machine.takes_settingAside aside base
  refine (keeps_onHeap_aside (machine.keeps_list items)).bind fun _ list _ list' => ?_
  refine (keeps_address_aside _ slot).bind fun _ place _ place' => ?_
  have words : ∀ w ∈ [.op .ldc, list, .op .ld, place, .op .ap, .op .halt], w.Avoids aside := by
    simp [list', place']
  exact (keeps_onHeap_aside (machine.keeps_list words)).bind fun _ code _ code' =>
    keeps_runNow_aside code'

theorem takes_settingAside (aside : Addr → Prop) (base : Heap) (recorder : Recorder ω) :
    Takes (settingAside aside base) recorder (fun _ => Value.Avoids aside)
      (fun _ _ => Value.Avoids aside) (fun _ _ _ => Value.Avoids aside) fun _ _ _ => True where
  later _ := id
  laterCode _ := id
  laterSlot _ := id
  refuse _ _ := Error.avoids_of_none rfl
  nil _ := Value.avoids_nil
  halves {_ _ a} holds free :=
    have free := Value.avoids_pair_iff.mp free
    ⟨holds.1.cars a free, holds.1.cdrs a free⟩
  event _ := keeps_report_aside
  slot _ _ := trivial
  own _ _ := keeps_address_aside _ _
  global _ _ := keeps_address_aside _ _
  naming table _ _ _ := (keeps_define_aside table _).bind fun _ _ _ _ => keeps_address_aside _ _
  phrase {_ words _ _ _} phrase rest := by
    refine keeps_emit_aside ?_ rest
    cases phrase with
    | builtin | nil | cons | ap | dum => simp
    | ldc known | load _ _ known | st _ known | ldf known | binding known | rap known => simp [known]
    | sel first second => simp [first, second]
    | definition body _ place => simp [body, place]
  ending _ := keeps_emit_aside (by simp) Value.avoids_nil
  call _ _ items := keeps_callMacro_aside _ items
  reset holds _ holds' error := ⟨(), trivial, ⟨holds'.1, holds'.2⟩, error⟩

end Compile

end SecdLisp
