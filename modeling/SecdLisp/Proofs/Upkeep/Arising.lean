import SecdLisp.Proofs.Run
import SecdLisp.Proofs.Upkeep.Restore

/-!
# Nothing dangles

Whatever operations lead to a session, and however they end, no cell, no register and no answer
leads out of its heap or out of its table of names. So whatever is looked up is there.
-/

namespace SecdLisp

namespace Machine

open Heap

theorem bears_of_passes {symbols : SymbolTable} {names : Nat} {c d : Config}
    (sound : c.heap.Sound names) (bears : c.heap.Bears names c.registers)
    (passes : Passes symbols c d) :
    Changes names c.heap d.heap ∧ d.heap.Sound names ∧ d.heap.Bears names d.registers := by
  induction passes with
  | refl => exact ⟨.refl, sound, bears⟩
  | tail _ goes ih =>
    obtain ⟨changes, sound, bears⟩ := ih
    have ends := keeps_step symbols bears _ ⟨rfl, sound⟩
    obtain ⟨_, more, ⟨rfl, sound'⟩, bears'⟩ := ends.of_eq_ok goes
    exact ⟨changes.trans more, sound', bear_iff.mp bears'⟩

end Machine

namespace Session

open Machine

variable {images : Image → Prop} {s : Session} {v : Value}

theorem create_eq_ok {cells : Nat} {level : LogLevel} (new : create cells level = .ok s) :
    s.symbols = .initial ∧ s.globals = ⟨.pair 1, [], []⟩ ∧
      s.heap.cells = #[⟨.nil, .nil⟩, ⟨.nil, .pair 0⟩] := by
  have ends : Ends Globals.create (Heap.ofCapacity cells) (fun g h => g = ⟨.pair 1, [], []⟩ ∧
      h.cells = #[⟨.nil, .nil⟩, ⟨.nil, .pair 0⟩]) fun _ _ => True := by
    simp only [Globals.create, Heap.list, Heap.listWithTail, List.foldrM_cons, List.foldrM_nil,
      ends_bind, ends_pure, Heap.ends_cons]
    exact ⟨fun _ => ⟨fun _ => ⟨rfl, rfl⟩, fun _ => trivial⟩, fun _ => trivial⟩
  unfold create at new
  split at new
  next g h run =>
    obtain ⟨globals, cells⟩ := ends.of_eq_ok run
    cases new
    exact ⟨rfl, globals, cells⟩
  next => cases new

theorem inRange_of_create {cells : Nat} {level : LogLevel} (new : create cells level = .ok s) :
    s.InRange := by
  obtain ⟨symbols, globals, held⟩ := create_eq_ok new
  have size : s.heap.size = 2 := congrArg Array.size held
  refine inRange_iff.mpr ⟨fun a => ?_, ?_⟩
  · have cell : s.heap.cell a = (#[⟨.nil, .nil⟩, ⟨.nil, .pair 0⟩] : Array Cell)[a]?.getD
        ⟨.nil, .nil⟩ := by rw [Heap.cell, held]
    unfold Heap.Knows
    rw [Heap.car, Heap.cdr, cell, size]
    rcases a with _ | _ | a
    · exact ⟨trivial, trivial⟩
    · exact ⟨trivial, Nat.zero_lt_two⟩
    · exact ⟨trivial, trivial⟩
  · rw [globals, size]
    exact ⟨Nat.one_lt_two, by simp, by simp⟩

theorem inRange_of_arises (arises : Arises images s) : s.InRange :=
  arises.invariant (fun _ _ _ => inRange_of_create)
    (fun _ _ native permitted inRange => (leaves_perform native permitted inRange).inRange)
    fun _ image _ inRange => (leaves_restore image inRange).1

/-- What a value refers to is there to be looked up. -/
def Resolves (s : Session) (v : Value) : Prop :=
  (∀ a, v = .pair a → ∃ c, s.heap.cells[a]? = some c) ∧
    ∀ i, v = .ident i → ∃ name, s.symbols.names[i]? = some name

theorem knows_iff_resolves : s.Knows v ↔ s.Resolves v := by
  cases v <;> simp [Knows, Resolves, Heap.size, SymbolTable.count, Array.getElem?_eq_some_iff]

/-- No reference dangles in a session that operations lead to. Its cells, its globals and what
operations answer refer to cells and names that are there, and so do the registers at each
instruction of a run. Restoring looks up only what a valid image has. -/
theorem arises_bounded (arises : Arises images s) :
    (s.heap.size ≤ s.heap.capacity ∧ s.heap.capacity ≤ 2 ^ 32 - 1) ∧
    s.InRange ∧ (∀ v, s.Knows v ↔ s.Resolves v) ∧
    (∀ op, op.Permitted (fun _ => True) s → (perform op s).1.InRange ∧
      ∀ answer ∈ (perform op s).2, (perform op s).1.Bears answer) ∧
    (∀ code c, s.Knows code → Passes s.symbols ⟨start s.globals.env code, s.heap⟩ c →
      c.heap.Sound s.symbols.count ∧ c.heap.Bears s.symbols.count c.registers) ∧
    ∀ image : Image, image.validate = .ok () → ∀ (i : Nat) (c : ImageCell),
      image.cells[i]? = some c → ∀ slot ∈ [image.root, c.car, c.cdr],
        (∀ n, slot = .ident n → ∃ name, image.names[n.toNat]? = some name) ∧
          ∀ n, slot = .pair n → ∃ c, image.cells[n.toNat]? = some c := by
  have inRange := inRange_of_arises arises
  obtain ⟨sound, tables⟩ := inRange_iff.mp inRange
  refine ⟨⟨s.heap.size_le, s.heap.capacity_le⟩, inRange, fun v => knows_iff_resolves, ?_, ?_, ?_⟩
  · intro op permitted
    cases op with
    | restore image => exact leaves_restore image inRange
    | _ =>
      have leaves := leaves_perform (fun _ eq => Operation.noConfusion eq) permitted inRange
      exact ⟨leaves.inRange, leaves.bears⟩
  · intro code c known passes
    have bears : s.heap.Bears s.symbols.count (start s.globals.env code) :=
      ⟨trivial, tables.env, knows_iff.mp known, trivial⟩
    exact (bears_of_passes (c := ⟨_, s.heap⟩) sound bears passes).2
  · intro image valid i c here slot mem
    obtain ⟨complete, _⟩ := Image.validate_eq_ok_iff.mp valid
    obtain ⟨car, cdr⟩ := complete.cells c (Array.mem_of_getElem? here)
    simp only [List.mem_cons, List.not_mem_nil, or_false] at mem
    rcases mem with rfl | rfl | rfl
    · exact Image.has_iff.mp complete.root
    · exact Image.has_iff.mp car
    · exact Image.has_iff.mp cdr

/-- An image with a cell that refers to a cell and a name that the image does not have. -/
def wild : Image := ⟨#[], #[⟨.pair 7, .ident 3⟩], .pair 0, [], []⟩

theorem wild_bounded :
    (perform (.restore wild) fresh).2 = [.error (.image .indexOutOfRange)] ∧
    (perform (.restore wild) fresh).1.InRange := by
  have invalid : wild.validate = .error .indexOutOfRange := by decide +kernel
  have arises : Arises (fun _ => True) (perform (.restore wild) fresh).1 :=
    .performed (.restore wild) (.created create_fresh) trivial
  refine ⟨?_, (arises_bounded arises).2.1⟩
  rw [perform, answered, restore, invalid]
  rfl

end Session

end SecdLisp
