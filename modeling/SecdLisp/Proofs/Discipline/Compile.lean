import SecdLisp.Proofs.Additions
import SecdLisp.Proofs.Discipline.Emission

/-!
# Compiled code keeps to the discipline

Each form is compiled to checked code: its phrases are made of checked code, of addresses that fit
their frames, and of values that a program may come across.
-/

namespace SecdLisp

namespace Discipline

open Contract Compile Machine

variable {root : Value} {o : Option World} {v : Value}

theorem takes_compiling (root : Value) : Compile.Takes (discipline root) chronicle Shown Checked
    Placed fun o _ slot => Slotted o slot where
  later le shown := forall_later World.Visible.mono le shown
  laterCode le checked := forall_later World.Code.mono le checked
  laterSlot le slotted := slotted.later le
  refuse _ _ := trivial
  nil _ _ _ := World.visible_of_isPair rfl
  halves {o _ _} holds shown := by
    cases o with
    | none => exact ⟨nofun, nofun⟩
    | some w =>
      have halves := holds.2.typed.halves (shown w rfl)
      rw [holds.2.heap]
      constructor <;> rintro _ ⟨⟩
      · exact halves.1
      · exact halves.2
  event own e := keeps_report own e
  slot holds found := slotted_of_slotIn? holds found
  own spelled found := keeps_own spelled found
  global spelled slotted := keeps_global spelled slotted
  naming table own spelled _ := keeps_naming own table _ spelled
  phrase phrase next := keeps_phrase phrase next
  ending ending := keeps_ending ending
  call own slotted items := keeps_callMacro own slotted items
  reset {_ o' s s' _} holds later holds' _ := by
    refine ⟨o', later, ⟨holds'.1, ?_⟩, trivial⟩
    cases o' with
    | none => exact holds'.2
    | some w' =>
      obtain ⟨w, mem, le⟩ := later w' rfl
      cases mem
      have stands : w'.Stands root s' := holds'.2
      refine { stands with tables := fun room table => ?_ }
      have few := Nat.le_trans (holds.2.tables (room.earlier le) table) le.size
      cases table <;> exact few

/-- A form is compiled to checked code, or the tables of names are left as they were. -/
theorem keeps_toplevel (symbols : SymbolTable) (steps : Nat) (expr : Shown o v) :
    (discipline root).Keeps o (fun o v => Checked o ⟨[], [], .nothing⟩ v)
      (toplevel chronicle symbols steps v) :=
  (takes_compiling root).keeps_toplevel symbols steps expr

end Discipline

end SecdLisp
