import SecdLisp.Machine.Step
import SecdLisp.Proofs.Outcome

/-!
# How an instruction ends

Taking the registers apart leaves the heap as it is, so it ends in what the cells hold.
-/

namespace SecdLisp

namespace Machine

variable {symbols : SymbolTable} {h : Heap} {S E D c v : Value}

@[simp] theorem ends_split {a : Addr} {fault : Fault} {p : Value × Value → Heap → Prop}
    {q : Error → Heap → Prop} :
    Ends (split (.pair a) fault) h p q ↔ p (h.car a, h.cdr a) h := Iff.rfl

theorem ends_pop {s : Addr} (top : h.cell s = ⟨v, S⟩) {p : Value × Registers → Heap → Prop}
    {q : Error → Heap → Prop} :
    Ends (pop ⟨.pair s, E, c, D⟩) h p q ↔ p (v, ⟨S, E, c, D⟩) h := by
  simp only [pop, ends_bind, ends_split, ends_pure, Heap.car, Heap.cdr, top]

theorem ends_popDump {d : Addr} (top : h.cell d = ⟨v, D⟩) {p : Value × Registers → Heap → Prop}
    {q : Error → Heap → Prop} :
    Ends (popDump ⟨S, E, c, .pair d⟩) h p q ↔ p (v, ⟨S, E, c, D⟩) h := by
  simp only [popDump, ends_bind, ends_split, ends_pure, Heap.car, Heap.cdr, top]

theorem ends_step {r : Registers} {p : Outcome → Heap → Prop} {q : Error → Heap → Prop} :
    Ends (step symbols r) h p q ↔
      Ends (operand r >>= fun (i, r') => dispatch symbols r' i) h p
        fun e h => q (e.withRegisters r) h := by
  unfold Ends step
  cases (operand r >>= fun (i, r') => dispatch symbols r' i) h <;> rfl

end Machine

end SecdLisp
