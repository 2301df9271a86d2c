import SecdLisp.Proofs.Reference.Operands

/-!
# Evaluation on the machine

What it means that code delivers the value of an expression, that it gathers the values of an
argument list, and that it stacks the operands of a builtin. The code of argument lists and of
operands does so if the code of their expressions delivers.
-/

namespace SecdLisp

namespace Reference

open Layout

/-- The machine has a new value on top of the stack, which stands for a datum, in a heap that
mirrors a store. Cells below `n` were left alone. -/
def Delivers (P : Program) (g n : Nat) (L : Layout) (h : Heap) (S E k D : Value) (d : Datum)
    (σ : Store) (r : Registers) (h' : Heap) : Prop :=
  ∃ L' a v, r = ⟨.pair a, E, k, D⟩ ∧ Extends n L h L' h' ∧ Mirrors P g L' σ h' ∧
    h'.cell a = ⟨v, S⟩ ∧ (n ≤ a ∧ a < h'.size ∧ L'.role a = none) ∧ L'.Means v d

/-- The same with an argument list, whose cells are older than the one of the stack. -/
def Gathers (P : Program) (g n : Nat) (L : Layout) (h : Heap) (S E k D : Value) (ds : List Datum)
    (σ : Store) (r : Registers) (h' : Heap) : Prop :=
  ∃ L' a v as, r = ⟨.pair a, E, k, D⟩ ∧ Extends n L h L' h' ∧ Mirrors P g L' σ h' ∧
    h'.cell a = ⟨v, S⟩ ∧ (n ≤ a ∧ a < h'.size ∧ L'.role a = none) ∧ Loose L' h' n a v ds as

/-- Data on top of a stack, the first one on top, in cells without a role. -/
def Stacked (L : Layout) (h : Heap) (n : Nat) (S : Value) : List Datum → Value → Prop
  | [], s => s = S
  | d :: ds, s => ∃ a v rest, s = .pair a ∧ h.cell a = ⟨v, rest⟩ ∧
    (n ≤ a ∧ a < h.size ∧ L.role a = none) ∧ L.Means v d ∧ Stacked L h n S ds rest

def Stacks (P : Program) (g n : Nat) (L : Layout) (h : Heap) (S E k D : Value) (ds : List Datum)
    (σ : Store) (r : Registers) (h' : Heap) : Prop :=
  ∃ L' s, r = ⟨s, E, k, D⟩ ∧ Extends n L h L' h' ∧ Mirrors P g L' σ h' ∧ Stacked L' h' n S ds s

/-- The code of an expression delivers what `sub` says is its value. -/
def Simulates (symbols : SymbolTable) (P : Program) (g : Nat)
    (sub : Env → Expr → EvalM Datum) : Prop :=
  ∀ (locals : Locals) (e : Expr) (σ σ' : Store) (d : Datum) (L : Layout) (h : Heap)
    (S E k c D : Value), sub ⟨locals, P.table, g⟩ e σ = some (d, σ') →
    Code P (locals.map Prod.fst) (.expr e) k c → Mirrors P g L σ h → L.EnvAt g locals E →
    Leads symbols (Delivers P g h.size L h S E k D d σ') ⟨S, E, c, D⟩ h

variable {symbols : SymbolTable} {P : Program} {g n m : Nat} {L L₁ : Layout} {σ σ' : Store}
  {h h₁ : Heap} {S E k c D v : Value} {d : Datum} {ds : List Datum} {locals : Locals}
  {sub : Env → Expr → EvalM Datum} {r : Registers}

theorem Delivers.after (ext : Extends n L h L₁ h₁) (le : n ≤ m) {h' : Heap}
    (delivers : Delivers P g m L₁ h₁ S E k D d σ r h') : Delivers P g n L h S E k D d σ r h' := by
  obtain ⟨L', a, v, eq, ext', mirrors, cell, ⟨low, owned, free⟩, means⟩ := delivers
  exact ⟨L', a, v, eq, ext.trans (ext'.mono le), mirrors, cell, ⟨Nat.le_trans le low, owned, free⟩,
    means⟩

theorem delivers_push (ext : Extends n L h L₁ h₁) (mirrors : Mirrors P g L₁ σ h₁)
    (means : L₁.Means v d) (low : n ≤ h₁.size) (room : h₁.size < h₁.capacity) :
    Delivers P g n L h S E k D d σ ⟨.pair h₁.size, E, k, D⟩ (h₁.grown ⟨v, S⟩ room) := by
  have grows := Heap.grows_grown h₁ ⟨v, S⟩ room
  refine ⟨L₁, h₁.size, v, rfl, ext.trans (.of_grows grows low L₁), mirrors.grows grows,
    Heap.cell_grown_size .., ⟨low, ?_, mirrors.fresh (Nat.le_refl _)⟩, means⟩
  rw [Heap.size_grown]
  exact Nat.lt_succ_self _

theorem Loose.widen {v : Value} {as : List Addr} {m' : Nat} (loose : Loose L h n m v ds as)
    (le : m ≤ m') : Loose L h n m' v ds as := by
  refine ⟨loose.spine, fun a mem => ?_, loose.values⟩
  obtain ⟨low, high, free⟩ := loose.free a mem
  exact ⟨low, Nat.lt_of_lt_of_le high le, free⟩

theorem Loose.cons {as : List Addr} (mirrors : Mirrors P g L σ h) (loose : Loose L h n m v ds as)
    (le : m ≤ h.size) (low : n ≤ h.size) {w : Value} (means : L.Means w d)
    (room : h.size < h.capacity) :
    Loose L (h.grown ⟨w, v⟩ room) n (h.size + 1) (.pair h.size) (d :: ds) (h.size :: as) := by
  have grows := Heap.grows_grown h ⟨w, v⟩ room
  have cell : (h.grown ⟨w, v⟩ room).cell h.size = ⟨w, v⟩ := Heap.cell_grown_size ..
  have tail := (loose.keep (.of_grows grows (Nat.le_refl _) L) le).widen (Nat.le_succ_of_le le)
  refine ⟨.cons ?_ ?_, fun a mem => ?_, .cons ?_ tail.values⟩
  · rw [Heap.size_grown]
    exact Nat.lt_succ_self _
  · rw [Heap.cdr, cell]
    exact tail.spine
  · rcases List.mem_cons.mp mem with rfl | mem
    · exact ⟨low, Nat.lt_succ_self _, mirrors.fresh (Nat.le_refl _)⟩
    · exact tail.free a mem
  · rw [Heap.car, cell]
    exact means

/-- The code that adds elements to an argument list, from the last one on. -/
theorem leads_conses (simulates : Simulates symbols P g sub) (mirrors : Mirrors P g L σ h)
    (env : L.EnvAt g locals E) {a : Addr} (top : h.cell a = ⟨.nil, S⟩)
    (free : n ≤ a ∧ a < h.size ∧ L.role a = none) {es : List Expr}
    (run : evalArguments (sub ⟨locals, P.table, g⟩) es σ = some (ds, σ'))
    (code : Code P (locals.map Prod.fst) (.conses es) k c) :
    Leads symbols (Gathers P g n L h S E k D ds σ') ⟨.pair a, E, c, D⟩ h := by
  have low : n ≤ h.size := Nat.le_trans free.1 (Nat.le_of_lt free.2.1)
  induction es generalizing ds σ' k with
  | nil =>
    cases run
    cases code
    exact .here ⟨L, a, .nil, [], rfl, .refl n L h, mirrors, top, free, .nil, nofun, .nil⟩
  | cons e es ih =>
    obtain ⟨rest, σ₁, others, run⟩ := EvalM.bind_eq_some.mp run
    obtain ⟨d, σ₂, first, eq⟩ := EvalM.bind_eq_some.mp run
    cases eq
    cases code with
    | conses words one more =>
      refine (ih others more).trans ?_
      rintro _ h₁ ⟨L₁, a₁, v, as, rfl, ext₁, mirrors₁, cell₁, ⟨low₁, owned₁, free₁⟩, loose₁⟩
      refine (simulates _ _ _ _ _ L₁ h₁ (.pair a₁) E _ _ D first one mirrors₁
        (env.mono ext₁)).trans ?_
      rintro _ h₂ ⟨L₂, a₂, w, rfl, ext₂, mirrors₂, cell₂, ⟨low₂, owned₂, free₂⟩, means⟩
      have below : h₂.cell a₁ = ⟨v, S⟩ := by rw [ext₂.quiet a₁ owned₁ free₁, cell₁]
      have loose₂ := loose₁.keep ext₂ (Nat.le_of_lt owned₁)
      refine leads_cons mirrors₂.holds words cell₂ below fun room room' => .here ?_
      have le : a₁ ≤ h₂.size := Nat.le_trans (Nat.le_of_lt owned₁) ext₂.size_le
      have low' : n ≤ h₂.size := Nat.le_trans low₁ le
      have loose₃ := Loose.cons mirrors₂ loose₂ le low' means room
      have grows := (Heap.grows_grown h₂ ⟨w, v⟩ room).trans
        (Heap.grows_grown _ ⟨.pair h₂.size, S⟩ room')
      have ext₃ := ext₁.trans (ext₂.mono (Nat.le_trans low₁ (Nat.le_of_lt owned₁)))
      have size : (h₂.grown ⟨w, v⟩ room).size = h₂.size + 1 := Heap.size_grown ..
      refine ⟨L₂, h₂.size + 1, .pair h₂.size, _, rfl, ext₃.trans (.of_grows grows low' L₂),
        mirrors₂.grows grows, ?_, ⟨Nat.le_succ_of_le low', ?_, mirrors₂.fresh (Nat.le_succ _)⟩,
        loose₃.keep (.of_grows (Heap.grows_grown _ ⟨.pair h₂.size, S⟩ room') (Nat.le_refl _) L₂)
          (Nat.le_of_eq size.symm)⟩
      · rw [← size]
        exact Heap.cell_grown_size ..
      · simp

theorem leads_arguments (simulates : Simulates symbols P g sub) (mirrors : Mirrors P g L σ h)
    (env : L.EnvAt g locals E) {es : List Expr}
    (run : evalArguments (sub ⟨locals, P.table, g⟩) es σ = some (ds, σ'))
    (code : Code P (locals.map Prod.fst) (.arguments es) k c) :
    Leads symbols (Gathers P g h.size L h S E k D ds σ') ⟨S, E, c, D⟩ h := by
  cases code with
  | arguments inner words =>
    refine leads_nil mirrors.holds words fun room => ?_
    have grows := Heap.grows_grown h ⟨.nil, S⟩ room
    have ext : Extends h.size L h L (h.grown ⟨.nil, S⟩ room) := .of_grows grows (Nat.le_refl _) L
    refine (leads_conses simulates (mirrors.grows grows) (env.mono ext) (Heap.cell_grown_size ..)
      ⟨Nat.le_refl _, by simp, mirrors.fresh (Nat.le_refl _)⟩ run inner).trans ?_
    rintro r h' ⟨L', a, v, as, eq, ext', mirrors', cell, free, loose⟩
    exact .here ⟨L', a, v, as, eq, ext.trans ext', mirrors', cell, free, loose⟩

theorem Stacked.keep {s : Value} (stacked : Stacked L h n S ds s) (ext : Extends h.size L h L₁ h₁) :
    Stacked L₁ h₁ n S ds s := by
  induction ds generalizing s with
  | nil => exact stacked
  | cons d ds ih =>
    obtain ⟨a, v, rest, rfl, cell, ⟨low, owned, free⟩, means, others⟩ := stacked
    refine ⟨a, v, rest, rfl, ?_, ⟨low, Nat.lt_of_lt_of_le owned ext.size_le,
      ext.idle a owned free⟩, means.mono ext.objects, ih others⟩
    rw [ext.quiet a owned free, cell]

theorem leads_operands (simulates : Simulates symbols P g sub) (mirrors : Mirrors P g L σ h)
    (env : L.EnvAt g locals E) {es : List Expr}
    (run : evalArguments (sub ⟨locals, P.table, g⟩) es σ = some (ds, σ'))
    (code : Code P (locals.map Prod.fst) (.operands es) k c) :
    Leads symbols (Stacks P g h.size L h S E k D ds σ') ⟨S, E, c, D⟩ h := by
  induction es generalizing ds σ' k with
  | nil =>
    cases run
    cases code
    exact .here ⟨L, S, rfl, .refl _ L h, mirrors, rfl⟩
  | cons e es ih =>
    obtain ⟨rest, σ₁, others, run⟩ := EvalM.bind_eq_some.mp run
    obtain ⟨d, σ₂, first, eq⟩ := EvalM.bind_eq_some.mp run
    cases eq
    cases code with
    | operands one more =>
      refine (ih others more).trans ?_
      rintro _ h₁ ⟨L₁, s, rfl, ext₁, mirrors₁, stacked⟩
      refine (simulates _ _ _ _ _ L₁ h₁ s E _ _ D first one mirrors₁ (env.mono ext₁)).trans ?_
      rintro _ h₂ ⟨L₂, a, v, rfl, ext₂, mirrors₂, cell, ⟨low, owned, free⟩, means⟩
      have low' := Nat.le_trans ext₁.size_le low
      exact .here ⟨L₂, .pair a, rfl, ext₁.trans (ext₂.mono ext₁.size_le), mirrors₂, a, v, s, rfl, cell,
        ⟨low', owned, free⟩, means, stacked.keep ext₂⟩

end Reference

end SecdLisp
