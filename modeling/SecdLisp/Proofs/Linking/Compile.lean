import SecdLisp.Proofs.Additions
import SecdLisp.Proofs.Linking.Code

/-!
# Compiled code is linked

Compiling a form gives code in which every global slot is one that a name has. Names get slots on the
way, and none of them loses its slot; and the runs that expand macros leave the code alone that was
put together so far.
-/

namespace SecdLisp

namespace Linking

open Heap Contract Compile Machine

variable {ω α : Type}

/-- Compiling leaves sealed cells alone, and names keep their slots; if every name has one slot to
begin with, it stays so. -/
def linking (distinct : Prop) : Contract World (State ω) where
  le := World.Le
  holds w s := sealing.holds w.store s.heap ∧ w.store.Open s.globals.env ∧
    ∀ table, s.globals.table table = w.names table ∧ (distinct → (w.names table).Nodup)
  error _ _ := True
  refl _ := ⟨.refl _, fun _ => List.prefix_rfl⟩
  trans first second := ⟨first.store.trans second.store, fun table =>
    (first.names table).trans (second.names table)⟩

variable {recorder : Recorder ω} {w : World} {ctx : Context ω} {n : Nat} {v k : Value}
  {distinct : Prop}

def World.onto (w : World) (store : Store) : World := { w with store }

theorem World.le_onto {store : Store} (le : w.store.Le store) : w.Le (w.onto store) :=
  ⟨le, fun _ => List.prefix_rfl⟩

theorem keeps_onHeap {x : HeapM α} {p : World → α → Prop}
    (keeps : sealing.Keeps w.store (fun store => p (w.onto store)) x) :
    (linking distinct).Keeps w p (onHeap x : CompileM ω α) := by
  rintro s ⟨holds, env, tables⟩
  rw [Compile.ends_onHeap]
  refine (keeps s.heap holds).mono ?_ ?_
  · rintro a h ⟨store, le, holds', value⟩
    exact ⟨w.onto store, World.le_onto le, ⟨holds', env.mono le, tables⟩, value⟩
  · rintro e h ⟨store, le, holds', _⟩
    exact ⟨w.onto store, World.le_onto le, ⟨holds', env.mono le, tables⟩, trivial⟩

theorem keeps_seal (car cdr : Value) :
    sealing.Keeps w.store (fun store v => (w.onto store).Has v car cdr) (Heap.cons car cdr) :=
  (keeps_alloc True fun no => (no trivial).elim).bind fun _ a _ ⟨lt, sealed, cell⟩ =>
    keeps_pure ⟨a, rfl, lt, sealed.mpr trivial, cell⟩

theorem keeps_words (words : List Value) :
    sealing.Keeps w.store (fun store v => (w.onto store).Spells words k v)
      (Heap.listWithTail words k) := by
  unfold Heap.listWithTail
  induction words with
  | nil => exact keeps_pure rfl
  | cons word words ih =>
    rw [List.foldrM_cons]
    refine ih.bind fun store u _ spells => ?_
    exact (keeps_seal (w := w.onto store) word u).mono fun store' v le has =>
      ⟨u, has, spells.mono (World.le_onto (w := w.onto store) le)⟩

theorem keeps_emit {words : List Value}
    (linked : ∀ w' v, w.Le w' → w'.Spells words k v → w'.Linked n v) :
    (linking distinct).Keeps w (fun w v => w.Linked n v) (emit words k : CompileM ω Value) :=
  keeps_onHeap ((keeps_words words).mono fun store v le =>
    linked (w.onto store) v (World.le_onto le))

theorem keeps_address {depth slot : Nat} (few : depth < 2 ^ 63) (known : depth ≤ n ∨
      ∃ table : Table, depth = n + table.depth ∧ slot ≤ (w.names table).length) :
    (linking distinct).Keeps w (fun w v => w.Address n v) (address depth slot : CompileM ω Value) :=
  keeps_onHeap ((keeps_seal _ _).mono fun _ _ _ has => ⟨depth, slot, has, few, known⟩)

theorem nodup_defineIn {names : List Symbol} (nodup : names.Nodup) (name : Symbol) :
    (Globals.defineIn names name).2.Nodup := by
  unfold Globals.defineIn
  split
  · exact nodup
  next absent =>
    have new : name ∉ names := by simpa [Globals.slotIn?] using absent
    rw [List.nodup_append]
    refine ⟨nodup, by simp, fun a mem b last => ?_⟩
    rintro rfl
    exact new (List.mem_singleton.mp last ▸ mem)

/-- A name has a slot of a table now, and the tables have lost none. -/
structure Names (table : Table) (g : Globals) (slot : Nat) (g' : Globals) : Prop where
  env : g'.env = g.env
  grow : ∀ t, g.table t <+: g'.table t
  nodup : ∀ t, (g.table t).Nodup → (g'.table t).Nodup
  slot : 0 < slot ∧ slot ≤ (g'.table table).length

theorem names_defineAt (table : Table) (g : Globals) (name : Symbol) :
    Names table g (g.defineAt table name).1 (g.defineAt table name).2 where
  env := g.env_defineAt table name
  grow t := by
    rw [g.table_defineAt]
    split
    next same => exact same ▸ Globals.le_defineIn _ _
    next => exact List.prefix_rfl
  nodup t nodup := by
    rw [g.table_defineAt]
    split
    next same => exact nodup_defineIn (same ▸ nodup) name
    next => exact nodup
  slot := by
    rw [g.slot_defineAt, g.table_defineAt, if_pos rfl]
    exact Globals.slotIn?_bounds (Globals.slotIn?_defineIn _ _)

theorem keeps_report (e : Event) : (linking distinct).Keeps w (fun _ _ => True) (report ctx e) :=
  fun _ holds => ⟨w, (linking distinct).refl w, holds, trivial⟩

theorem keeps_define (table : Table) (name : Symbol) :
    (linking distinct).Keeps w (fun w slot => 0 < slot ∧ slot ≤ (w.names table).length)
      (define table ctx name) := by
  rintro s ⟨holds, env, tables⟩
  have new := names_defineAt table s.globals name
  refine Compile.ends_define.mpr ⟨⟨w.store, (s.globals.defineAt table name).2.table⟩,
    ⟨.refl _, fun t => (tables t).1 ▸ new.grow t⟩,
    ⟨holds, new.env ▸ env, fun t => ⟨rfl, fun only => new.nodup t ?_⟩⟩, new.slot⟩
  exact (tables t).1 ▸ (tables t).2 only

abbrev Data (w : World) (v : Value) : Prop := w.store.Open v

theorem keeps_runNow (code : Data w v) :
    (linking distinct).Keeps w Data (runNow ctx v) := by
  rintro s ⟨holds, env, tables⟩
  rw [Compile.ends_runNow]
  refine (takes_running.keeps_run ctx.symbols ctx.steps env code s.heap holds).mono ?_ ?_
  · rintro a h ⟨store, le, holds', value⟩
    exact ⟨w.onto store, World.le_onto le, ⟨holds', env.mono le, tables⟩, value⟩
  · rintro e h ⟨store, le, holds', _⟩
    exact ⟨w.onto store, World.le_onto le, ⟨holds', env.mono le, tables⟩, trivial⟩

/-- The code that calls a macro is not sealed, and so nothing that its run can reach is. -/
theorem keeps_callMacro (slot : Nat) {args : List Value} (items : ∀ v ∈ args, Data w v) :
    (linking distinct).Keeps w Data (callMacro ctx slot args) := by
  have atom (w : World) {v : Value} (atom : v.isPair = false) : Data w v := Store.open_of_isPair atom
  have list : (linking distinct).Keeps w Data (onHeap (Heap.list args) : CompileM ω Value) :=
    keeps_onHeap (takes_running.keeps_list items)
  refine list.bind fun w₁ list _ knownList => ?_
  have place : (linking distinct).Keeps w₁ Data (address Globals.macroDepth slot : CompileM ω Value) :=
    keeps_onHeap (takes_running.keeps_cons (atom w₁ rfl) (atom w₁ rfl))
  refine place.bind fun w₂ place le knownPlace => ?_
  have words : ∀ v ∈ [.op .ldc, list, .op .ld, place, .op .ap, .op .halt], Data w₂ v := by
    simp only [List.forall_mem_cons]
    exact ⟨atom w₂ rfl, knownList.mono le.store, atom w₂ rfl, knownPlace, atom w₂ rfl, atom w₂ rfl,
      nofun⟩
  have code : (linking distinct).Keeps w₂ Data
      (onHeap (Heap.list [.op .ldc, list, .op .ld, place, .op .ap, .op .halt]) : CompileM ω Value) :=
    keeps_onHeap (takes_running.keeps_list words)
  exact code.bind fun w₃ code _ known => keeps_runNow known

theorem takes_compiling (recorder : Recorder ω) : Compile.Takes (linking distinct) recorder Data
    (fun w shape v => w.Linked shape.scopes.length v) (fun w scopes _ v => w.Address scopes.length v)
    fun w table slot => slot ≤ (w.names table).length where
  later le known := known.mono le.store
  laterCode le linked := linked.mono le
  laterSlot {_ _ table _} le known := Nat.le_trans known (le.names table).length_le
  refuse _ _ := trivial
  nil _ := Store.open_of_isPair rfl
  halves holds known := holds.1.1 ▸ holds.1.2.halves known
  event _ := keeps_report
  slot {_ _ table _ _} holds found := (holds.2.2 table).1 ▸ (Globals.slotIn?_bounds found).2
  own spelled found := by
    obtain ⟨⟨_, le⟩, _⟩ := locate?_bounds found
    exact keeps_address (by have := spelled.depth; omega) (.inl le)
  global {_ _ table _} spelled known := by
    have two : table.depth ≤ 2 := by cases table <;> decide
    exact keeps_address (by have := spelled.depth; omega) (.inr ⟨table, rfl, known⟩)
  naming table _ spelled _ := by
    have two : table.depth ≤ 2 := by cases table <;> decide
    exact (keeps_define table _).bind fun w' slot _ known =>
      keeps_address (by have := spelled.depth; omega) (.inr ⟨table, rfl, known.2⟩)
  phrase := by
    intro w words before after k phrase rest
    refine keeps_emit fun w' v le words => ?_
    have rest := rest.mono le
    cases phrase with
    | nil | cons | builtin | ap => exact .plain (by trivial) rest words
    | ldc => exact .ldc rest words
    | load loads _ place =>
      exact .address (by cases loads <;> simp) (place.mono le) rest words
    | st _ place => exact .address (by simp) (place.mono le) rest words
    | sel first second => exact .sel (first.mono le) (second.mono le) rest words
    | ldf body => exact .ldf (body.mono le) rest words
    | binding body =>
      obtain ⟨_, ldf, _, operand, call⟩ := words
      exact .ldf (body.mono le) (.plain (i := .op .ap) trivial rest call) ⟨_, ldf, _, operand, rfl⟩
    | dum => exact .dum rest words
    | rap body => exact .rap (body.mono le) rest words
    | definition body _ place =>
      obtain ⟨_, ldf, _, operand, store⟩ := words
      exact .ldf (body.mono le) (.address (by simp) (place.mono le) rest store)
        ⟨_, ldf, _, operand, rfl⟩
  ending last := keeps_emit fun _ _ _ words => .last (by cases last <;> simp) words
  call _ _ := keeps_callMacro _
  reset := by
    rintro w w' ⟨_, g, _⟩ ⟨h', g', _⟩ e ⟨_, _, tables⟩ le ⟨holds', env', _⟩ _
    refine ⟨⟨w'.store, w.names⟩, ⟨le.store, fun _ => List.prefix_rfl⟩, ⟨holds', env', ?_⟩, trivial⟩
    rintro (_ | _)
    · exact tables .functions
    · exact tables .macros

/-- A form is compiled to linked code. -/
theorem keeps_toplevel (recorder : Recorder ω) (symbols : SymbolTable) (steps : Nat)
    (expr : Data w v) :
    (linking distinct).Keeps w (fun w v => w.Linked 0 v) (toplevel recorder symbols steps v) :=
  (takes_compiling recorder).keeps_toplevel symbols steps expr

end Linking

end SecdLisp
