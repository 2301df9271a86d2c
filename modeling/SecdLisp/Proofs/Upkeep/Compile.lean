import SecdLisp.Proofs.Additions
import SecdLisp.Proofs.Upkeep.Machine

/-!
# What compiling does to a heap

Compiling adds code to the heap and names to the tables of globals; the macros that it runs make
changes of their own. The global environment stays where it is, and nothing that is left behind
leads anywhere else.
-/

namespace SecdLisp

namespace Globals

structure Within (cells names : Nat) (g : Globals) : Prop where
  env : g.env.Within cells names
  functions : ∀ name ∈ g.functions, name < names
  macros : ∀ name ∈ g.macros, name < names

variable {cells cells' names names' : Nat} {g : Globals} {name : Symbol}

theorem Within.mono (known : g.Within cells names) (more : cells ≤ cells')
    (moreNames : names ≤ names') : g.Within cells' names' where
  env := known.env.mono more moreNames
  functions name mem := Nat.lt_of_lt_of_le (known.functions name mem) moreNames
  macros name mem := Nat.lt_of_lt_of_le (known.macros name mem) moreNames

theorem forall_mem_defineIn {p : Symbol → Prop} {table : List Symbol} (all : ∀ n ∈ table, p n)
    (new : p name) : ∀ n ∈ (defineIn table name).2, p n := by
  unfold defineIn
  split
  · exact all
  · simpa [or_imp, forall_and] using ⟨all, new⟩

theorem Within.defineAt (known : g.Within cells names) (table : Table) (lt : name < names) :
    (g.defineAt table name).2.Within cells names := by
  cases table with
  | functions => exact { known with functions := forall_mem_defineIn known.functions lt }
  | macros => exact { known with macros := forall_mem_defineIn known.macros lt }

end Globals

namespace Compile

open Heap Contract

variable {ω α : Type} {names : Nat}

/-- A property of heaps and records that changes to the heap keep, and that a recorder keeps when it
is told of an event, or of a run that leads nowhere but into the heap. -/
structure Tracks (names : Nat) (recorder : Recorder ω) (I : Heap → ω → Prop) : Prop where
  changes : ∀ {h h' : Heap} {record : ω}, h.Sound names → Changes names h h' → I h record →
    I h' record
  event : ∀ {h : Heap} {record : ω} (e : Event), I h record → I h (recorder.event e record)
  run : ∀ {h : Heap} {record : ω} {env code : Value} (symbols : SymbolTable) (steps : Nat),
    h.Sound names → h.Knows names env → h.Knows names code → I h record →
      I h (recorder.run symbols steps env code h record)

theorem tracks_true (names : Nat) (recorder : Recorder ω) :
    Tracks names recorder fun _ _ => True :=
  ⟨fun _ _ => id, fun _ => id, fun _ _ _ _ _ => id⟩

/-- Compiling makes changes to the heap and keeps the global environment where it is. -/
def upkeep (names : Nat) (I : Heap → ω → Prop) : Contract (State ω) (State ω) where
  le s s' := Changes names s.heap s'.heap ∧ s'.globals.env = s.globals.env
  holds w s := s = w ∧ w.heap.Sound names ∧ w.globals.Within w.heap.size names ∧ I w.heap w.record
  error w e := e.Within w.heap.size names
  refl _ := ⟨.refl, rfl⟩
  trans first second := ⟨first.1.trans second.1, second.2.trans first.2⟩

abbrev State.Knows (names : Nat) (s : State ω) (v : Value) : Prop := s.heap.Knows names v

variable {recorder : Recorder ω} {I : Heap → ω → Prop} {s : State ω} {ctx : Context ω} {v k : Value}

theorem knows_later {s' : State ω} (later : (upkeep names I).le s s') (known : s.Knows names v) :
    s'.Knows names v := later.1.knows known

section Heap

variable (tracks : Tracks names recorder I)

include tracks

theorem keeps_onHeap {p : Heap → α → Prop} {x : HeapM α}
    (keeps : (Heap.upkeep names).Keeps s.heap p x) :
    (upkeep names I).Keeps s (fun s a => p s.heap a) (onHeap x) := by
  rintro s ⟨rfl, sound, tables, kept⟩
  rw [ends_onHeap]
  refine (keeps _ ⟨rfl, sound⟩).mono ?_ ?_
  · rintro a h ⟨_, changes, ⟨rfl, sound'⟩, value⟩
    have tables' := tables.mono changes.size_le (Nat.le_refl _)
    exact ⟨{ s with heap := h }, ⟨changes, rfl⟩,
      ⟨rfl, sound', tables', tracks.changes sound changes kept⟩, value⟩
  · rintro e h ⟨_, changes, ⟨rfl, sound'⟩, error⟩
    have tables' := tables.mono changes.size_le (Nat.le_refl _)
    exact ⟨{ s with heap := h }, ⟨changes, rfl⟩,
      ⟨rfl, sound', tables', tracks.changes sound changes kept⟩, error⟩

theorem keeps_emit {ws : List Value} (words : ∀ w ∈ ws, s.Knows names w) (rest : s.Knows names k) :
    (upkeep names I).Keeps s (State.Knows names) (emit ws k) :=
  keeps_onHeap tracks (keeps_listWithTail words rest)

theorem keeps_address (depth index : Nat) :
    (upkeep names I).Keeps s (State.Knows names) (address depth index) :=
  keeps_onHeap tracks (keeps_cons trivial trivial)

end Heap

section Records

variable (tracks : Tracks names recorder I) (own : ctx.recorder = recorder)

include tracks own

theorem keeps_report (e : Event) :
    (upkeep names I).Keeps s (fun _ _ => True) (report ctx e) := by
  rintro s ⟨rfl, sound, tables, kept⟩
  subst own
  exact ⟨{ s with record := ctx.recorder.event e s.record }, ⟨.refl, rfl⟩,
    ⟨rfl, sound, tables, tracks.event e kept⟩, trivial⟩

theorem keeps_define (table : Table) {name : Symbol} (lt : name < names) :
    (upkeep names I).Keeps s (fun _ _ => True) (define table ctx name) := by
  rintro s ⟨rfl, sound, tables, kept⟩
  subst own
  exact ends_define.mpr ⟨⟨s.heap, (s.globals.defineAt table name).2, _⟩,
    ⟨.refl, s.globals.env_defineAt table name⟩,
    ⟨rfl, sound, tables.defineAt table lt, tracks.event _ kept⟩, trivial⟩

theorem keeps_runNow (code : s.Knows names v) :
    (upkeep names I).Keeps s (State.Knows names) (runNow ctx v) := by
  rintro s ⟨rfl, sound, tables, kept⟩
  subst own
  have told := tracks.run ctx.symbols ctx.steps sound tables.env code kept
  let recorded : State ω :=
    { s with record := ctx.recorder.run ctx.symbols ctx.steps s.globals.env v s.heap s.record }
  have ran := keeps_onHeap tracks (s := recorded)
    (Machine.keeps_run ctx.symbols ctx.steps tables.env code)
  unfold Ends
  rw [runNow_eq]
  exact ran recorded ⟨rfl, sound, tables, told⟩

theorem keeps_callMacro (slot : Nat) {args : List Value} (items : ∀ v ∈ args, s.Knows names v) :
    (upkeep names I).Keeps s (State.Knows names) (callMacro ctx slot args) := by
  refine (keeps_onHeap tracks (keeps_list items)).bind fun s₁ list _ knownList => ?_
  refine (keeps_address tracks _ slot).bind fun s₂ place later knownPlace => ?_
  have words : ∀ w ∈ [.op .ldc, list, .op .ld, place, .op .ap, .op .halt], s₂.Knows names w := by
    simp only [List.forall_mem_cons]
    exact ⟨trivial, knows_later later knownList, trivial, knownPlace, trivial, trivial, nofun⟩
  exact (keeps_onHeap tracks (keeps_list words)).bind fun s₃ code _ knownCode =>
    keeps_runNow tracks own knownCode

end Records

theorem takes_upkeep (tracks : Tracks names recorder I) (wide : Symbol.wellKnown.length ≤ names) :
    Takes (upkeep names I) recorder (State.Knows names) (fun s _ => s.Knows names)
      (fun s _ _ => s.Knows names) fun _ _ _ => True where
  later := knows_later
  laterCode := knows_later
  laterSlot _ := id
  refuse _ _ := Error.within_of_none rfl
  nil s := knows_nil names s.heap
  halves {_ _ a} holds _ := holds.1 ▸ holds.2.1 a
  event := keeps_report tracks
  slot _ _ := trivial
  own _ _ := keeps_address tracks _ _
  global _ _ := keeps_address tracks _ _
  naming table own _ lt := (keeps_define tracks own table lt).bind fun _ _ _ _ =>
    keeps_address tracks _ _
  phrase := by
    intro s words before after k phrase rest
    refine keeps_emit tracks ?_ rest
    cases phrase with
    | builtin b =>
      have name : s.Knows names (.ident b.symbol) := Nat.lt_of_lt_of_le (by cases b <;> decide) wide
      simpa using name
    | nil | cons | ap | dum => simp [Value.Within]
    | ldc known | load _ _ known | st _ known | ldf known | binding known | rap known =>
      simp [Value.Within, known]
    | sel first second => simp [Value.Within, first, second]
    | definition body _ place => simp [Value.Within, body, place]
  ending {s _ _} _ := keeps_emit tracks (by simp [Value.Within]) (knows_nil names s.heap)
  call own _ items := keeps_callMacro tracks own _ items
  reset := by
    rintro _ _ s s' e ⟨rfl, _, tables, _⟩ ⟨changes, env⟩ ⟨rfl, sound, tables', kept⟩ error
    have within := tables.mono changes.size_le (Nat.le_refl names)
    exact ⟨{ s' with globals :=
        { s'.globals with functions := s.globals.functions, macros := s.globals.macros } },
      ⟨changes, env⟩, ⟨rfl, sound, ⟨tables'.env, within.functions, within.macros⟩, kept⟩, error⟩

/-- A form that does not compile leaves the tables as they were. -/
theorem keeps_toplevel {symbols : SymbolTable} (tracks : Tracks symbols.count recorder I)
    (steps : Nat) (expr : s.Knows symbols.count v)
    (wide : Symbol.wellKnown.length ≤ symbols.count) :
    (upkeep symbols.count I).Keeps s (State.Knows symbols.count)
      (toplevel recorder symbols steps v) :=
  (takes_upkeep tracks wide).keeps_toplevel symbols steps expr

end Compile

end SecdLisp
