import SecdLisp.Proofs.Discipline.Run

/-!
# Putting checked code together

While the history is honest, a world describes what the compiler works on. What the compiler emits
in front of checked code is checked in that world, and a run that it starts keeps to the discipline
as well. Nothing is known any more once a history is not honest.
-/

namespace SecdLisp

namespace Discipline

open Contract Compile Machine

/-- A record of every instruction that was carried out. -/
def chronicle : Recorder (List Moment) where
  event _ history := history
  run symbols steps env code h history := history ++ moments symbols steps (start env code) h

abbrev World.Room (w : World) : Prop := w.heap.size < w.heap.capacity

/-- The world describes what is compiled on, after an honest history. Each global name took a cell
for the address that it got, unless there was no room for one. -/
structure World.Stands (w : World) (root : Value) (s : State (List Moment)) : Prop where
  honest : Honest s.record
  heap : s.heap = w.heap
  typed : w.Typed
  recalls : w.Recalls s.record
  origin : w.root = root
  env : s.globals.env = root
  tables : w.Room → ∀ table, (s.globals.table table).length ≤ w.heap.size

/-- Compiling keeps each cell to its role and each run to the discipline. -/
def discipline (root : Value) : Contract (Option World) (State (List Moment)) where
  le o o' := ∀ w' ∈ o', ∃ w ∈ o, w.Le w'
  holds o s := Disciplined root s.record ∧
    match o with
    | none => ¬Honest s.record
    | some w => w.Stands root s
  error _ _ := True
  refl _ w mem := ⟨w, mem, .refl w⟩
  trans first second w'' mem := by
    obtain ⟨w', mem', le'⟩ := second w'' mem
    obtain ⟨w, mem, le⟩ := first w' mem'
    exact ⟨w, mem, le.trans le'⟩

def Shown (o : Option World) (v : Value) : Prop := ∀ w ∈ o, w.Visible v

def Checked (o : Option World) (shape : Shape) (v : Value) : Prop := ∀ w ∈ o, w.Code shape v

def Placed (o : Option World) (scopes : List Frame) (spot : Spot) (v : Value) : Prop :=
  ∀ w ∈ o, w.Address scopes spot v

/-- The slot of a variable, which has an address unless there is no room for one. -/
def Slotted (o : Option World) (slot : Nat) : Prop :=
  0 < slot ∧ ∀ w ∈ o, w.Room → slot < 2 ^ 63

variable {α : Type} {root : Value} {o o' : Option World} {w w' : World} {slot depth : Nat}
  {scopes : List Frame} {spot : Spot} {before after : Shape} {words args : List Value} {v k : Value}
  {table : Table} {s : State (List Moment)} {ctx : Context (List Moment)}

theorem World.Room.earlier (room : w'.Room) (le : w.Le w') : w.Room :=
  Nat.lt_of_le_of_lt le.size (le.capacity ▸ room)

theorem forall_later {p : World → Prop} (mono : ∀ {w w'}, p w → w.Le w' → p w')
    (le : (discipline root).le o o') (known : ∀ w ∈ o, p w) : ∀ w ∈ o', p w := by
  intro w' mem'
  obtain ⟨w, mem, le⟩ := le w' mem'
  exact mono (known w mem) le

theorem Slotted.later (le : (discipline root).le o o') (slotted : Slotted o slot) :
    Slotted o' slot :=
  ⟨slotted.1, forall_later (fun small le room => small (room.earlier le)) le slotted.2⟩

theorem World.Stands.later (stands : w.Stands root s) (moves : w.Moves (fun _ _ => False) w')
    (typed : w'.Typed) : w'.Stands root { s with heap := w'.heap } where
  honest := stands.honest
  heap := rfl
  typed := typed
  recalls := stands.recalls.later moves
  origin := moves.le.root.trans stands.origin
  env := stands.env
  tables room table := Nat.le_trans (stands.tables (room.earlier moves.le) table) moves.le.size

theorem le_some (le : w.Le w') : (discipline root).le (some w) (some w') := by
  rintro _ ⟨⟩
  exact ⟨w, rfl, le⟩

theorem keeps_onHeap {x : HeapM α} {p : World → α → Prop} (keeps : ∀ w ∈ o, keeping.Keeps w p x) :
    (discipline root).Keeps o (fun o a => ∀ w ∈ o, p w a) (onHeap x) := by
  rintro s ⟨disciplined, known⟩
  rw [ends_onHeap]
  cases o with
  | none =>
    exact .of_forall (fun a h => ⟨none, nofun, ⟨disciplined, known⟩, nofun⟩)
      fun e h => ⟨none, nofun, ⟨disciplined, known⟩, trivial⟩
  | some w =>
    refine (keeps w rfl s.heap ⟨known.heap, known.typed⟩).mono ?_ ?_
    · rintro a _ ⟨w', moves, ⟨rfl, typed⟩, value⟩
      refine ⟨some w', le_some moves.le, ⟨disciplined, known.later moves typed⟩, ?_⟩
      rintro _ ⟨⟩
      exact value
    · rintro e _ ⟨w', moves, ⟨rfl, typed⟩, _⟩
      exact ⟨some w', le_some moves.le, ⟨disciplined, known.later moves typed⟩, trivial⟩

theorem keeps_report (own : ctx.recorder = chronicle) (e : Event) :
    (discipline root).Keeps o (fun _ _ => True) (report ctx e) := by
  intro s holds
  unfold report
  rw [own]
  exact ⟨o, (discipline root).refl o, holds, trivial⟩

theorem keeps_listWithTail (visible : ∀ word ∈ words, w.Visible word) (rest : w.Visible k) :
    keeping.Keeps w (fun w' v => w'.Spells words k v) (Heap.listWithTail words k) := by
  unfold Heap.listWithTail
  induction words with
  | nil => exact keeps_pure rfl
  | cons word words ih =>
    rw [List.forall_mem_cons] at visible
    rw [List.foldrM_cons]
    refine (ih visible.2).bind fun w₁ u moves spells => ?_
    have admits : w₁.Typed → w₁.Admits .plain ⟨word, u⟩ := fun _ =>
      ⟨visible.1.mono moves.le, spells.visible (rest.mono moves.le)⟩
    exact (keeps_cons .plain admits).mono fun w₂ v moves₂ has =>
      ⟨u, has, spells.mono moves₂.le⟩

abbrev World.Phrase (w : World) : List Value → Shape → Shape → Prop :=
  Compile.Phrase w.Code w.Address w.Visible

theorem World.Phrase.later (phrase : w.Phrase words before after) (le : w.Le w') :
    w'.Phrase words before after :=
  phrase.mono (fun _ _ code => code.mono le) (fun _ _ _ place => place.mono le)
    fun _ visible => visible.mono le

theorem World.Phrase.visible (phrase : w.Phrase words before after) :
    ∀ word ∈ words, w.Visible word := by
  have atom {v : Value} (atom : v.isPair = false) : w.Visible v := World.visible_of_isPair atom
  cases phrase with
  | nil | cons | builtin | ap | dum => simpa using atom rfl
  | ldc literal => simpa using ⟨atom rfl, literal⟩
  | load _ _ place | st _ place => simpa using ⟨atom rfl, place.visible⟩
  | sel first second => simpa using ⟨atom rfl, first.visible, second.visible⟩
  | ldf body => simpa using ⟨atom rfl, body.visible⟩
  | binding body | rap body => simpa using ⟨atom rfl, body.visible, atom rfl⟩
  | definition body _ place => simpa using ⟨atom rfl, body.visible, atom rfl, place.visible⟩

theorem World.Phrase.code (phrase : w.Phrase words before after) (next : w.Code after k)
    (spelled : w.Spells words k v) : w.Code before v := by
  cases phrase with
  | nil => exact .nil next spelled
  | ldc literal => exact .ldc next literal spelled
  | load loads _ place => exact .load loads next place spelled
  | st assigns place => exact .st assigns next place spelled
  | cons => exact .cons next spelled
  | builtin b => exact .builtin b next spelled
  | sel first second => exact .sel first second next spelled
  | ldf body => exact .ldf body next spelled
  | ap => exact .ap next spelled
  | binding body =>
    obtain ⟨_, ldf, _, operand, call⟩ := spelled
    exact .ldf body (.ap next call) ⟨_, ldf, _, operand, rfl⟩
  | dum => exact .dum next spelled
  | rap body => exact .rap body next spelled
  | definition body assigns place =>
    obtain ⟨_, ldf, _, operand, store⟩ := spelled
    exact .ldf body (.st assigns next place store) ⟨_, ldf, _, operand, rfl⟩

theorem keeps_phrase (phrase : Compile.Phrase (Checked o) (Placed o) (Shown o) words before after)
    (next : Checked o after k) :
    (discipline root).Keeps o (fun o v => Checked o before v) (emit words k) := by
  refine keeps_onHeap fun w mem => ?_
  have phrase : w.Phrase words before after :=
    phrase.mono (fun _ _ code => code w mem) (fun _ _ _ place => place w mem)
      fun _ shown => shown w mem
  exact (keeps_listWithTail phrase.visible (next w mem).visible).mono fun w' v moves spelled =>
    (phrase.later moves.le).code ((next w mem).mono moves.le) spelled

theorem keeps_ending {last : Opcode} (ending : Ending last before) :
    (discipline root).Keeps o (fun o v => Checked o before v) (emit [.op last] .nil) := by
  have atom {w : World} {v : Value} (atom : v.isPair = false) : w.Visible v :=
    World.visible_of_isPair atom
  refine keeps_onHeap fun w mem => ?_
  refine (keeps_listWithTail (by simpa using atom rfl) (atom rfl)).mono fun w' v moves spelled => ?_
  cases ending with
  | rtn => exact .rtn spelled
  | join => exact .join spelled
  | halt => exact .halt spelled

/-- Without room there is no cell, and so no address to be judged. -/
theorem keeps_place (positive : 0 < depth ∧ 0 < slot) (within : depth ≤ scopes.length + 2)
    (few : depth < 2 ^ 63) (slotted : w.Room → slot < 2 ^ 63)
    (reaches : World.Reaches (Extent.ofDepth scopes depth) slot spot) :
    keeping.Keeps w (fun w' v => w'.Address scopes spot v)
      (Heap.cons (.int (Int64.ofNat depth)) (.int (Int64.ofNat slot))) := by
  have atom (i : Int64) : w.Visible (.int i) := World.visible_of_isPair rfl
  by_cases room : w.Room
  · exact (keeps_cons .plain fun _ => ⟨atom _, atom _⟩).mono fun w' v _ has =>
      ⟨depth, slot, has, positive, ⟨few, slotted room⟩, within, reaches⟩
  · rintro _ ⟨rfl, typed⟩
    exact Heap.ends_cons.mpr ⟨fun some => (room some).elim,
      fun _ => ⟨w, .refl w, ⟨rfl, typed⟩, trivial⟩⟩

theorem keeps_own {name : Symbol} {place : Place} (spelled : Spelled scopes)
    (found : Frame.locate? scopes name = some place) :
    (discipline root).Keeps o (fun o v => Placed o scopes (.own place) v)
      (address place.depth place.index) := by
  obtain ⟨⟨first, le⟩, second, _⟩ := locate?_bounds found
  obtain ⟨frame, there, here⟩ := locate?_frame found
  have lawful : Lawful frame := spelled.frames frame (List.mem_of_getElem? there)
  have short := Nat.lt_of_le_of_lt (find?_bounds here).2 lawful.few
  have few := spelled.depth
  refine keeps_onHeap fun w _ =>
    keeps_place ⟨first, second⟩ (by omega) (by omega) (fun _ => short) ?_
  have extent : Extent.ofDepth scopes place.depth = some frame.extent := by
    rw [Extent.ofDepth, there]
    rfl
  have fits := find?_extent lawful.last here
  obtain ⟨depth, index, formal⟩ := place
  rw [extent]
  cases formal with
  | plain =>
    rintro n ⟨⟩
    exact fits
  | rest =>
    have behind : index = frame.extent + 1 := fits
    subst behind
    exact rfl

/-- A global frame has no extent, so any slot of it will do. -/
theorem keeps_globalPlace (spelled : Spelled scopes) (table : Table) (positive : 0 < slot)
    (slotted : w.Room → slot < 2 ^ 63) :
    keeping.Keeps w (fun w' v => w'.Address scopes (.global table) v)
      (Heap.cons (.int (Int64.ofNat (scopes.length + table.depth))) (.int (Int64.ofNat slot))) := by
  have bounds : 0 < table.depth ∧ table.depth ≤ 2 := by cases table <;> decide
  have few := spelled.depth
  refine keeps_place ⟨by omega, positive⟩ (by omega) (by omega) slotted ?_
  have none : Extent.ofDepth scopes (scopes.length + table.depth) = none := by
    rw [Extent.ofDepth, List.getElem?_eq_none (by omega)]
    rfl
  rw [none]
  exact fun _ mem => absurd mem (Option.not_mem_none _)

theorem keeps_global (spelled : Spelled scopes) (slotted : Slotted o slot) :
    (discipline root).Keeps o (fun o v => Placed o scopes (.global table) v)
      (address (scopes.length + table.depth) slot) :=
  keeps_onHeap fun w mem => keeps_globalPlace spelled table slotted.1 (slotted.2 w mem)

theorem slot_defineIn (names : List Symbol) (name : Symbol) :
    (0 < (Globals.defineIn names name).1 ∧
      (Globals.defineIn names name).1 ≤ names.length + 1) ∧
        (Globals.defineIn names name).2.length ≤ names.length + 1 := by
  unfold Globals.defineIn
  split
  next found =>
    obtain ⟨positive, le⟩ := Globals.slotIn?_bounds found
    exact ⟨⟨positive, Nat.le_succ_of_le le⟩, Nat.le_succ _⟩
  next => simp

theorem lt_of_room (room : w.Room) (le : slot ≤ w.heap.size + 1) : slot < 2 ^ 63 := by
  have bound : w.heap.size < Heap.maxCells := Nat.lt_of_lt_of_le room w.heap.capacity_le
  have word : Heap.maxCells + 1 < 2 ^ 63 := by decide
  omega

theorem slotted_of_slotIn? {name : Symbol} (holds : (discipline root).holds o s)
    (found : Globals.slotIn? (s.globals.table table) name = some slot) : Slotted o slot := by
  obtain ⟨positive, le⟩ := Globals.slotIn?_bounds found
  refine ⟨positive, ?_⟩
  rintro w ⟨⟩ room
  exact lt_of_room room (Nat.le_succ_of_le (Nat.le_trans le (holds.2.tables room table)))

structure Defines (table : Table) (g g' : Globals) (slot : Nat) : Prop where
  env : g'.env = g.env
  positive : 0 < slot
  le : slot ≤ (g.table table).length + 1
  tables : ∀ t, (g'.table t).length ≤ (g.table t).length + 1

theorem defines_at (table : Table) (g : Globals) (name : Symbol) :
    Defines table g (g.defineAt table name).2 (g.defineAt table name).1 := by
  obtain ⟨⟨positive, le⟩, length⟩ := slot_defineIn (g.table table) name
  rw [← g.slot_defineAt] at positive le
  refine ⟨g.env_defineAt table name, positive, le, fun t => ?_⟩
  rw [g.table_defineAt]
  split
  next same => exact same ▸ length
  next => exact Nat.le_succ _

theorem exists_defines (own : ctx.recorder = chronicle) (table : Table) (name : Symbol)
    (s : State (List Moment)) : ∃ slot g,
      define table ctx name s = .ok slot { s with globals := g } ∧
        Defines table s.globals g slot := by
  refine ⟨_, _, ?_, defines_at table s.globals name⟩
  rw [Compile.define_eq, own]
  rfl

/-- While there is room, the address of a new name takes a cell, so there are still no more names
than cells. -/
theorem World.Stands.address {g : Globals} (stands : w.Stands root s)
    (new : Defines table s.globals g slot) (spelled : Spelled scopes)
    (room : w.heap.size < w.heap.capacity) : ∃ w', w.Le w' ∧
      w'.heap = w.heap.grown
        ⟨.int (Int64.ofNat (scopes.length + table.depth)), .int (Int64.ofNat slot)⟩ room ∧
      w'.Stands root ⟨w'.heap, g, s.record⟩ ∧
      w'.Address scopes (.global table) (.pair w.heap.size) := by
  have few := stands.tables room
  have small : slot ≤ w.heap.size + 1 := Nat.le_trans new.le (Nat.succ_le_succ (few table))
  have keeps := keeps_globalPlace (w := w) spelled table new.positive fun _ => lt_of_room room small
  obtain ⟨w', moves, ⟨grown, typed⟩, place⟩ :=
    (Heap.ends_cons.mp (keeps w.heap ⟨rfl, stands.typed⟩)).1 room
  have more : w'.heap.size = w.heap.size + 1 := by rw [← grown, Heap.size_grown]
  have env : g.env = root := new.env.trans stands.env
  refine ⟨w', moves.le, grown.symm, ?_, place⟩
  refine { stands.later moves typed with env := env, tables := fun _ t => ?_ }
  rw [more]
  exact Nat.le_trans (new.tables t) (Nat.succ_le_succ (few t))

theorem keeps_naming (own : ctx.recorder = chronicle) (table : Table) (name : Symbol)
    (spelled : Spelled scopes) : (discipline root).Keeps o
      (fun o v => Placed o scopes (.global table) v)
      (define table ctx name >>= address (scopes.length + table.depth)) := by
  rintro s ⟨disciplined, known⟩
  obtain ⟨slot, g, defined, new⟩ := exists_defines own table name s
  rw [ends_bind, Ends, defined]
  cases o with
  | none =>
    have slotted : Slotted none slot := ⟨new.positive, by simp⟩
    exact keeps_global spelled slotted { s with globals := g } ⟨disciplined, known⟩
  | some w =>
    by_cases room : w.Room
    · obtain ⟨w', le, grown, stands, place⟩ := known.address new spelled room
      unfold address
      dsimp only
      rw [ends_onHeap]
      dsimp only
      rw [known.heap]
      refine Heap.ends_cons.mpr ⟨fun _ => ⟨some w', le_some le, ⟨disciplined, grown ▸ stands⟩, ?_⟩,
        fun full => (Nat.not_le.mpr room full).elim⟩
      rintro _ ⟨⟩
      exact place
    · have slotted : Slotted (some w) slot := by
        refine ⟨new.positive, ?_⟩
        rintro _ ⟨⟩ some
        exact (room some).elim
      have env : g.env = root := new.env.trans known.env
      exact keeps_global spelled slotted { s with globals := g }
        ⟨disciplined, { known with env := env, tables := fun some => (room some).elim }⟩

theorem ends_runNow (own : ctx.recorder = chronicle) {p : Value → State (List Moment) → Prop}
    {q : Error → State (List Moment) → Prop} : Ends (runNow ctx v) s p q ↔
      Ends (runFrom ctx.symbols ctx.steps (start s.globals.env v)) s.heap
        (fun a h => p a ⟨h, s.globals,
          s.record ++ moments ctx.symbols ctx.steps (start s.globals.env v) s.heap⟩)
        fun e h => q e ⟨h, s.globals,
          s.record ++ moments ctx.symbols ctx.steps (start s.globals.env v) s.heap⟩ := by
  rw [Compile.ends_runNow, own]
  rfl

/-- A run of checked code keeps to the discipline, or its history is not honest. -/
theorem keeps_runNow (own : ctx.recorder = chronicle) (ready : ∀ w ∈ o, w.Ready (start w.root v)) :
    (discipline root).Keeps o Shown (runNow ctx v) := by
  rintro s ⟨disciplined, known⟩
  rw [ends_runNow own]
  generalize more : moments ctx.symbols ctx.steps (start s.globals.env v) s.heap = run
  -- Once the history is not honest, nothing is said about what the run leaves.
  have lost (disciplined : Disciplined root (s.record ++ run))
      (dishonest : ¬Honest (s.record ++ run)) :
      Ends (runFrom ctx.symbols ctx.steps (start s.globals.env v)) s.heap
        (fun a h => ∃ o', (discipline root).le o o' ∧
          (discipline root).holds o' ⟨h, s.globals, s.record ++ run⟩ ∧ Shown o' a)
        fun e h => ∃ o', (discipline root).le o o' ∧
          (discipline root).holds o' ⟨h, s.globals, s.record ++ run⟩ ∧ True :=
    .of_forall (fun a h => ⟨none, nofun, ⟨disciplined, dishonest⟩, nofun⟩)
      fun e h => ⟨none, nofun, ⟨disciplined, dishonest⟩, trivial⟩
  cases o with
  | none =>
    exact lost (disciplined.append known run)
      fun honest => known (honest.mono (List.prefix_append ..))
  | some w =>
    have env : s.globals.env = w.root := known.env.trans known.origin.symm
    obtain ⟨still, ends⟩ := runFrom_disciplined ctx.symbols ctx.steps known.typed (ready w rfl)
      known.recalls (known.origin.symm ▸ disciplined)
    rw [← env, ← known.heap, more, known.env] at still
    rw [← env, ← known.heap, more] at ends
    by_cases honest : Honest (s.record ++ run)
    · have onward {h : Heap} {w' : World} (onward : w.Onward (s.record ++ run) h w') :
          w'.Stands root ⟨h, s.globals, s.record ++ run⟩ := by
        obtain ⟨le, same, typed, recalls⟩ := onward
        refine ⟨honest, same, typed, recalls, le.root.trans known.origin, known.env, ?_⟩
        exact fun room table =>
          Nat.le_trans (known.tables (room.earlier le) table) le.size
      refine (ends honest).mono ?_ ?_
      · rintro a h ⟨w', later, visible⟩
        refine ⟨some w', le_some later.1, ⟨still, onward later⟩, ?_⟩
        rintro _ ⟨⟩
        exact visible
      · rintro e h ⟨w', later⟩
        exact ⟨some w', le_some later.1, ⟨still, onward later⟩, trivial⟩
    · exact lost still honest

theorem meets_start (v : Value) : w.Meets [] ⟨[], [], .nothing⟩ (start w.root v) where
  frames := rfl
  operands := ⟨[], [], .nil, .nothing, List.nodup_nil⟩

theorem ready_of_code (code : w.Code ⟨[], [], .nothing⟩ v) : w.Ready (start w.root v) :=
  .running (meets_start v) code

def callCode (slot : Nat) (args : List Value) : HeapM Value := do
  let args ← Heap.list args
  let place ← Heap.cons (.int (Int64.ofNat Globals.macroDepth)) (.int (Int64.ofNat slot))
  Heap.list [.op .ldc, args, .op .ld, place, .op .ap, .op .halt]

theorem callMacro_eq (ctx : Context (List Moment)) (slot : Nat) (args : List Value) :
    callMacro ctx slot args = (do runNow ctx (← onHeap (callCode slot args))) := by
  funext s
  unfold callMacro callCode address
  simp only [bind, EStateM.bind, onHeap]
  cases Heap.list args s.heap with
  | error e h => rfl
  | ok list h =>
    dsimp only
    cases Heap.cons (.int (Int64.ofNat Globals.macroDepth)) (.int (Int64.ofNat slot)) h with
    | error e h => rfl
    | ok place h => rfl

theorem keeps_unevaluated (visible : ∀ v ∈ args, w.Visible v) {r : Registers}
    (meets : w.Meets [] before r) : keeping.Keeps w
      (fun w' v => ∃ own, w'.Listed own v ∧ w'.Meets own before r) (Heap.list args) :=
  keeps_foldrM (p := World.Visible) visible (fun _ _ moves visible => visible.mono moves.le)
    ⟨[], rfl, meets⟩ fun _ _ _ _ visible ⟨own, listed, meets⟩ =>
      (keeps_element meets visible listed).mono fun _ _ _ ⟨a, _, longer⟩ => ⟨a :: own, longer⟩

/-- The first two cells lead to an argument list that is no frame yet, so they are hidden. -/
theorem keeps_callCode (visible : ∀ v ∈ args, w.Visible v) (positive : 0 < slot)
    (slotted : w.Room → slot < 2 ^ 63) :
    keeping.Keeps w (fun w' code => w'.Ready (start w'.root code)) (callCode slot args) := by
  have atom {w : World} {v : Value} (atom : v.isPair = false) : w.Visible v :=
    World.visible_of_isPair atom
  have spelled : Spelled [] := ⟨by decide, by simp⟩
  refine (keeps_unevaluated visible (meets_start .nil)).bind
    fun w₁ list moves₁ ⟨own, listed, meets⟩ => ?_
  have slotted : w₁.Room → slot < 2 ^ 63 := fun room => slotted (room.earlier moves₁.le)
  refine (keeps_globalPlace spelled .macros positive slotted).bind fun w₂ place moves₂ placed => ?_
  have words : ∀ v ∈ [.op .ld, place, .op .ap, .op .halt], w₂.Visible v := by
    simp only [List.forall_mem_cons]
    exact ⟨atom rfl, placed.visible, atom rfl, atom rfl, nofun⟩
  have nil : w₂.Visible .nil := atom rfl
  have apart : Heap.list [.op .ldc, list, .op .ld, place, .op .ap, .op .halt] = (do
      let call ← Heap.listWithTail [.op .ld, place, .op .ap, .op .halt] .nil
      Heap.cons (.op .ldc) (← Heap.cons list call)) := by
    simp only [Heap.list, Heap.listWithTail, List.foldrM_cons, bind_assoc]
  rw [apart]
  refine (keeps_listWithTail words nil).bind fun w₃ k moves₃ words => ?_
  refine (keeps_cons .hidden fun _ => trivial).bind fun w₄ u moves₄ second => ?_
  refine (keeps_cons .hidden fun _ => trivial).mono fun w₅ code moves₅ first => ?_
  have moves := ((moves₂.trans moves₃).trans moves₄).trans moves₅
  have next : w₃.Code ⟨[], [.list], .nothing⟩ k := by
    obtain ⟨_, load, _, operand, _, call, halt⟩ := words
    have place := placed.mono moves₃.le
    exact .load .global (.ap (.halt halt) ⟨_, call, rfl⟩) place ⟨_, load, _, operand, rfl⟩
  have root : w₅.root = w.root := (moves₁.trans moves).le.root
  rw [root]
  exact .calling ((meets.later moves).withCode code) first (second.mono moves₅.le trivial)
    (listed.later moves) (next.mono (moves₄.trans moves₅).le)

theorem keeps_callMacro (own : ctx.recorder = chronicle) (slotted : Slotted o slot)
    (items : ∀ v ∈ args, Shown o v) :
    (discipline root).Keeps o Shown (callMacro ctx slot args) := by
  rw [callMacro_eq]
  have code : (discipline root).Keeps o (fun o code => ∀ w ∈ o, w.Ready (start w.root code))
      (onHeap (callCode slot args)) := keeps_onHeap fun w mem =>
    keeps_callCode (fun v here => items v here w mem) slotted.1 (slotted.2 w mem)
  exact code.bind fun _ _ _ ready => keeps_runNow own ready

end Discipline

end SecdLisp
