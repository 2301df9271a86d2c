import SecdLisp.Proofs.Operation
import SecdLisp.Proofs.Upkeep.Compile
import SecdLisp.Proofs.Upkeep.Reading

/-!
# What operations do to a session

Every operation but restoring only adds names and makes changes to the heap, and keeps the global
environment where it is. What it answers leads nowhere but into the session.
-/

namespace SecdLisp

namespace Session

open Heap Contract

variable {α : Type} {s s' : Session} {v : Value}

theorem knows_iff : s.Knows v ↔ v.Within s.heap.size s.symbols.count := by
  cases v <;> rfl

theorem inRange_iff : s.InRange ↔
    s.heap.Sound s.symbols.count ∧ s.globals.Within s.heap.size s.symbols.count := by
  constructor
  · intro inRange
    refine ⟨fun a => ?_, knows_iff.mp inRange.env, inRange.functions, inRange.macros⟩
    exact ⟨knows_iff.mp (inRange.cells a).1, knows_iff.mp (inRange.cells a).2⟩
  · rintro ⟨sound, env, functions, macros⟩
    refine ⟨fun a => ?_, knows_iff.mpr env, functions, macros⟩
    exact ⟨knows_iff.mpr (sound a).1, knows_iff.mpr (sound a).2⟩

theorem bears_error {e : Error} : s.Bears (.error e) ↔ e.Within s.heap.size s.symbols.count := by
  constructor
  · intro bears r carried
    obtain ⟨stack, env, code, dump⟩ := bears r carried
    exact ⟨knows_iff.mp stack, knows_iff.mp env, knows_iff.mp code, knows_iff.mp dump⟩
  · intro known r carried
    obtain ⟨stack, env, code, dump⟩ := known r carried
    exact ⟨knows_iff.mpr stack, knows_iff.mpr env, knows_iff.mpr code, knows_iff.mpr dump⟩

/-- Names and cells are added, and cells changed; the global environment stays where it is. -/
structure Later (s s' : Session) : Prop where
  symbols : s.symbols.Within s'.symbols
  heap : Changes s'.symbols.count s.heap s'.heap
  env : s'.globals.env = s.globals.env

theorem Later.refl (s : Session) : s.Later s := ⟨.refl _, .refl, rfl⟩

theorem Later.trans {s'' : Session} (first : s.Later s') (second : s'.Later s'') : s.Later s'' :=
  ⟨first.symbols.trans second.symbols,
    (first.heap.mono second.symbols.count_le).trans second.heap, second.env.trans first.env⟩

theorem Later.knows (later : s.Later s') (known : s.Knows v) : s'.Knows v :=
  knows_iff.mpr ((knows_iff.mp known).mono later.heap.size_le later.symbols.count_le)

theorem Later.bears (later : s.Later s') {answer : Except Error Value} (bears : s.Bears answer) :
    s'.Bears answer := by
  cases answer with
  | ok v => exact later.knows bears
  | error e =>
    intro r carried
    obtain ⟨stack, env, code, dump⟩ := bears r carried
    exact ⟨later.knows stack, later.knows env, later.knows code, later.knows dump⟩

def upkeep : Contract Session Session where
  le := Later
  holds w s := s = w ∧ w.InRange
  error w e := w.Bears (.error e)
  refl := .refl
  trans := .trans

theorem keeps_state {x : SessionM α} {p : Session → α → Prop}
    (ends : s.InRange → Ends x s (fun a s' => s.Later s' ∧ s'.InRange ∧ p s' a)
      fun e s' => s.Later s' ∧ s'.InRange ∧ s'.Bears (.error e)) : upkeep.Keeps s p x := by
  rintro s ⟨rfl, inRange⟩
  refine (ends inRange).mono ?_ ?_
  · rintro a s' ⟨later, inRange', value⟩
    exact ⟨s', later, ⟨rfl, inRange'⟩, value⟩
  · rintro e s' ⟨later, inRange', error⟩
    exact ⟨s', later, ⟨rfl, inRange'⟩, error⟩

theorem keeps_onHeap {p : Heap → α → Prop} {x : HeapM α}
    (keeps : (Heap.upkeep s.symbols.count).Keeps s.heap p x) :
    upkeep.Keeps s (fun s a => p s.heap a) (onHeap x) := by
  refine keeps_state fun inRange => ?_
  obtain ⟨sound, tables⟩ := inRange_iff.mp inRange
  have ends := keeps _ ⟨rfl, sound⟩
  obtain ⟨h, symbols, g, log⟩ := s
  unfold onHeap Ends at *
  dsimp only at ends ⊢
  generalize x h = result at ends ⊢
  have inRange' {h' : Heap} (changes : Changes symbols.count h h')
      (sound' : h'.Sound symbols.count) : (⟨h', symbols, g, log⟩ : Session).InRange :=
    inRange_iff.mpr ⟨sound', tables.mono changes.size_le (Nat.le_refl _)⟩
  cases result with
  | ok a h' =>
    obtain ⟨_, changes, ⟨rfl, sound'⟩, value⟩ := ends
    exact ⟨⟨.refl symbols, changes, rfl⟩, inRange' changes sound', value⟩
  | error e h' =>
    obtain ⟨_, changes, ⟨rfl, sound'⟩, error⟩ := ends
    exact ⟨⟨.refl symbols, changes, rfl⟩, inRange' changes sound', bears_error.mpr error⟩

theorem keeps_onReader {p : Reading → α → Prop} {q : Session → α × Source → Prop} {x : ReadM α}
    {source : Source} (keeps : Reading.upkeep.Keeps ⟨source, s.heap, s.symbols⟩ p x)
    (value : ∀ source h symbols log g a, p ⟨source, h, symbols⟩ a →
      q ⟨h, symbols, g, log⟩ (a, source)) :
    upkeep.Keeps s q (onReader x source) := by
  refine keeps_state fun inRange => ?_
  obtain ⟨sound, tables⟩ := inRange_iff.mp inRange
  have ends := keeps _ ⟨rfl, sound⟩
  obtain ⟨h, symbols, g, log⟩ := s
  unfold onReader Ends at *
  dsimp only at ends ⊢
  generalize x ⟨source, h, symbols⟩ = result at ends ⊢
  have inRange' {h' : Heap} {symbols' : SymbolTable} (more : symbols.Within symbols')
      (changes : Changes symbols'.count h h') (sound' : h'.Sound symbols'.count) :
      (⟨h', symbols', g, log⟩ : Session).InRange :=
    inRange_iff.mpr ⟨sound', tables.mono changes.size_le more.count_le⟩
  cases result with
  | ok a r =>
    obtain ⟨_, ⟨more, changes⟩, ⟨rfl, sound'⟩, known⟩ := ends
    exact ⟨⟨more, changes, rfl⟩, inRange' more changes sound', value _ _ _ _ _ _ known⟩
  | error e r =>
    obtain ⟨_, ⟨more, changes⟩, ⟨rfl, sound'⟩, error⟩ := ends
    exact ⟨⟨more, changes, rfl⟩, inRange' more changes sound', bears_error.mpr error⟩

theorem keeps_cons {car cdr : Value} (knownCar : s.Knows car) (knownCdr : s.Knows cdr) :
    upkeep.Keeps s Knows (onHeap (Heap.cons car cdr)) :=
  (keeps_onHeap (Heap.keeps_cons (knows_iff.mp knownCar) (knows_iff.mp knownCdr))).mono
    fun _ _ later known => knows_iff.mpr (known.mono (Nat.le_refl _) later.symbols.count_le)

theorem keeps_report (e : Event) : upkeep.Keeps s (fun _ _ => True) (report e) :=
  keeps_state fun inRange => ⟨⟨.refl _, .refl, rfl⟩,
    ⟨inRange.cells, inRange.env, inRange.functions, inRange.macros⟩, trivial⟩

theorem keeps_capture : upkeep.Keeps s (fun _ _ => True) capture :=
  keeps_state fun inRange => ⟨⟨.refl _, .refl, rfl⟩,
    ⟨inRange.cells, inRange.env, inRange.functions, inRange.macros⟩, trivial⟩

theorem inRange_intern {h : Heap} {symbols : SymbolTable} {g : Globals} {log : Log}
    (inRange : (⟨h, symbols, g, log⟩ : Session).InRange) (name : String) :
    (⟨h, (symbols.intern name).2, g, log⟩ : Session).InRange := by
  obtain ⟨sound, tables⟩ := inRange_iff.mp inRange
  have more := (symbols.within_intern name).count_le
  exact inRange_iff.mpr ⟨Reading.sound_intern sound name, tables.mono (Nat.le_refl _) more⟩

theorem keeps_intern (name : String) :
    upkeep.Keeps s (fun s i => i < s.symbols.count) (intern name) := by
  refine keeps_state fun inRange => ?_
  obtain ⟨h, symbols, g, log⟩ := s
  exact ⟨⟨symbols.within_intern name, .refl, rfl⟩, inRange_intern inRange name,
    symbols.intern_lt_count name⟩

theorem keeps_defineFunction (name : String) :
    upkeep.Keeps s (fun _ _ => True) (defineFunction name) := by
  refine (keeps_intern name).bind fun s₁ symbol _ lt => keeps_state fun inRange => ?_
  obtain ⟨sound, tables⟩ := inRange_iff.mp inRange
  exact ⟨⟨.refl _, .refl, rfl⟩, inRange_iff.mpr ⟨sound, tables.defineAt .functions lt⟩, trivial⟩

theorem keeps_defineMacro (name : String) :
    upkeep.Keeps s (fun _ _ => True) (defineMacro name) := by
  refine (keeps_intern name).bind fun s₁ symbol _ lt => keeps_state fun inRange => ?_
  obtain ⟨sound, tables⟩ := inRange_iff.mp inRange
  exact ⟨⟨.refl _, .refl, rfl⟩, inRange_iff.mpr ⟨sound, tables.defineAt .macros lt⟩, trivial⟩

theorem keeps_read (text : String) : upkeep.Keeps s Knows (read text) := by
  have keeps : upkeep.Keeps s (fun s p => s.Knows p.1) (onReader Reading.form (.ofString text)) :=
    keeps_onReader Reading.keeps_form fun _ _ _ _ _ _ known => knows_iff.mpr known
  exact keeps.bind fun _ _ _ known => keeps_pure known

theorem keeps_readNext (source : Source) :
    upkeep.Keeps s (fun s p => ∀ v, p.1 = some v → s.Knows v) (readNext source) :=
  keeps_onReader Reading.keeps_form? fun _ _ _ _ _ _ known v found => knows_iff.mpr (known v found)

theorem keeps_compile (steps : Nat) (known : s.Knows v) :
    upkeep.Keeps s Knows (compile steps v) := by
  refine keeps_state fun inRange => ?_
  obtain ⟨sound, tables⟩ := inRange_iff.mp inRange
  obtain ⟨h, symbols, g, log⟩ := s
  have expr : (⟨h, g, log⟩ : Compile.State Log).Knows symbols.count v := knows_iff.mp known
  have ends := Compile.keeps_toplevel (Compile.tracks_true _ Log.recorder) steps expr
    (Reading.wellKnown_le_count symbols) _ ⟨rfl, sound, tables, trivial⟩
  unfold compile Ends at *
  dsimp only at ends ⊢
  generalize Compile.toplevel Log.recorder symbols steps v ⟨h, g, log⟩ = result at ends ⊢
  cases result with
  | ok c state =>
    obtain ⟨_, ⟨changes, env⟩, ⟨rfl, sound', tables', _⟩, value⟩ := ends
    exact ⟨⟨.refl symbols, changes, env⟩, inRange_iff.mpr ⟨sound', tables'⟩, knows_iff.mpr value⟩
  | error e state =>
    obtain ⟨_, ⟨changes, env⟩, ⟨rfl, sound', tables', _⟩, error⟩ := ends
    exact ⟨⟨.refl symbols, changes, env⟩, inRange_iff.mpr ⟨sound', tables'⟩, bears_error.mpr error⟩

theorem keeps_run (steps : Nat) (code : s.Knows v) : upkeep.Keeps s Knows (run steps v) := by
  refine keeps_state fun inRange => ?_
  obtain ⟨sound, tables⟩ := inRange_iff.mp inRange
  obtain ⟨h, symbols, g, log⟩ := s
  have ends := Machine.keeps_run symbols steps tables.env (knows_iff.mp code) _ ⟨rfl, sound⟩
  unfold run Ends at *
  dsimp only at ends ⊢
  generalize Machine.run symbols steps g.env v h = result at ends ⊢
  have inRange' {h' : Heap} {log : Log} (changes : Changes symbols.count h h')
      (sound' : h'.Sound symbols.count) : (⟨h', symbols, g, log⟩ : Session).InRange :=
    inRange_iff.mpr ⟨sound', tables.mono changes.size_le (Nat.le_refl _)⟩
  cases result with
  | ok a h' =>
    obtain ⟨_, changes, ⟨rfl, sound'⟩, value⟩ := ends
    exact ⟨⟨.refl symbols, changes, rfl⟩, inRange' changes sound', knows_iff.mpr value⟩
  | error e h' =>
    obtain ⟨_, changes, ⟨rfl, sound'⟩, error⟩ := ends
    exact ⟨⟨.refl symbols, changes, rfl⟩, inRange' changes sound', bears_error.mpr error⟩

theorem keeps_eval (steps : Nat) (known : s.Knows v) : upkeep.Keeps s Knows (eval steps v) := by
  refine (keeps_compile steps known).bind fun s₁ code _ known => ?_
  refine (keeps_run steps known).bind fun s₂ result _ known => ?_
  refine (keeps_onHeap (p := fun _ _ => True) (Heap.keeps_read fun _ => trivial)).bind
    fun s₃ cells later₃ _ => ?_
  refine (keeps_report _).bind fun s₄ _ later₄ _ => ?_
  exact keeps_pure (later₄.knows (later₃.knows known))

theorem keeps_evalNext (steps : Nat) (source : Source) (last : s.Knows v)
    (more : Source → Value → SessionM Value)
    (keeps : ∀ t rest u, t.Knows u → upkeep.Keeps t Knows (more rest u)) :
    upkeep.Keeps s Knows (do
      match ← readNext source with
      | (none, _) => return v
      | (some expr, rest) => more rest (← eval steps expr)) := by
  refine (keeps_readNext source).bind fun s₁ p later known => ?_
  obtain ⟨form, rest⟩ := p
  cases form with
  | none => exact keeps_pure (later.knows last)
  | some expr =>
    exact (keeps_eval steps (known expr rfl)).bind fun t u _ known => keeps t rest u known

theorem keeps_evalFrom (steps : Nat) (bound : List Char) (source : Source) (last : s.Knows v) :
    upkeep.Keeps s Knows (evalFrom steps bound source v) := by
  induction bound generalizing s source v with
  | nil =>
    unfold evalFrom
    exact keeps_evalNext steps source last (fun _ u => pure u) fun _ _ _ known => keeps_pure known
  | cons c bound ih =>
    unfold evalFrom
    exact keeps_evalNext steps source last (evalFrom steps bound) fun _ rest _ => ih rest

theorem left_of_keeps {x : SessionM α} {p : Session → α → Prop}
    (keeps : upkeep.Keeps s p x) (inRange : s.InRange) :
    (left x s).InRange ∧ (left x s).globals.env = s.globals.env := by
  have ends : Ends x s (fun _ t => t.InRange ∧ t.globals.env = s.globals.env)
      fun _ t => t.InRange ∧ t.globals.env = s.globals.env := by
    refine (keeps s ⟨rfl, inRange⟩).mono ?_ ?_
    · rintro a t ⟨_, later, ⟨rfl, inRange⟩, _⟩
      exact ⟨inRange, later.env⟩
    · rintro e t ⟨_, later, ⟨rfl, inRange⟩, _⟩
      exact ⟨inRange, later.env⟩
  exact ends.left

/-- A session that operations may leave behind, with answers that lead nowhere else. -/
structure Leaves (s : Session) (p : Session × Answers) : Prop where
  later : s.Later p.1
  inRange : p.1.InRange
  bears : ∀ answer ∈ p.2, p.1.Bears answer

def collect (_ : Session) (r : Except Error Value) : StateM (Array (Except Error Value)) Unit :=
  modify (·.push r)

def collected (x : StateM (Array (Except Error Value)) Session)
    (before : Array (Except Error Value)) : Session × Answers :=
  ((x.run before).1, (x.run before).2.toList)

theorem bears_push {t : Session} {before : Array (Except Error Value)} {r : Except Error Value}
    (bears : ∀ answer ∈ before.toList, s.Bears answer) (later : s.Later t) (last : t.Bears r) :
    ∀ answer ∈ (before.push r).toList, t.Bears answer := by
  intro answer mem
  rw [Array.toList_push, List.mem_append, List.mem_singleton] at mem
  rcases mem with mem | rfl
  · exact later.bears (bears answer mem)
  · exact last

theorem leaves_evalOne (steps : Nat) (known : s.Knows v) (inRange : s.InRange)
    {before : Array (Except Error Value)} (bears : ∀ answer ∈ before.toList, s.Bears answer) :
    s.Leaves (collected (evalOne steps (fun _ _ => pure ()) collect v s) before) := by
  have compiled := keeps_compile steps known s ⟨rfl, inRange⟩
  unfold Ends at compiled
  unfold evalOne
  cases first : compile steps v s with
  | error e s₁ =>
    rw [first] at compiled
    obtain ⟨_, later, ⟨rfl, inRange₁⟩, error⟩ := compiled
    exact ⟨later, inRange₁, bears_push bears later error⟩
  | ok code s₁ =>
    rw [first] at compiled
    obtain ⟨_, later, ⟨rfl, inRange₁⟩, knownCode⟩ := compiled
    have ran := keeps_run steps knownCode s₁ ⟨rfl, inRange₁⟩
    unfold Ends at ran
    dsimp only
    cases second : run steps code s₁ with
    | error e s₂ =>
      rw [second] at ran
      obtain ⟨_, later₂, ⟨rfl, inRange₂⟩, error⟩ := ran
      exact ⟨later.trans later₂, inRange₂, bears_push bears (later.trans later₂) error⟩
    | ok u s₂ =>
      rw [second] at ran
      obtain ⟨_, later₂, ⟨rfl, inRange₂⟩, value⟩ := ran
      exact ⟨later.trans later₂, inRange₂, bears_push bears (later.trans later₂) value⟩

theorem leaves_streamNext (source : Source) (inRange : s.InRange)
    {before : Array (Except Error Value)} (bears : ∀ answer ∈ before.toList, s.Bears answer)
    (more : Source → Value → Session → StateM (Array (Except Error Value)) Session)
    (leaves : ∀ rest v t, s.Later t → t.Knows v → t.InRange →
      t.Leaves (collected (more rest v t) before)) :
    s.Leaves (collected (match readNext source s with
      | .error e s => do
        collect s (.error e)
        return s
      | .ok (none, _) s => return s
      | .ok (some v, rest) s => more rest v s) before) := by
  have read := keeps_readNext source s ⟨rfl, inRange⟩
  unfold Ends at read
  cases found : readNext source s with
  | error e t =>
    rw [found] at read
    obtain ⟨_, later, ⟨rfl, inRange⟩, error⟩ := read
    exact ⟨later, inRange, bears_push bears later error⟩
  | ok p t =>
    rw [found] at read
    obtain ⟨_, later, ⟨rfl, inRange⟩, known⟩ := read
    obtain ⟨form, rest⟩ := p
    cases form with
    | none => exact ⟨later, inRange, fun answer mem => later.bears (bears answer mem)⟩
    | some v =>
      have left := leaves rest v t later (known v rfl) inRange
      exact ⟨later.trans left.later, left.inRange, left.bears⟩

theorem leaves_evalStreamFrom (steps : Nat) (bound : List Char) (source : Source)
    (inRange : s.InRange) {before : Array (Except Error Value)}
    (bears : ∀ answer ∈ before.toList, s.Bears answer) :
    s.Leaves (collected
      (evalStreamFrom steps (fun _ _ => pure ()) collect bound source s) before) := by
  induction bound generalizing s source before with
  | nil =>
    unfold evalStreamFrom
    refine leaves_streamNext source inRange bears
      (fun _ v t => evalOne steps (fun _ _ => pure ()) collect v t) ?_
    exact fun rest v t later known inRange =>
      leaves_evalOne steps known inRange fun answer mem => later.bears (bears answer mem)
  | cons c bound ih =>
    unfold evalStreamFrom
    refine leaves_streamNext source inRange bears (fun rest v t => do
      evalStreamFrom steps (fun _ _ => pure ()) collect bound rest
        (← evalOne steps (fun _ _ => pure ()) collect v t)) ?_
    intro rest v t later known inRange
    have one : t.Leaves (collected (evalOne steps (fun _ _ => pure ()) collect v t) before) :=
      leaves_evalOne steps known inRange fun answer mem => later.bears (bears answer mem)
    have left := ih rest one.inRange one.bears
    exact ⟨one.later.trans left.later, left.inRange, left.bears⟩

theorem leaves_evalEach (steps : Nat) (text : String) (inRange : s.InRange) :
    s.Leaves (perform (.evalEach steps text) s) :=
  have none : ∀ answer ∈ (#[] : Array (Except Error Value)).toList, s.Bears answer := by simp
  leaves_evalStreamFrom steps text.toList (.ofString text) inRange none

theorem leaves_of_keeps {x : SessionM α} {p : Session → α → Prop} {values : α → List Value}
    (keeps : upkeep.Keeps s p x) (known : ∀ t a, p t a → ∀ v ∈ values a, t.Knows v)
    (inRange : s.InRange) : s.Leaves (answered values x s) := by
  have ends := keeps s ⟨rfl, inRange⟩
  unfold Ends at ends
  unfold answered
  split at ends
  next a t run =>
    obtain ⟨_, later, ⟨rfl, inRange⟩, value⟩ := ends
    rw [run]
    refine ⟨later, inRange, ?_⟩
    rintro answer mem
    obtain ⟨v, here, rfl⟩ := List.mem_map.mp mem
    exact known _ _ value v here
  next e t run =>
    obtain ⟨_, later, ⟨rfl, inRange⟩, error⟩ := ends
    rw [run]
    refine ⟨later, inRange, ?_⟩
    rintro answer mem
    rwa [List.mem_singleton.mp mem]

/-- An operation that does not restore leaves a session that came of the old one by changes. -/
theorem leaves_perform {images : Image → Prop} {op : Operation}
    (native : ∀ image, op ≠ .restore image) (permitted : op.Permitted images s)
    (inRange : s.InRange) : s.Leaves (perform op s) := by
  have one (t : Session) (v : Value) (known : t.Knows v) : ∀ w ∈ [v], t.Knows w := by
    simpa using known
  have none (t : Session) : ∀ w ∈ ([] : List Value), t.Knows w := nofun
  cases op with
  | intern name =>
    exact leaves_of_keeps (keeps_intern name) (fun t i lt => one t (.ident i) lt) inRange
  | cons car cdr => exact leaves_of_keeps (keeps_cons permitted.1 permitted.2) one inRange
  | store env depth index v =>
    have keeps := (Machine.takes_upkeep s.symbols.count).keeps_storeAt depth index
      (knows_iff.mp permitted.1) (knows_iff.mp permitted.2)
    exact leaves_of_keeps (keeps_onHeap keeps) (fun t _ _ => none t) inRange
  | read text => exact leaves_of_keeps (keeps_read text) one inRange
  | compile steps expr => exact leaves_of_keeps (keeps_compile steps permitted) one inRange
  | run steps code => exact leaves_of_keeps (keeps_run steps permitted) one inRange
  | eval steps expr => exact leaves_of_keeps (keeps_eval steps permitted) one inRange
  | evalText steps text =>
    exact leaves_of_keeps (keeps_evalFrom steps _ _ (show s.Knows .nil from trivial)) one inRange
  | evalEach steps text => exact leaves_evalEach steps text inRange
  | defineFunction name =>
    exact leaves_of_keeps (keeps_defineFunction name) (fun t _ _ => none t) inRange
  | defineMacro name =>
    exact leaves_of_keeps (keeps_defineMacro name) (fun t _ _ => none t) inRange
  | capture => exact leaves_of_keeps keeps_capture (fun t _ _ => none t) inRange
  | restore image => exact (native image rfl).elim

end Session

end SecdLisp
