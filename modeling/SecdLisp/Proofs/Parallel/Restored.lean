import SecdLisp.Proofs.Parallel.Sessions
import SecdLisp.Proofs.Restore

/-!
# A restored session

A session that evaluations lead to is in range, since it is parallel to itself. So its image, in
whatever session it is installed, makes one that cannot be told apart from it.
-/

namespace SecdLisp

namespace Parallel

open World Session

variable {w w' : World} {s t s' : Session} {v v' : Value} {i j : Symbol}

/-- A session side by side with itself. -/
def World.diagonal (s : Session) : World :=
  ⟨fun a b => a = b ∧ a < s.heap.size, s.symbols, s.symbols, True⟩

theorem diagonal_values (knows : s.Knows v) : (diagonal s).Values v v := by
  cases v with
  | nil => exact .nil
  | truth => exact .truth
  | int n => exact .int n
  | ident name => exact .ident ⟨knows, knows, rfl⟩
  | op o => exact .op o
  | pair a => exact .pair ⟨rfl, knows⟩

theorem diagonal_names {names : List Symbol} (known : ∀ i ∈ names, i < s.symbols.count) :
    List.Forall₂ (diagonal s).Names names names := by
  rw [List.forall₂_same]
  intro i mem
  exact ⟨known i mem, known i mem, rfl⟩

theorem onSessions_diagonal (inRange : s.InRange) : OnSessions (diagonal s) s s where
  heaps := by
    refine ⟨rfl, rfl, ?_, ?_, ?_, ?_, ?_, ?_⟩
    · rintro a b ⟨rfl, lt⟩
      exact ⟨lt, lt⟩
    · rintro a a' b ⟨rfl, _⟩ ⟨rfl, _⟩
      rfl
    · rintro a b b' ⟨rfl, _⟩ ⟨rfl, _⟩
      rfl
    · rintro a b ⟨rfl, _⟩
      exact diagonal_values (inRange.cells a).1
    · rintro a b ⟨rfl, _⟩
      exact diagonal_values (inRange.cells a).2
    · intro _
      exact ⟨rfl, rfl, fun _ _ => Iff.rfl⟩
  globals := ⟨diagonal_values inRange.env, diagonal_names inRange.functions,
    diagonal_names inRange.macros⟩

theorem OnSessions.knows (states : OnSessions w s t) (values : w.Values v v') : s.Knows v := by
  cases values with
  | ident names =>
    have left := names.left
    rwa [states.heaps.left] at left
  | pair cells => exact (states.heaps.heaps.owned _ _ cells).1
  | _ => trivial

theorem OnSessions.known (states : OnSessions w s t) {names names' : List Symbol}
    (all : List.Forall₂ w.Names names names') : ∀ i ∈ names, i < s.symbols.count := by
  induction all with
  | nil => simp
  | cons first _ ih =>
    have left := first.left
    rw [states.heaps.left] at left
    exact List.forall_mem_cons.mpr ⟨left, ih⟩

theorem OnSessions.inRange (states : OnSessions w s t) (exact : w.exact) : s.InRange where
  cells := by
    intro a
    have heaps := states.heaps.heaps
    obtain ⟨_, _, same⟩ := heaps.exact exact
    by_cases lt : a < s.heap.size
    · have cells := (same a a).mpr ⟨rfl, lt⟩
      exact ⟨states.knows (heaps.cars a a cells), states.knows (heaps.cdrs a a cells)⟩
    · rw [Heap.car, Heap.cdr, Heap.cell_of_le (Nat.le_of_not_lt lt)]
      exact ⟨trivial, trivial⟩
  env := states.knows states.globals.env
  functions := states.known states.globals.functions
  macros := states.known states.globals.macros

/-- Work that is parallel to itself leads from sessions in range to sessions in range. -/
theorem Sim.inRange {α : Type} {Q : World → α → α → Prop} {x : SessionM α}
    (sim : Sim OnSessions (diagonal s) Q x x) (inRange : s.InRange) :
    Ends x s (fun _ s => s.InRange) fun _ s => s.InRange := by
  have agree := sim s s (onSessions_diagonal inRange)
  unfold Ends
  generalize x s = r at agree ⊢
  cases r with
  | ok a s' =>
    cases agree with
    | ok le states _ => exact states.inRange (le.exact.mpr trivial)
  | error e s' =>
    cases agree with
    | error le states _ => exact states.inRange (le.exact.mpr trivial)
    | leftFull loose => exact (loose trivial).elim
    | rightFull loose => exact (loose trivial).elim

def World.empty : World := ⟨fun _ _ => False, .initial, .initial, True⟩

theorem heaps_empty (cells : Nat) : World.empty.Heaps (.ofCapacity cells) (.ofCapacity cells) where
  owned a b cells := cells.elim
  injective a a' b cells := cells.elim
  functional a b b' cells := cells.elim
  cars a b cells := cells.elim
  cdrs a b cells := cells.elim
  exact _ := by
    refine ⟨rfl, rfl, ?_⟩
    intro a b
    constructor
    · exact False.elim
    · rintro ⟨_, lt⟩
      exact Nat.not_lt_zero _ lt

theorem inRange_of_create {cells : Nat} {level : LogLevel} (new : create cells level = .ok s) :
    s.InRange := by
  have frames : Sim (OnHeaps .initial .initial) World.empty World.Values
      (Heap.list [.nil, .nil]) (Heap.list [.nil, .nil]) :=
    sim_list (.cons .nil (.cons .nil .nil))
  have made : Sim (OnHeaps .initial .initial) World.empty (fun w g g' => w.Tables g g')
      Globals.create Globals.create := by
    apply frames.bind
    intro w' v v' le values
    exact .pure ⟨values, .nil, .nil⟩
  have agree := made _ _ ⟨rfl, rfl, heaps_empty cells⟩
  unfold create at new
  generalize Globals.create (.ofCapacity cells) = r at agree new
  cases r with
  | ok g h =>
    cases new
    cases agree with
    | @ok w _ _ _ _ le heaps tables =>
      let s : Session := ⟨h, .initial, g, .empty level⟩
      have states : OnSessions w s s := ⟨heaps, tables⟩
      exact states.inRange (le.exact.mpr trivial)
  | error e h => cases new

theorem inRange_of_watch (inRange : s.InRange) (steps : Nat) (text : String) :
    (watch steps text s).1.InRange := by
  have abreast := watch_abreast steps text (onSessions_diagonal inRange)
  generalize watch steps text s = p at abreast ⊢
  cases abreast with
  | same _ le states => exact states.inRange (le.exact.mpr trivial)
  | parted loose => exact (loose trivial).elim

theorem inRange_of_reached (reached : Reached s) : s.InRange := by
  have evaluates (s : Session) (inRange : s.InRange) (steps : Nat) (text : String) :
      Ends (evalText steps text) s (fun _ s => s.InRange) fun _ s => s.InRange :=
    Sim.inRange (sim_evalFrom steps text.toList (.ofString text) .nil) inRange
  induction reached with
  | created new => exact inRange_of_create new
  | watched _ steps text ih => exact inRange_of_watch ih steps text
  | evaluated _ run ih => exact (evaluates _ ih _ _).of_eq_ok run
  | failed _ run ih => exact (evaluates _ ih _ _).of_eq_error run

def World.mirror (s t : Session) (f : Addr → Addr) : World :=
  ⟨fun a b => s.heap.Reachable s.globals.env a ∧ b = f a, s.symbols, t.symbols, False⟩

variable {f : Addr → Addr}

theorem mirror_values (knows : s.Knows v)
    (reached : ∀ a, v = .pair a → s.heap.Reachable s.globals.env a) (alike : Alike s t f v v') :
    (mirror s t f).Values v v' := by
  cases v with
  | nil =>
    cases alike
    exact .nil
  | truth =>
    cases alike
    exact .truth
  | int n =>
    cases alike
    exact .int n
  | op o =>
    cases alike
    exact .op o
  | ident name =>
    obtain ⟨j, rfl, known, same⟩ := alike
    exact .ident ⟨knows, known, same.symm⟩
  | pair a =>
    cases alike
    exact .pair ⟨reached a rfl, rfl⟩

theorem mirror_names {names names' : List Symbol} (known : ∀ i ∈ names, i < s.symbols.count)
    (known' : ∀ j ∈ names', j < t.symbols.count)
    (same : names'.map t.symbols.name = names.map s.symbols.name) :
    List.Forall₂ (mirror s t f).Names names names' := by
  induction names generalizing names' with
  | nil =>
    rw [List.map_nil, List.map_eq_nil_iff] at same
    subst same
    exact .nil
  | cons i names ih =>
    cases names' with
    | nil => cases same
    | cons j names' =>
      rw [List.map_cons, List.map_cons, List.cons.injEq] at same
      rw [List.forall_mem_cons] at known known'
      exact .cons ⟨known.1, known'.1, same.1.symm⟩ (ih known.2 known'.2 same.2)

theorem onSessions_mirror (inRange : s.InRange) (mirrors : Mirrors s t f) :
    OnSessions (mirror s t f) s t where
  heaps := by
    refine ⟨rfl, rfl, ?_, ?_, ?_, ?_, ?_, False.elim⟩
    · rintro a b ⟨reached, rfl⟩
      exact ⟨reached.owned inRange.closed inRange.env.owns, mirrors.owned a reached⟩
    · rintro a a' b ⟨first, rfl⟩ ⟨second, same⟩
      exact mirrors.injective first second same
    · rintro a b b' ⟨_, rfl⟩ ⟨_, rfl⟩
      rfl
    · rintro a b ⟨reached, rfl⟩
      exact mirror_values (inRange.cells a).1 (fun _ link => reached.car link)
        (mirrors.cells a reached).1
    · rintro a b ⟨reached, rfl⟩
      exact mirror_values (inRange.cells a).2 (fun _ link => reached.cdr link)
        (mirrors.cells a reached).2
  globals := by
    refine ⟨mirror_values inRange.env (fun _ link => .root link) mirrors.root, ?_, ?_⟩
    · exact mirror_names inRange.functions mirrors.knownFunctions mirrors.functions
    · exact mirror_names inRange.macros mirrors.knownMacros mirrors.macros

theorem defineFunction_slot (name : String) (s : Session) : ∃ s', defineFunction name s =
    .ok (Globals.defineIn s.globals.functions (s.symbols.intern name).1).1 s' := ⟨_, rfl⟩

theorem defineMacro_slot (name : String) (s : Session) : ∃ s', defineMacro name s =
    .ok (Globals.defineIn s.globals.macros (s.symbols.intern name).1).1 s' := ⟨_, rfl⟩

theorem OnSessions.slots (states : OnSessions w s t) (name : String) :
    (∃ slot s' t', defineFunction name s = .ok slot s' ∧ defineFunction name t = .ok slot t') ∧
      ∃ slot s' t', defineMacro name s = .ok slot s' ∧ defineMacro name t = .ok slot t' := by
  have names := names_intern w name
  rw [states.heaps.left, states.heaps.right] at names
  have tables := states.globals.mono (within_name w name)
  constructor
  · obtain ⟨s', left⟩ := defineFunction_slot name s
    obtain ⟨t', right⟩ := defineFunction_slot name t
    rw [← (defineIn_rel tables.functions names).1] at right
    exact ⟨_, s', t', left, right⟩
  · obtain ⟨s', left⟩ := defineMacro_slot name s
    obtain ⟨t', right⟩ := defineMacro_slot name t
    rw [← (defineIn_rel tables.macros names).1] at right
    exact ⟨_, s', t', left, right⟩

end Parallel

namespace Session

open Parallel

/-- What is restored is what was saved: no text tells the session with the image from the one it
was taken of, each slot of either global frame belongs to the same name in both, and a new name
takes the same slot in both. -/
theorem restored_indistinguishable {s s₁ t t' : Session} {image : Image} (reached : Reached s)
    (words : s.symbols.count ≤ UInt32.size) (captured : capture s = .ok image s₁)
    (restored : restore image t = .ok () t') :
    Indistinguishable s₁ t' ∧
    t'.globals.functions.map t'.symbols.name = s₁.globals.functions.map s₁.symbols.name ∧
    t'.globals.macros.map t'.symbols.name = s₁.globals.macros.map s₁.symbols.name ∧
    ∀ name : String,
      (∃ slot s₂ t₂, defineFunction name s₁ = .ok slot s₂ ∧
        defineFunction name t' = .ok slot t₂) ∧
      ∃ slot s₂ t₂, defineMacro name s₁ = .ok slot s₂ ∧ defineMacro name t' = .ok slot t₂ := by
  cases captured
  have inRange := inRange_of_reached reached
  obtain ⟨f, mirrors⟩ := mirrors_of_restore inRange words restored
  have states := onSessions_mirror inRange mirrors
  have logged (log : Log) : OnSessions (World.mirror s t' f) { s with log } t' :=
    ⟨states.heaps, states.globals⟩
  exact ⟨(logged _).indistinguishable, mirrors.functions, mirrors.macros, (logged _).slots⟩

theorem exists_capture (s : Session) : ∃ s₁, capture s = .ok s.image s₁ ∧
    s₁.symbols = s.symbols ∧ s₁.globals = s.globals := ⟨_, rfl, rfl, rfl⟩

def roomy : Session :=
  ⟨⟨fresh.heap.cells, 256, by decide, by decide⟩, .initial, fresh.globals, .empty .quiet⟩

/-- A session with a macro, with a closure that reads a global name, and with what calling both came
to. -/
def stocked : Session :=
  (watch 60 "(defm m (x) x) (set n 40) (set f (fn (x) (+ x n))) (set g (m (f 2)))" roomy).1

/-- A session where another name has the first slot. -/
def settled : Session := (watch 60 "(set g 7)" roomy).1

theorem stocked_restored : ∃ s₁ t', capture stocked = .ok stocked.image s₁ ∧
    restore stocked.image settled = .ok () t' ∧ Indistinguishable s₁ t' ∧
    t'.globals.functions.map t'.symbols.name = ["n", "f", "g"] ∧
    t'.globals.macros.map t'.symbols.name = ["m"] := by
  have created : create 256 .quiet = .ok roomy := rfl
  have reached : Reached stocked := .watched (.created created) 60 _
  obtain ⟨few, valid, room, values, expanding⟩ : stocked.symbols.count ≤ UInt32.size ∧
      stocked.image.validate = .ok () ∧
      settled.heap.size + stocked.image.cells.size ≤ settled.heap.capacity ∧
      stocked.globals.functions.map stocked.symbols.name = ["n", "f", "g"] ∧
      stocked.globals.macros.map stocked.symbols.name = ["m"] := by decide +kernel
  obtain ⟨s₁, captured, symbols, globals⟩ := exists_capture stocked
  obtain ⟨t', _, restored, _⟩ := restore_spec valid room
  obtain ⟨same, functions, macros, _⟩ := restored_indistinguishable reached few captured restored
  rw [symbols, globals] at functions macros
  exact ⟨s₁, t', captured, restored, same, functions.trans values, macros.trans expanding⟩

end Session

end SecdLisp
