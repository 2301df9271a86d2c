import SecdLisp.Proofs.Compiling
import SecdLisp.Proofs.Graph

/-!
# What compiling adds, and what it takes back

Between the runs of macros, compiling only adds cells to the heap. It adds names to the ends of the
tables; so when a form does not compile, cutting the tables to the lengths that they had takes back
the names of the form and no others.
-/

namespace SecdLisp

namespace Globals

/-- Both tables have only been added to at their ends. -/
structure Extends (g g' : Globals) : Prop where
  functions : g.functions <+: g'.functions
  macros : g.macros <+: g'.macros

theorem Extends.refl (g : Globals) : g.Extends g := ⟨List.prefix_rfl, List.prefix_rfl⟩

theorem Extends.trans {g₁ g₂ g₃ : Globals} (first : g₁.Extends g₂) (second : g₂.Extends g₃) :
    g₁.Extends g₃ :=
  ⟨first.functions.trans second.functions, first.macros.trans second.macros⟩

theorem extends_defineAt (g : Globals) (table : Table) (name : Symbol) :
    g.Extends (g.defineAt table name).2 := by
  cases table with
  | functions => exact ⟨le_defineIn g.functions name, List.prefix_rfl⟩
  | macros => exact ⟨List.prefix_rfl, le_defineIn g.macros name⟩

theorem Extends.truncate {g g' : Globals} (h : g.Extends g') :
    g'.truncate g.functions.length g.macros.length = ⟨g'.env, g.functions, g.macros⟩ := by
  rw [Globals.truncate, ← List.prefix_iff_eq_take.mp h.functions,
    ← List.prefix_iff_eq_take.mp h.macros]

end Globals

namespace Heap

variable {α β : Type}

/-- Work that changes no cell, whether it succeeds or not. -/
def Growing (x : HeapM α) : Prop := ∀ h : Heap, h.Grows (left x h)

theorem growing_pure (a : α) : Growing (pure a) := Grows.refl

theorem Growing.bind {x : HeapM α} {f : α → HeapM β} (first : Growing x) (next : ∀ a, Growing (f a)) :
    Growing (x >>= f) := by
  intro h
  have grows := first h
  rw [left_bind]
  cases run : x h with
  | ok a h' => exact (left_of_eq_ok run ▸ grows).trans (next a h')
  | error e h' => exact left_of_eq_error run ▸ grows

theorem growing_cons (car cdr : Value) : Growing (cons car cdr) := by
  refine Growing.bind (fun h => ?_) fun a => growing_pure _
  unfold left
  rw [alloc_eq]
  split
  next run =>
    split at run
    · cases run
      exact grows_grown ..
    · cases run
  next run =>
    split at run
    · cases run
    · cases run
      exact .refl h

theorem growing_listWithTail (vs : List Value) (tail : Value) : Growing (listWithTail vs tail) := by
  induction vs with
  | nil => exact growing_pure tail
  | cons v vs ih =>
    rw [listWithTail, List.foldrM_cons]
    exact ih.bind (growing_cons v)

theorem growing_list (vs : List Value) : Growing (list vs) := growing_listWithTail vs .nil

end Heap

namespace Compile

open Contract

variable {ω : Type}

/-- A property of heaps and records that stays while cells are added and events are recorded, and
that every run in the global environment keeps together with what is recorded of it. -/
structure Follows (recorder : Recorder ω) (env : Value) (I : Heap → ω → Prop) : Prop where
  adds : ∀ {h h' : Heap} {record : ω}, h.Grows h' → I h record → I h' record
  event : ∀ {h : Heap} {record : ω} (e : Event), I h record → I h (recorder.event e record)
  run : ∀ {h : Heap} {record : ω} (symbols : SymbolTable) (steps : Nat) (code : Value),
    I h record → I (left (Machine.run symbols steps env code) h)
      (recorder.run symbols steps env code h record)

theorem follows_true (recorder : Recorder ω) (env : Value) : Follows recorder env fun _ _ => True :=
  ⟨fun _ => id, fun _ => id, fun _ _ _ => id⟩

/-- Compiling adds names to the tables and keeps the global environment where it is. -/
def adding (env : Value) (I : Heap → ω → Prop) : Contract Globals (State ω) where
  le := Globals.Extends
  holds g s := s.globals = g ∧ g.env = env ∧ I s.heap s.record
  error _ _ := True
  refl := .refl
  trans := .trans

variable {recorder : Recorder ω} {env : Value} {I : Heap → ω → Prop} {g : Globals}
  {ctx : Context ω} {α : Type}

section

variable (follows : Follows recorder env I)

include follows

theorem Follows.keeps_onHeap {x : HeapM α} (growing : Heap.Growing x) :
    (adding env I).Keeps g (fun _ _ => True) (onHeap x) := by
  rintro s ⟨rfl, same, kept⟩
  rw [ends_onHeap]
  exact (Ends.of_left (growing s.heap)).mono
    (fun _ _ grows => ⟨s.globals, .refl _, ⟨rfl, same, follows.adds grows kept⟩, trivial⟩)
    fun _ _ grows => ⟨s.globals, .refl _, ⟨rfl, same, follows.adds grows kept⟩, trivial⟩

theorem Follows.keeps_address (depth index : Nat) :
    (adding env I).Keeps g (fun _ _ => True) (address depth index) :=
  follows.keeps_onHeap (Heap.growing_cons _ _)

theorem Follows.keeps_emit (words : List Value) (k : Value) :
    (adding env I).Keeps g (fun _ _ => True) (emit words k) :=
  follows.keeps_onHeap (Heap.growing_listWithTail words k)

variable (own : ctx.recorder = recorder)

include own

theorem Follows.keeps_report (e : Event) :
    (adding env I).Keeps g (fun _ _ => True) (report ctx e) := by
  rintro s ⟨rfl, same, kept⟩
  subst own
  exact ⟨s.globals, .refl _, ⟨rfl, same, follows.event e kept⟩, trivial⟩

theorem Follows.keeps_define (table : Table) (name : Symbol) :
    (adding env I).Keeps g (fun _ _ => True) (define table ctx name) := by
  rintro s ⟨rfl, same, kept⟩
  subst own
  exact ends_define.mpr ⟨_, s.globals.extends_defineAt table name,
    ⟨rfl, (s.globals.env_defineAt table name).trans same, follows.event _ kept⟩, trivial⟩

theorem Follows.keeps_runNow (code : Value) :
    (adding env I).Keeps g (fun _ _ => True) (runNow ctx code) := by
  rintro s ⟨rfl, same, kept⟩
  subst own same
  rw [ends_runNow]
  exact (Ends.of_left (follows.run ctx.symbols ctx.steps code kept)).mono
    (fun _ _ after => ⟨s.globals, .refl _, ⟨rfl, rfl, after⟩, trivial⟩)
    fun _ _ after => ⟨s.globals, .refl _, ⟨rfl, rfl, after⟩, trivial⟩

theorem Follows.keeps_callMacro (slot : Nat) (args : List Value) :
    (adding env I).Keeps g (fun _ _ => True) (callMacro ctx slot args) :=
  (follows.keeps_onHeap (Heap.growing_list args)).bind fun _ _ _ _ =>
    (follows.keeps_address _ slot).bind fun _ _ _ _ =>
      (follows.keeps_onHeap (Heap.growing_list _)).bind fun _ code _ _ =>
        follows.keeps_runNow own code

end

theorem takes_adding (follows : Follows recorder env I) :
    Takes (adding env I) recorder (fun _ _ => True) (fun _ _ _ => True) (fun _ _ _ _ => True)
      fun _ _ _ => True where
  later _ := id
  laterCode _ := id
  laterSlot _ := id
  refuse _ _ := trivial
  nil _ := trivial
  halves _ _ := ⟨trivial, trivial⟩
  event own e := follows.keeps_report own e
  slot _ _ := trivial
  own _ _ := follows.keeps_address _ _
  global _ _ := follows.keeps_address _ _
  naming table own _ _ :=
    (follows.keeps_define own table _).bind fun _ _ _ _ => follows.keeps_address _ _
  phrase _ _ := follows.keeps_emit _ _
  ending _ := follows.keeps_emit _ _
  call own _ _ := follows.keeps_callMacro own _ _
  reset {w w' s s' e} holds le holds' _ :=
    ⟨⟨w'.env, w.functions, w.macros⟩, ⟨List.prefix_rfl, List.prefix_rfl⟩,
      ⟨by rw [holds.1, holds'.1], holds'.2⟩, trivial⟩

theorem Takes.Fine.outermost (symbols : SymbolTable) (steps : Nat) (recorder : Recorder ω) :
    Takes.Fine recorder maxNesting (⟨symbols, steps, recorder, [], 0⟩ : Context ω) :=
  ⟨rfl, (by decide : 0 + maxNesting + 2 < 2 ^ 63), by simp⟩

/-- Compiling a form adds names to the ends of the tables, whether it succeeds or not. -/
theorem ends_program (symbols : SymbolTable) (steps : Nat) (expr : Value) {s : State ω}
    (follows : Follows recorder s.globals.env I) (kept : I s.heap s.record) :
    let adds (s' : State ω) : Prop :=
      s.globals.Extends s'.globals ∧ s'.globals.env = s.globals.env ∧ I s'.heap s'.record
    Ends (program recorder symbols steps expr) s (fun _ => adds) fun _ => adds := by
  have work : (adding s.globals.env I).Keeps s.globals (fun _ _ => True)
      (program recorder symbols steps expr) :=
    (follows.keeps_emit _ _).bind fun g code _ _ =>
      (takes_adding follows).keeps_expression maxNesting g _ expr code [] .nothing
        (.outermost symbols steps recorder) trivial trivial
  refine (work s ⟨rfl, rfl, kept⟩).mono ?_ ?_
  · rintro code s' ⟨g, le, ⟨rfl, holds⟩, _⟩
    exact ⟨le, holds⟩
  · rintro e s' ⟨g, le, ⟨rfl, holds⟩, _⟩
    exact ⟨le, holds⟩

/-- A form that does not compile leaves the tables as they were. -/
theorem toplevel_eq (recorder : Recorder ω) (symbols : SymbolTable) (steps : Nat) (expr : Value)
    (s : State ω) : toplevel recorder symbols steps expr s =
      match program recorder symbols steps expr s with
      | .ok code t => .ok code t
      | .error e t => .error e
        { t with globals := ⟨t.globals.env, s.globals.functions, s.globals.macros⟩ } := by
  have ends := ends_program symbols steps expr (follows_true recorder s.globals.env) (s := s) trivial
  unfold toplevel
  unfold Ends at ends
  cases run : program recorder symbols steps expr s with
  | ok code t => rfl
  | error e t =>
    rw [run] at ends
    obtain ⟨extended, _⟩ := ends
    exact congrArg (fun g => EStateM.Result.error e { t with globals := g }) extended.truncate

/-- A form is compiled to code for the global environment, or the names that it gave slots lose them
again. -/
theorem Takes.keeps_toplevel {W : Type} {C : Contract W (State ω)} {P : W → Value → Prop}
    {Q : W → Shape → Value → Prop} {A : W → List Frame → Spot → Value → Prop}
    {G : W → Table → Nat → Prop} (takes : Takes C recorder P Q A G) {w : W} {v : Value}
    (symbols : SymbolTable) (steps : Nat) (expr : P w v) :
    C.Keeps w (fun w => Q w ⟨[], [], .nothing⟩) (toplevel recorder symbols steps v) := by
  have work : C.Keeps w (fun w => Q w ⟨[], [], .nothing⟩) (program recorder symbols steps v) :=
    (takes.ending .halt).bind fun w₁ code le last =>
      takes.keeps_expression maxNesting w₁ _ v code _ _ (.outermost symbols steps recorder)
        (takes.later le expr) last
  intro s holds
  have ends := work s holds
  unfold Ends at ends ⊢
  rw [toplevel_eq]
  split at ends
  next c t run =>
    rw [run]
    exact ends
  next e t run =>
    rw [run]
    obtain ⟨w', le, holds', error⟩ := ends
    exact takes.reset holds le holds' error

end Compile

end SecdLisp
