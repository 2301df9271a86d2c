import SecdLisp.Proofs.Capacity.Compile
import SecdLisp.Proofs.Operation

/-!
# Sessions pay no heed to the room

Nothing that a session is asked for depends on the room of its heap or on its log.
-/

namespace SecdLisp

namespace Session

open Bench

variable {α : Type} {exact : Prop}

def bench : Bench Session :=
  ⟨Session.heap, fun s t => s.symbols = t.symbols ∧ s.globals = t.globals⟩

def heapLens (log : Session → Log) : Heap.bench.Lens bench where
  get := Session.heap
  put s heap := ⟨heap, s.symbols, s.globals, log s⟩
  heap_get _ := rfl
  heap_put _ _ := rfl
  same_get _ := trivial
  same_put same _ := same

def readerLens (source : Source) : Reading.bench.Lens bench where
  get s := ⟨source, s.heap, s.symbols⟩
  put s r := { s with heap := r.heap, symbols := r.symbols }
  heap_get _ := rfl
  heap_put _ _ := rfl
  same_get same := ⟨rfl, same.1⟩
  same_put same parts := ⟨parts.2, same.2⟩

def compilerLens : (Compile.bench (ω := Log)).Lens bench where
  get s := ⟨s.heap, s.globals, s.log⟩
  put s t := ⟨t.heap, s.symbols, t.globals, t.record⟩
  heap_get _ := rfl
  heap_put _ _ := rfl
  same_get same := same.2
  same_put same parts := ⟨same.1, parts⟩

theorem heedless_onHeap {x : HeapM α} (work : Heap.bench.Heedless exact x) :
    bench.Heedless exact (onHeap x) := by
  refine Heedless.lift (heapLens Session.log) (fun a _ => a) (fun _ => work) (fun s => ?_)
    (fun _ => rfl) fun _ _ => rfl
  unfold onHeap
  cases run : x s.heap <;> simp only [heapLens, run]

theorem heedless_onReader {x : ReadM α} (work : Reading.bench.Heedless exact x) (source : Source) :
    bench.Heedless exact (onReader x source) := by
  refine Heedless.lift (readerLens source) (fun a r => (a, r.source)) (fun _ => work) (fun s => ?_)
    (fun _ => rfl) fun a same => by rw [same.1]
  unfold onReader
  cases run : x ⟨source, s.heap, s.symbols⟩ <;> simp only [readerLens, run]

theorem heedless_apart (f : SymbolTable → Globals → α × SymbolTable × Globals)
    (log : Session → Log) :
    bench.Heedless exact (fun s => .ok (f s.symbols s.globals).1
      ⟨s.heap, (f s.symbols s.globals).2.1, (f s.symbols s.globals).2.2, log s⟩ : SessionM α) := by
  intro s t alike
  obtain ⟨symbols, globals⟩ := alike.same
  dsimp only
  rw [symbols, globals]
  exact .ok ⟨alike.heap, rfl, rfl⟩ (.refl _)

theorem heedless_report (e : Event) : bench.Heedless exact (report e) :=
  heedless_apart (fun symbols g => ((), symbols, g)) fun s => s.log.add e

theorem heedless_intern (name : String) : bench.Heedless exact (intern name) :=
  heedless_apart (fun symbols g => ((symbols.intern name).1, (symbols.intern name).2, g))
    Session.log

theorem heedless_defineFunction (name : String) : bench.Heedless exact (defineFunction name) :=
  (heedless_intern name).bind fun symbol =>
    heedless_apart (fun symbols g => ((g.defineFunction symbol).1, symbols,
      (g.defineFunction symbol).2)) Session.log

theorem heedless_defineMacro (name : String) : bench.Heedless exact (defineMacro name) :=
  (heedless_intern name).bind fun symbol =>
    heedless_apart (fun symbols g => ((g.defineMacro symbol).1, symbols,
      (g.defineMacro symbol).2)) Session.log

theorem heedless_read (text : String) : bench.Heedless exact (read text) :=
  (heedless_onReader Reading.heedless_form _).bind fun _ => heedless_pure _

theorem heedless_readNext (source : Source) : bench.Heedless exact (readNext source) :=
  heedless_onReader Reading.heedless_form? source

theorem heedless_compile (steps : Nat) (expr : Value) :
    bench.Heedless exact (compile steps expr) := by
  refine Heedless.lift compilerLens (fun a _ => a)
    (x := fun s => Compile.toplevel Log.recorder s.symbols steps expr)
    (fun s => Compile.heedless_toplevel Log.recorder s.symbols steps expr) (fun s => ?_) ?_
    fun _ _ => rfl
  · unfold compile
    cases run : Compile.toplevel Log.recorder s.symbols steps expr ⟨s.heap, s.globals, s.log⟩ <;>
      simp only [compilerLens, run]
  · intro s t same
    rw [same.1]

theorem heedless_run (steps : Nat) (code : Value) : bench.Heedless exact (run steps code) := by
  let log (s : Session) := Log.recorder.run s.symbols steps s.globals.env code s.heap s.log
  refine Heedless.lift (heapLens log) (fun a _ => a)
    (x := fun s => Machine.run s.symbols steps s.globals.env code)
    (fun s => Machine.heedless_run s.symbols steps s.globals.env code) (fun s => ?_) ?_
    fun _ _ => rfl
  · unfold run
    cases run : Machine.run s.symbols steps s.globals.env code s.heap <;>
      simp only [heapLens, run, log]
  · intro s t same
    rw [same.1, same.2]

theorem heedless_eval (steps : Nat) (expr : Value) : bench.Heedless exact (eval steps expr) :=
  (heedless_compile steps expr).bind fun code => (heedless_run steps code).bind fun v =>
    (heedless_onHeap (Heap.heedless_read fun _ _ cells => Heap.size_eq cells)).bind fun _ =>
      (heedless_report _).bind fun _ => heedless_pure v

theorem heedless_evalFrom (steps : Nat) (bound : List Char) (source : Source) (last : Value) :
    bench.Heedless exact (evalFrom steps bound source last) := by
  induction bound generalizing source last with
  | nil =>
    rw [evalFrom.eq_def]
    refine (heedless_readNext source).bind fun found => ?_
    obtain ⟨_ | expr, rest⟩ := found
    · exact heedless_pure last
    · exact (heedless_eval steps expr).bind fun v => heedless_pure v
  | cons _ bound ih =>
    rw [evalFrom.eq_def]
    refine (heedless_readNext source).bind fun found => ?_
    obtain ⟨_ | expr, rest⟩ := found
    · exact heedless_pure last
    · exact (heedless_eval steps expr).bind fun v => ih rest v

theorem heedless_internAll (names : List String) : bench.Heedless exact (internAll names) := by
  induction names with
  | nil => exact heedless_pure _
  | cons name names ih =>
    exact (heedless_intern name).bind fun _ => ih.bind fun _ => heedless_pure _

theorem heedless_allocBlank (n : Nat) : Heap.bench.Heedless exact (allocBlank n) := by
  induction n with
  | zero => exact heedless_pure _
  | succ n ih => exact (Heap.heedless_alloc .nil .nil).bind fun _ => ih

theorem heedless_fillCells (value : Slot → Value) (a : Addr) (cells : List ImageCell) :
    Heap.bench.Heedless exact (fillCells value a cells) := by
  induction cells generalizing a with
  | nil => exact heedless_pure _
  | cons c cells ih => exact (Heap.heedless_update a _).bind fun _ => ih (a + 1)

theorem heedless_restore (image : Image) : bench.Heedless exact (restore image) := by
  unfold restore
  split
  · exact heedless_throw nofun
  · refine (heedless_internAll _).bind fun names => ?_
    refine (heedless_onHeap (Heap.heedless_read fun _ _ cells => Heap.size_eq cells)).bind
      fun base => ?_
    refine (heedless_onHeap (heedless_allocBlank _)).bind fun _ => ?_
    refine (heedless_onHeap (heedless_fillCells _ base _)).bind fun _ => ?_
    refine (heedless_internAll _).bind fun functions => (heedless_internAll _).bind fun macros => ?_
    exact (heedless_apart (fun symbols _ => ((), symbols, _)) Session.log).bind
      fun _ => heedless_report _

/-- Work on a session gives up no cell, and is refused one only by a full heap. -/
theorem ends_of_heedless {x : SessionM α} (work : bench.Heedless True x) (s : Session) :
    Ends x s (fun _ t => s.heap.Lasts t.heap)
      fun e t => s.heap.Lasts t.heap ∧ (e = .heapFull → t.heap.Full) := by
  have matched := work s s ⟨.refl _ _, rfl, rfl⟩
  unfold Ends
  generalize x s = r at matched ⊢
  cases matched with
  | ok alike lasts => exact lasts
  | error alike lasts full => exact ⟨lasts, full⟩
  | full uneven => exact (uneven trivial).elim

theorem ends_full_of_heedless {x : SessionM α} {s : Session} {p : α → Session → Prop}
    (work : bench.Heedless True x) (ends : Ends x s p fun e _ => e = .heapFull) :
    Ends x s p fun e t => e = .heapFull ∧ t.heap.Full := by
  have lasts := ends_of_heedless work s
  unfold Ends at *
  cases run : x s with
  | ok a t =>
    rw [run] at ends
    exact ends
  | error e t =>
    rw [run] at ends lasts
    exact ⟨ends, lasts.2 ends⟩

end Session

end SecdLisp
