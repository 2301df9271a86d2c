import SecdLisp.Proofs.Additions
import SecdLisp.Proofs.Discipline.Story

/-!
# Between instructions

Along a story, what the instructions do to the heap is all that is done to the cells that there are:
before, between and after them, cells are only added.
-/

namespace SecdLisp

namespace Machine

theorem Moment.after_eq (symbols : SymbolTable) (r : Registers) (h : Heap) :
    (Moment.mk symbols r h).after = left (step symbols r) h := by
  unfold after outcome left
  dsimp only
  cases step symbols r h <;> rfl

/-- The instructions of a history led from one heap to another, and apart from them cells were only
added. -/
inductive Spans (first : Heap) : List Moment → Heap → Prop where
  | started {h} (grows : first.Grows h) : Spans first [] h
  | ran {history m h} (before : Spans first history m.heap) (grows : m.after.Grows h) :
    Spans first (history ++ [m]) h

variable {first h h' : Heap} {history before : List Moment} {m : Moment}

theorem Spans.later (spans : Spans first history h) (grows : h.Grows h') :
    Spans first history h' := by
  cases spans with
  | started earlier => exact .started (earlier.trans grows)
  | ran before earlier => exact .ran before (earlier.trans grows)

theorem Spans.grows (spans : Spans first [] h) : first.Grows h := by
  generalize none : ([] : List Moment) = history at spans
  cases spans with
  | started grows => exact grows
  | ran => simp at none

theorem Spans.earlier (spans : Spans first history h) (here : before ++ [m] <+: history) :
    Spans first before m.heap := by
  induction spans with
  | started =>
    have none := List.prefix_nil.mp here
    simp at none
  | ran rest _ ih =>
    rcases List.prefix_concat_iff.mp here with last | earlier
    · obtain ⟨rfl, same⟩ := List.append_inj' last rfl
      cases same
      exact rest
    · exact ih earlier

/-- A run is spanned by its instructions. -/
theorem Spans.run (symbols : SymbolTable) (steps : Nat) (r : Registers)
    (spans : Spans first history h) :
    Spans first (history ++ moments symbols steps r h) (left (runFrom symbols steps r) h) := by
  induction steps generalizing history r h with
  | zero =>
    rw [moments, List.append_nil]
    exact spans
  | succ steps ih =>
    have next : Spans first (history ++ [⟨symbols, r, h⟩]) (left (step symbols r) h) :=
      .ran spans (Moment.after_eq symbols r h ▸ .refl _)
    unfold left at ih next ⊢
    rw [moments, List.append_cons, runFrom_succ]
    cases run : step symbols r h with
    | error e h' =>
      rw [run] at next
      rw [List.append_nil]
      exact next
    | ok o h' =>
      rw [run] at next
      cases o with
      | halted r' =>
        rw [List.append_nil]
        exact next
      | running r' => exact ih r' next

end Machine

namespace Discipline

open Contract Compile Machine

variable {first : Heap}

/-- The compiler only adds cells, and every run that it starts is on record. -/
theorem follows_spans (first : Heap) (env : Value) :
    Follows chronicle env fun h history => Spans first history h where
  adds grows spans := spans.later grows
  event _ spans := spans
  run symbols steps code spans := spans.run symbols steps (start env code)

theorem spans_evaluation (symbols : SymbolTable) (steps : Nat) (expr : Value)
    {s : State (List Moment)} (spans : Spans first s.record s.heap) :
    Spans first (left (evaluation symbols steps expr) s).record
      (left (evaluation symbols steps expr) s).heap := by
  have follows := follows_spans first s.globals.env
  have keeps : (adding s.globals.env fun h history => Spans first history h).Keeps s.globals
      (fun _ _ => True) (evaluation symbols steps expr) :=
    ((takes_adding follows).keeps_toplevel symbols steps trivial).bind fun _ code _ _ =>
      follows.keeps_runNow rfl code
  refine Ends.left (p := fun t => Spans first t.record t.heap)
    ((keeps s ⟨rfl, rfl, spans⟩).mono ?_ ?_)
  · rintro _ _ ⟨_, _, ⟨_, _, spans⟩, _⟩
    exact spans
  · rintro _ _ ⟨_, _, ⟨_, _, spans⟩, _⟩
    exact spans

def growth : Contract Heap Reading where
  le := Heap.Grows
  holds h r := r.heap = h
  error _ _ := True
  refl := .refl
  trans := .trans

theorem takes_growth : Reading.Takes growth fun _ _ => True where
  later _ := id
  error _ _ := trivial
  source {w _} _ holds := ⟨w, .refl w, holds⟩
  nil _ := trivial
  truth _ := trivial
  int _ _ := trivial
  wellKnown _ _ _ := trivial
  intern w _ := by
    rintro ⟨source, h, symbols⟩ holds
    exact ⟨w, .refl w, holds, trivial⟩
  cons {_ car cdr} _ _ _ _ := by
    rintro h rfl
    have grows := Heap.growing_cons car cdr h
    unfold left at grows
    unfold Ends
    cases run : Heap.cons car cdr h <;>
    · rw [run] at grows
      exact ⟨_, grows, rfl, trivial⟩
  halves _ _ := ⟨trivial, trivial⟩

theorem grows_readNext (source : Source) (s : Session) :
    s.heap.Grows (left (Session.readNext source) s).heap := by
  obtain ⟨h, symbols, g, log⟩ := s
  have ends := takes_growth.keeps_form? (w := h) ⟨source, h, symbols⟩ rfl
  unfold Ends at ends
  unfold left Session.readNext Session.onReader
  dsimp only
  cases run : Reading.form? ⟨source, h, symbols⟩ <;>
  · rw [run] at ends
    obtain ⟨_, grows, rfl, _⟩ := ends
    exact grows

end Discipline

namespace Session

open Discipline Machine

variable {s : Session} {history : List Moment}

/-- A story is spanned by its instructions, from a new session with the same global environment. -/
theorem Story.spans (story : Story s history) : ∃ cells level s₀, create cells level = .ok s₀ ∧
    s.globals.env = s₀.globals.env ∧ Spans s₀.heap history s.heap := by
  induction story with
  | created new => exact ⟨_, _, _, new, rfl, .started (.refl _)⟩
  | logged _ log ih => exact ih
  | @read s history before source ih =>
    obtain ⟨cells, level, s₀, new, env, spans⟩ := ih
    refine ⟨cells, level, s₀, new, ?_, spans.later (grows_readNext source s)⟩
    rw [(left_of_keeps (keeps_readNext source) before.inRange).2, env]
  | @evaluated s history source rest expr before found steps ih =>
    obtain ⟨cells, level, s₀, new, env, spans⟩ := ih
    have inRange := before.inRange
    obtain ⟨inRange₁, env₁⟩ := left_of_keeps (keeps_readNext source) inRange
    have known := knows_of_readNext inRange found
    refine ⟨cells, level, s₀, new, ?_, ?_⟩
    · rw [(left_of_keeps (keeps_eval steps known) inRange₁).2, env₁, env]
    · rw [(left_eval inRange₁ known steps history).1]
      exact spans_evaluation _ steps expr
        (s := ⟨_, _, history⟩) (spans.later (grows_readNext source s))

end Session

end SecdLisp
