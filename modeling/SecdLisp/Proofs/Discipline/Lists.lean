import SecdLisp.Proofs.Discipline.Story

/-!
# Lists are immutable

A form that was read, a pair that the builtin makes, a list of values and a rest list stay what they
are, whatever is evaluated later; and so do closures and the code that is run. Assignments and
recursive bindings change frames only, and no frame is among them.
-/

namespace SecdLisp

namespace Session

open Compile Contract Discipline Machine

/-- On the way to a session, that form was read, and left that session then. It may have been
evaluated at once. -/
inductive HasRead (expr : Value) (t s : Session) (history : List Moment) : Prop where
  | only {s₀ earlier source rest} (story : Story s₀ earlier)
    (found : readNext source s₀ = .ok (some expr, rest) t) (next : Proceeds t earlier s history)
  | evaluated {s₀ earlier source rest} (story : Story s₀ earlier)
    (found : readNext source s₀ = .ok (some expr, rest) t) (steps : Nat)
    (next : Proceeds (left (eval steps expr) t) (evaluated steps expr t earlier) s history)

/-- A pair holds that in a session, and held it before each instruction since the pair was there. -/
structure Constant (s : Session) (history : List Moment) (a : Addr) (c : Cell) : Prop where
  now : s.heap.cell a = c
  before : ∀ m ∈ history, a < m.heap.size → m.heap.cell a = c

variable {s t s₀ : Session} {history later earlier : List Moment} {root expr : Value}
  {o : Option World} {w : World} {a : Addr} {c : Cell}

theorem Proceeds.described (proceeds : Proceeds s history t later) (story : Story s history)
    (described : Described root o s history) :
    ∃ o', (discipline root).le o o' ∧ Described root o' t later := by
  induction proceeds with
  | stays => exact ⟨o, (discipline root).refl o, described⟩
  | logged _ log ih => exact ih
  | read _ source ih =>
    obtain ⟨o₁, le₁, described₁⟩ := ih
    obtain ⟨o₂, le₂, described₂⟩ := described₁.read source
    exact ⟨o₂, (discipline root).trans le₁ le₂, described₂⟩
  | evaluated before found steps ih =>
    obtain ⟨o₁, le₁, described₁⟩ := ih
    obtain ⟨o₂, le₂, described₂⟩ :=
      described₁.evaluate (before.story story).inRange found steps
    exact ⟨o₂, (discipline root).trans le₁ le₂, described₂⟩

theorem constant_of_holds (described : Described root (some w) s history) (holds : w.Holds a c) :
    Constant s history a c := by
  obtain ⟨_, stands⟩ := described
  obtain ⟨_, fixed, cell⟩ := holds
  have heap : s.heap = w.heap := stands.heap
  refine ⟨heap ▸ cell, fun m mem lt => ?_⟩
  rw [← (stands.recalls.past m mem).cell a lt (.inl fixed), cell]

section Form

variable {source rest : Source} (story : Story s₀ earlier)
  (found : readNext source s₀ = .ok (some expr, rest) t)

include story found

theorem Story.after_form : Story t earlier ∧
    ∀ n, Story (left (eval n expr) t) (Session.evaluated n expr t earlier) := by
  have answer : value? (readNext source) s₀ = some (some expr, rest) := by rw [value?, found]
  rw [← left_of_eq_ok found]
  exact ⟨story.read source, story.evaluated answer⟩

theorem Story.knows_form : t.Knows expr := by
  have answer : value? (readNext source) s₀ = some (some expr, rest) := by rw [value?, found]
  exact left_of_eq_ok found ▸ knows_of_readNext story.inRange answer

theorem Story.literal_form : ∃ root o, Described root o t earlier ∧ ∀ w ∈ o, w.Literal expr := by
  obtain ⟨o, described⟩ := story.holds
  obtain ⟨o', _, described', literal⟩ := (ends_readNext source described).of_eq_ok found
  exact ⟨_, o', described', literal expr rfl⟩

end Form

theorem HasRead.described (reads : HasRead expr t s history) : ∃ root o o' earlier,
    (discipline root).le o o' ∧ Described root o t earlier ∧ (∀ w ∈ o, w.Literal expr) ∧
      Described root o' s history := by
  cases reads with
  | only story found next =>
    obtain ⟨root, o, described, literal⟩ := story.literal_form found
    obtain ⟨o', le, described'⟩ := next.described (story.after_form found).1 described
    exact ⟨root, o, o', _, le, described, literal, described'⟩
  | evaluated story found steps next =>
    obtain ⟨root, o, described, literal⟩ := story.literal_form found
    obtain ⟨story', evaluates⟩ := story.after_form found
    obtain ⟨o₁, le₁, described₁⟩ := described.eval story'.inRange (story.knows_form found)
      (fun w mem => (literal w mem).visible) steps
    obtain ⟨o₂, le₂, described₂⟩ := next.described (evaluates steps) described₁
    exact ⟨root, o, o₂, _, (discipline root).trans le₁ le₂, described, literal, described₂⟩

theorem HasRead.constant (reads : HasRead expr t s history) (honest : Honest history)
    (reachable : t.heap.Reachable expr a) : Constant s history a (t.heap.cell a) := by
  obtain ⟨root, o, o', _, later, described, literal, described'⟩ := reads.described
  cases o' with
  | none => exact (described'.2 honest).elim
  | some w' =>
    obtain ⟨w, mem, le⟩ := later w' rfl
    cases mem
    have heap : t.heap = w.heap := described.2.heap
    rw [heap] at reachable ⊢
    exact constant_of_holds described' (((literal w rfl).holds reachable).mono le)

theorem Story.constant (story : Story s history) (honest : Honest history)
    (showed : Showed history a c) : Constant s history a c := by
  obtain ⟨o, described⟩ := story.holds
  cases o with
  | none => exact (described.2 honest).elim
  | some w => exact constant_of_holds described (described.2.recalls.showed a c showed)

/-- As long as only closures that were made are called, no list is ever changed: no pair of a form
that was read, and no pair of a list, a closure or code that the history has shown. Whole texts are
evaluated like this, form by form. -/
theorem lists_constant (story : Story s history) (honest : Honest history) :
    (∀ expr t a, HasRead expr t s history → t.heap.Reachable expr a →
      Constant s history a (t.heap.cell a)) ∧
    (∀ a c, Showed history a c → Constant s history a c) ∧
    ∀ steps text, ComesTo s history (left (evalText steps text) s) ∧
      ComesTo s history (evalEach steps text s).2 :=
  ⟨fun _ _ _ reads reachable => reads.constant honest reachable,
    fun _ _ showed => story.constant honest showed,
    fun steps text => ⟨comesTo_evalFrom steps text.toList _ .nil,
      comesTo_evalStreamFrom steps text.toList _ #[]⟩⟩

/-- A session that is about to call a function with a rest parameter, which assigns the other one. -/
def assigning : Session :=
  left (readNext (.ofString "((fn (a &rest r) (cons (set a 5) r)) 1 2)")) spacious

def assigned : List Moment := evaluated 40 (.pair 16) assigning []

/-- The assignment changes the cell in front of the rest list. -/
theorem assigned_constant :
    (∃ m ∈ assigned, m.heap.cell 43 = ⟨.int 1, .pair 40⟩ ∧ m.after.cell 43 = ⟨.int 5, .pair 40⟩) ∧
      Constant (left (eval 40 (.pair 16)) assigning) assigned 40 ⟨.int 2, .nil⟩ ∧
        ∀ a, assigning.heap.Reachable (.pair 16) a →
          Constant (left (eval 40 (.pair 16)) assigning) assigned a (assigning.heap.cell a) := by
  have made : create 64 .quiet = .ok spacious := rfl
  have found : value? (readNext (.ofString "((fn (a &rest r) (cons (set a 5) r)) 1 2)")) spacious =
      some (some (.pair 16), ⟨41, []⟩) := by decide +kernel
  have story : Story (left (eval 40 (.pair 16)) assigning) assigned :=
    (Story.created made).evaluated found 40
  have reads : HasRead (.pair 16) assigning (left (eval 40 (.pair 16)) assigning) assigned :=
    .evaluated (.created made) (eq_ok_of_value? found) 40 .stays
  have honest : Honest assigned := by decide +kernel
  have lt : 7 < assigned.length := by decide +kernel
  have cell : assigned[7].after.cell 40 = ⟨.int 2, .nil⟩ := by decide +kernel +revert
  have shows : Shows (assigned.take 7) assigned[7] 40 (assigned[7].after.cell 40) :=
    .rest (by decide +kernel +revert) (by decide +kernel +revert) .head
  have split : assigned = assigned.take 7 ++ assigned[7] :: assigned.drop 8 := by simp
  refine ⟨by decide +kernel, ?_, fun a => (lists_constant story honest).1 _ _ a reads⟩
  exact cell ▸ (lists_constant story honest).2.1 _ _ ⟨_, _, _, split, shows⟩

end Session

end SecdLisp
