import SecdLisp.Proofs.Capacity.Sessions
import SecdLisp.Proofs.Composition
import SecdLisp.Proofs.Text.Grammar

/-!
# Templates are filled in

A template without templates of its own is a form with holes. Reading it gives an expression of
quotations and calls of `cons`, which evaluates to the form with the values of the unquoted
expressions in the holes, where these evaluate without side effects. No name of the template can be
taken for a variable, and no variable changes what the calls of `cons` do.
-/

namespace SecdLisp

open Compile

/-- Every value that is this tree, as the reader makes them, evaluates. -/
def Sexp.EvaluatesIn {ω : Type} (s : Sexp) (scene : Scene ω) (levels : Nat)
    (means : Value → Heap → Prop) : Prop :=
  ∀ x, x.Unfolds scene.heap scene.context.symbols s → Evaluates scene levels means x

namespace Phrase

mutual

/-- A form with holes: what is unquoted may be anything, and around it there is no template. -/
def isTemplate : Phrase → Bool
  | .int _ => true
  | .word _ => true
  | .list items => areTemplates items
  | .quote p => isTemplate p
  | .backquote _ => false
  | .unquote _ => true

def areTemplates : List Phrase → Bool
  | [] => true
  | p :: ps => isTemplate p && areTemplates ps

end

mutual

/-- The expressions that are unquoted. -/
def holes : Phrase → List Phrase
  | .int _ => []
  | .word _ => []
  | .list items => holesAll items
  | .quote p => holes p
  | .backquote _ => []
  | .unquote e => [e]

def holesAll : List Phrase → List Phrase
  | [] => []
  | p :: ps => holes p ++ holesAll ps

end

section Filling

variable (need : Phrase → Nat) (means : Phrase → Value → Heap → Prop)
  (symbols : SymbolTable) (h : Heap)

mutual

/-- How deep the expression for a template nests, given how deep the unquoted expressions do. Every
element of a list is one level further in. -/
def levels : Phrase → Nat
  | .int _ => 1
  | .word _ => 1
  | .list items => levelsAll items
  | .quote p => max (levels p) 1 + 2
  | .backquote _ => 0
  | .unquote e => need e

def levelsAll : List Phrase → Nat
  | [] => 1
  | p :: ps => max (levels p) (levelsAll ps) + 1

end

mutual

/-- The value is the template itself, with a value in each hole that is what `means` says of the
expression there. -/
def Fills : Phrase → Value → Prop
  | .int n, v => v = .int n
  | .word name, v => v.Unfolds h symbols (ofWord name)
  | .list items, v => ∃ vs, h.Lists v vs ∧ FillsAll items vs
  | .quote p, v => ∃ w, h.Lists v [.ident .quote, w] ∧ Fills p w
  | .backquote _, _ => False
  | .unquote e, v => means e v h

def FillsAll : List Phrase → List Value → Prop
  | [], vs => vs = []
  | p :: ps, vs => ∃ w ws, vs = w :: ws ∧ Fills p w ∧ FillsAll ps ws

end

end Filling

theorem areTemplates_iff {ps : List Phrase} :
    areTemplates ps = true ↔ ∀ p ∈ ps, p.isTemplate = true := by
  induction ps with
  | nil => simp [areTemplates]
  | cons p ps ih => rw [areTemplates, Bool.and_eq_true, ih, List.forall_mem_cons]

theorem mem_holesAll {ps : List Phrase} {e : Phrase} :
    e ∈ holesAll ps ↔ ∃ p ∈ ps, e ∈ p.holes := by
  induction ps with
  | nil => simp [holesAll]
  | cons p ps ih => simp [holesAll, ih]

variable {need : Phrase → Nat} {means : Phrase → Value → Heap → Prop}
  {symbols : SymbolTable}

theorem lasts_unfolds (s : Sexp) : Lasts fun v h => v.Unfolds h symbols s :=
  fun _ _ _ unfolds grows => unfolds.mono grows (.refl _)

theorem lasts_fillsAll {ps : List Phrase}
    (each : ∀ p ∈ ps, Lasts fun v h => p.Fills means symbols h v) :
    Lasts fun v h => ∃ vs, h.Lists v vs ∧ FillsAll means symbols h ps vs := by
  rintro v h h' ⟨vs, lists, fills⟩ grows
  refine ⟨vs, lists.mono grows, ?_⟩
  clear lists
  induction ps generalizing vs with
  | nil => exact fills
  | cons p ps ih =>
    rw [List.forall_mem_cons] at each
    obtain ⟨w, ws, rfl, first, rest⟩ := fills
    exact ⟨w, ws, rfl, each.1 w h h' first grows, ih each.2 ws rest⟩

/-- A template stays filled in when cells are added, if what is known of the holes does. -/
theorem lasts_fills {p : Phrase} (lasts : ∀ e ∈ p.holes, Lasts (means e)) :
    Lasts fun v h => p.Fills means symbols h v := by
  induction p with
  | int n => exact fun _ _ _ fills _ => fills
  | word name => exact lasts_unfolds (ofWord name)
  | list items ih =>
    rw [holes] at lasts
    refine lasts_fillsAll fun p mem => ih p mem fun e here => ?_
    exact lasts e (mem_holesAll.mpr ⟨p, mem, here⟩)
  | quote p ih =>
    rintro v h h' ⟨w, lists, fills⟩ grows
    exact ⟨w, lists.mono grows, ih lasts w h h' fills grows⟩
  | backquote p _ => exact fun _ _ _ => False.elim
  | unquote e _ => exact lasts e (List.mem_singleton_self e)

section EvaluatesIn

variable {ω : Type} {scene : Scene ω}

/-- The unquoted expressions evaluate, each to what is meant by it. -/
def HolesEvaluate (p : Phrase) (scene : Scene ω) (need : Phrase → Nat)
    (means : Phrase → Value → Heap → Prop) : Prop :=
  ∀ e ∈ p.holes, Lasts (means e) ∧ e.desugar.EvaluatesIn scene (need e) (means e)

theorem evaluates_quotation {s : Sexp} {x : Value}
    (unfolds : x.Unfolds scene.heap scene.context.symbols (.list [.name "quote", s])) :
    ∃ y, y.Unfolds scene.heap scene.context.symbols s ∧
      Evaluates scene 1 (fun v _ => v = y) x := by
  obtain ⟨_, lists, all⟩ := unfolds.lists
  obtain _ | ⟨first, all⟩ := all
  obtain _ | ⟨second, all⟩ := all
  cases all
  cases first.eq_ident (i := .quote) rfl
  exact ⟨_, second, evaluates_quote lists⟩

theorem evaluatesIn_expandRest {ps : List Phrase}
    (each : ∀ p ∈ ps, p.desugar.expand.EvaluatesIn scene (p.levels need)
      fun v h => p.Fills means scene.context.symbols h v)
    (lasts : ∀ p ∈ ps, Lasts fun v h => p.Fills means scene.context.symbols h v) :
    (Sexp.expandRest (.list (desugarAll ps))).EvaluatesIn scene (levelsAll need ps)
      fun v h => ∃ vs, h.Lists v vs ∧ FillsAll means scene.context.symbols h ps vs := by
  induction ps with
  | nil =>
    intro x unfolds
    cases Value.unfolds_nil.mp unfolds
    refine evaluates_nil.mono (Nat.le_refl _) ?_
    rintro v h rfl
    exact ⟨[], ⟨[], .nil, rfl⟩, rfl⟩
  | cons p ps ih =>
    intro x unfolds
    rw [List.forall_mem_cons] at each lasts
    rw [desugarAll, Sexp.list_cons, Sexp.expandRest] at unfolds
    obtain ⟨_, lists, all⟩ := unfolds.lists
    obtain _ | ⟨first, all⟩ := all
    obtain _ | ⟨second, all⟩ := all
    obtain _ | ⟨third, all⟩ := all
    cases all
    cases first.eq_ident (i := .cons) rfl
    have pair := Evaluates.cons lists (each.1 _ second) (ih each.2 lasts.2 _ third) lasts.1
      (lasts_fillsAll lasts.2)
    refine pair.mono (Nat.le_refl _) ?_
    rintro v h ⟨a, owned, rfl, fills, ws, ⟨as, spine, rfl⟩, rest⟩
    exact ⟨_, ⟨a :: as, .cons owned spine, rfl⟩, _, _, rfl, fills, rest⟩

theorem evaluatesIn_expand_list {ps : List Phrase} (formed : ∀ p ∈ ps, p.desugar.Formed)
    (each : ∀ p ∈ ps, p.desugar.expand.EvaluatesIn scene (p.levels need)
      fun v h => p.Fills means scene.context.symbols h v)
    (lasts : ∀ p ∈ ps, Lasts fun v h => p.Fills means scene.context.symbols h v) :
    (Sexp.list (desugarAll ps)).expand.EvaluatesIn scene (levelsAll need ps)
      fun v h => ∃ vs, h.Lists v vs ∧ FillsAll means scene.context.symbols h ps vs := by
  cases ps with
  | nil =>
    intro x unfolds
    obtain ⟨_, known, evaluates⟩ := evaluates_quotation unfolds
    cases Value.unfolds_nil.mp known
    refine evaluates.mono (Nat.le_refl _) ?_
    rintro v h rfl
    exact ⟨[], ⟨[], .nil, rfl⟩, rfl⟩
  | cons p ps =>
    rw [desugarAll, Sexp.expand_list (formed p List.mem_cons_self)]
    exact evaluatesIn_expandRest each lasts

theorem evaluatesIn_expand_word (name : String) : (ofWord name).expand.EvaluatesIn scene 1
    fun v h => v.Unfolds h scene.context.symbols (ofWord name) := by
  intro x unfolds
  have quoted : (ofWord name).expand = .list [.name "quote", ofWord name] := by
    unfold ofWord
    split
    · rfl
    split <;> rfl
  rw [quoted] at unfolds
  obtain ⟨y, known, evaluates⟩ := evaluates_quotation unfolds
  refine evaluates.mono (Nat.le_refl _) ?_
  rintro v h rfl
  -- A word has no cells, so the heap does not matter.
  unfold ofWord at known ⊢
  split
  next nil => simpa [nil] using known
  next notNil =>
    rw [if_neg notNil] at known
    split
    next truth => simpa [truth] using known
    next other =>
      rw [if_neg other] at known
      exact Value.unfolds_name.mpr (Value.unfolds_name.mp known)

/-- The expression for a template evaluates to the template, filled in. -/
theorem evaluatesIn_expand {p : Phrase} (template : p.isTemplate = true)
    (worded : .ident "," ∉ p.tokens) (holes : p.HolesEvaluate scene need means) :
    p.desugar.expand.EvaluatesIn scene (p.levels need)
      fun v h => p.Fills means scene.context.symbols h v := by
  induction p with
  | int n =>
    intro x unfolds
    obtain ⟨y, known, evaluates⟩ := evaluates_quotation unfolds
    refine evaluates.mono (Nat.le_refl _) ?_
    rintro v h rfl
    exact Value.unfolds_int.mp known
  | word name => exact evaluatesIn_expand_word name
  | list items ih =>
    rw [isTemplate, areTemplates_iff] at template
    have wordedAll : ∀ p ∈ items, .ident "," ∉ p.tokens := by
      simpa [tokens, tokensAll_eq] using worded
    have within : ∀ p ∈ items, p.HolesEvaluate scene need means := fun p mem e here =>
      holes e (mem_holesAll.mpr ⟨p, mem, here⟩)
    exact evaluatesIn_expand_list (fun p mem => formed_desugar (wordedAll p mem))
      (fun p mem => ih p mem (template p mem) (wordedAll p mem) (within p mem))
      (fun p mem => lasts_fills fun e here => (within p mem e here).1)
  | quote p ih =>
    -- A quotation is a list of two elements, of which the first one is a word.
    have inner : .ident "," ∉ p.tokens := by simpa [tokens] using worded
    have keyword : ofWord "quote" = .name "quote" := by decide
    have spelled : (Phrase.quote p).desugar = .list (desugarAll [.word "quote", p]) := by
      simp [desugar, desugarAll, keyword]
    have formed : ∀ q ∈ [.word "quote", p], q.desugar.Formed := by
      simp only [List.forall_mem_cons, desugar, keyword]
      exact ⟨.name (by decide), formed_desugar inner, List.forall_mem_nil _⟩
    have each : ∀ q ∈ [.word "quote", p], q.desugar.expand.EvaluatesIn scene (q.levels need)
        fun v h => q.Fills means scene.context.symbols h v := by
      simp only [List.forall_mem_cons]
      exact ⟨evaluatesIn_expand_word "quote", ih template inner holes, List.forall_mem_nil _⟩
    have lasts : ∀ q ∈ [.word "quote", p],
        Lasts fun v h => q.Fills means scene.context.symbols h v := by
      simp only [List.forall_mem_cons]
      exact ⟨lasts_unfolds _, lasts_fills fun e here => (holes e here).1, List.forall_mem_nil _⟩
    intro x unfolds
    rw [spelled] at unfolds
    refine (evaluatesIn_expand_list formed each lasts x unfolds).mono ?_ ?_
    · simp only [levelsAll, levels]
      omega
    · rintro v h ⟨_, lists, a, _, rfl, first, w, _, rfl, fills, rfl⟩
      have word : a.Unfolds h scene.context.symbols (ofWord "quote") := first
      rw [keyword] at word
      cases word.eq_ident (i := .quote) rfl
      exact ⟨w, lists, fills⟩
  | backquote p _ => cases template
  | unquote e _ =>
    have payload : (Phrase.unquote e).desugar.expand = e.desugar := by
      rw [desugar, Sexp.list_cons, Sexp.expand, if_pos rfl]
      rfl
    rw [payload]
    exact (holes e (List.mem_singleton_self e)).2

end EvaluatesIn

end Phrase

namespace Session

open Reading (Grammatical)

variable {text : String} {p : Phrase}

theorem ends_read (written : Grammatical text [p]) (s : Session) : Ends (read text) s
    (fun x s₁ => s.heap.Grows s₁.heap ∧ s.symbols.Within s₁.symbols ∧ s₁.globals = s.globals ∧
      x.Unfolds s₁.heap s₁.symbols p.desugar)
    fun e _ => e = .heapFull ∧ s.heap.capacity < s.heap.size + p.cells := by
  obtain ⟨h, symbols, globals, log⟩ := s
  obtain ⟨src', fit, reads, -⟩ := Reading.grammatical_iff.mp written
  rw [List.forall_mem_singleton] at fit
  rw [Phrase.tokensAll, Phrase.tokensAll, List.append_nil] at reads
  have carries := Reading.form_carries fit.1 fit.2 reads
  have worded : p.Worded := reads.no_comma_name
  have ends := carries.ends (p := fun v h' symbols' => h.Grows h' ∧ symbols.Within symbols' ∧
      v.Unfolds h' symbols' p.desugar)
    ((Phrase.costs_build worded ⟨.ofString text, h, symbols⟩).mono
      (fun _ _ ends => ⟨ends.2.1.grows, ends.2.2⟩) fun _ _ => id)
  show Ends (onReader Reading.form (.ofString text) >>= fun found => pure found.1) _ _ _
  rw [ends_bind]
  unfold onReader
  unfold Ends at ends ⊢
  dsimp only
  cases run : Reading.form ⟨.ofString text, h, symbols⟩ with
  | ok v r =>
    rw [run] at ends
    obtain ⟨-, grows, within, unfolds⟩ := ends
    exact ⟨grows, within, rfl, unfolds⟩
  | error e r =>
    rw [run] at ends
    exact ends

/-- What is read from the text of a template evaluates to the template with its holes filled in,
wherever it stands and whatever names are in scope there. So it does when it is compiled and run on
its own, unless that fills the heap. -/
theorem backquote_fills {T : Phrase} (written : Grammatical text [.backquote T])
    (template : T.isTemplate = true) (s : Session) :
    (∀ {ω : Type} (scene : Scene ω) need means, T.HolesEvaluate scene need means →
      (Phrase.backquote T).desugar.EvaluatesIn scene (T.levels need)
        fun v h => T.Fills means scene.context.symbols h v) ∧
    Ends (read text) s
      (fun x s₁ => s.heap.Grows s₁.heap ∧ s.symbols.Within s₁.symbols ∧ s₁.globals = s.globals ∧
        x.Unfolds s₁.heap s₁.symbols (Phrase.backquote T).desugar ∧
        ∀ macroSteps need means, T.HolesEvaluate (s₁.scene macroSteps) need means →
          T.levels need ≤ Compile.maxNesting → Ends (compile macroSteps x) s₁
            (fun code s₂ => s₁.heap.Grows s₂.heap ∧ s₂.symbols = s₁.symbols ∧
              s₂.globals = s₁.globals ∧ ∃ n, ∀ steps ≥ n, Ends (run steps code) s₂
                (fun v s₃ => s₂.heap.Grows s₃.heap ∧ s₃.symbols = s₁.symbols ∧
                  s₃.globals = s₁.globals ∧ T.Fills means s₁.symbols s₃.heap v)
                fun e s₃ => e = .heapFull ∧ s₃.heap.Full)
            fun e s₂ => e = .heapFull ∧ s₂.heap.Full)
      fun e _ => e = .heapFull ∧ s.heap.capacity < s.heap.size + (Phrase.backquote T).cells := by
  have worded : .ident "," ∉ T.tokens := by
    obtain ⟨⟨src', reads, -⟩, -⟩ := written
    simpa [Phrase.tokens] using reads.no_comma_name
  have fills {ω : Type} (scene : Scene ω) (need means) (holes : T.HolesEvaluate scene need means) :
      (Phrase.backquote T).desugar.EvaluatesIn scene (T.levels need)
        fun v h => T.Fills means scene.context.symbols h v :=
    Phrase.evaluatesIn_expand template worded holes
  refine ⟨fills, (ends_read written s).mono ?_ fun _ _ => id⟩
  rintro x s₁ ⟨grows, within, same, unfolds⟩
  refine ⟨grows, within, same, unfolds, fun macroSteps need means holes enough => ?_⟩
  have evaluates := fills (s₁.scene macroSteps) need means holes x unfolds
  have compiles := ends_compile_of_evaluates evaluates enough
  refine (ends_full_of_heedless (heedless_compile macroSteps x) compiles).mono ?_ fun _ _ => id
  rintro code s₂ ⟨grows', same', same'', n, runs⟩
  refine ⟨grows', same', same'', n, fun steps le => ?_⟩
  exact ends_full_of_heedless (heedless_run steps code) (runs steps le)

theorem addressable_hundred : 100 ≤ Heap.maxCells := by decide

/-- A session in which `cons` is a global name, with a number as its value. -/
def shadowed : Session where
  heap := ⟨#[⟨.int 42, .nil⟩, ⟨.nil, .nil⟩, ⟨.pair 0, .pair 1⟩], 100, by decide, addressable_hundred⟩
  symbols := .initial
  globals := ⟨.pair 2, [.cons], []⟩
  log := .empty .quiet

/-- A function in that session, with a parameter that is called `cons` too. -/
def shadowedTwice (s : Session) : Scene Log :=
  { s.scene 0 with context := (s.scene 0).context.within [.plain .cons] }

/-- A template with a hole for the value of `cons`. -/
def holed : Phrase := .list [.word "a", .unquote (.word "cons")]

theorem grammatical_holed : Grammatical "`(a ,cons)" [.backquote holed] := by
  refine ⟨?_, List.forall_mem_singleton.mpr ⟨by decide, by decide⟩⟩
  show Token.Lexes _ [.backquote, .opening, .ident "a", .comma, .ident "cons", .closing]
  refine ⟨_, .cons (eq_ok_of_value? ?_) (.cons (eq_ok_of_value? ?_) (.cons (eq_ok_of_value? ?_)
    (.cons (eq_ok_of_value? ?_) (.cons (eq_ok_of_value? ?_) (.cons (eq_ok_of_value? ?_)
      (.nil _)))))), ?_⟩
  all_goals decide +kernel

theorem holed_evaluates {scene : Scene Log} (env : scene.env = .pair 2)
    (runs : ∀ h, scene.Runs h → shadowed.heap.Grows h)
    (place : scene.place? .cons = some ⟨1, 1, .plain .cons⟩) :
    holed.HolesEvaluate scene (fun _ => 1) fun _ v _ => v = .int 42 := by
  intro e mem
  obtain rfl : e = .word "cons" := by simpa [holed, Phrase.holes, Phrase.holesAll] using mem
  refine ⟨fun _ _ _ known _ => known, fun x unfolds => ?_⟩
  have keyword : (Phrase.word "cons").desugar = .name "cons" := by decide
  rw [keyword] at unfolds
  cases unfolds.eq_ident (i := .cons) rfl
  refine evaluates_name place ⟨by decide, by decide⟩ fun h ran => ?_
  have holder : h.cell 2 = ⟨.pair 0, .pair 1⟩ := (runs h ran).cell 2 (by decide)
  have slot : h.cell 0 = ⟨.int 42, .nil⟩ := (runs h ran).cell 0 (by decide)
  rw [env]
  show ((Heap.nthCell? h (h.car 2) 1).map h.car) = _
  rw [Heap.car, holder]
  show some (h.cell 0).car = _
  rw [slot]

theorem exists_compile_holed : ∃ x s code t,
    read "`(a ,cons)" shadowed = .ok x s ∧ compile 0 x s = .ok code t ∧
    (s.scene 0).place? .cons = some ⟨1, 1, .plain .cons⟩ := by
  have found : read "`(a ,cons)" shadowed = .ok (.pair 14) _ := eq_ok_of_value? (by decide +kernel)
  have compiled : compile 0 (.pair 14) (left (read "`(a ,cons)") shadowed) = .ok (.pair 23) _ :=
    eq_ok_of_value? (by decide +kernel)
  exact ⟨_, _, _, _, found, compiled, by decide +kernel⟩

-- To see whether the name of a hypothesis is one of a constructor, the linter would run the reader.
set_option linter.constructorNameAsVariable false in
theorem backquote_fills_shadowed : ∃ x s code t,
    read "`(a ,cons)" shadowed = .ok x s ∧ compile 0 x s = .ok code t ∧
    Evaluates (shadowedTwice s) (holed.levels fun _ => 1)
      (fun v h => holed.Fills (fun _ v _ => v = .int 42) s.symbols h v) x ∧
    ∃ n, ∀ steps ≥ n, Ends (run steps code) t
      (fun v u => holed.Fills (fun _ v _ => v = .int 42) s.symbols u.heap v)
      fun e u => e = .heapFull ∧ u.heap.Full := by
  obtain ⟨x, s, code, t, found, compiled, place⟩ := exists_compile_holed
  obtain ⟨fills, ends⟩ := backquote_fills grammatical_holed rfl shadowed
  obtain ⟨grows, -, same, unfolds, alone⟩ := ends.of_eq_ok found
  have env : s.globals.env = .pair 2 := congrArg Globals.env same
  have runs (h : Heap) : s.heap.Grows h → shadowed.heap.Grows h := grows.trans
  have within : holed.HolesEvaluate (shadowedTwice s) _ _ := holed_evaluates env runs rfl
  have outside : holed.HolesEvaluate (s.scene 0) _ _ := holed_evaluates env runs place
  obtain ⟨-, -, -, n, run⟩ := (alone 0 _ _ outside (by decide)).of_eq_ok compiled
  refine ⟨x, s, code, t, found, compiled, fills _ _ _ within x unfolds, n, fun steps le => ?_⟩
  exact (run steps le).mono (fun _ _ ends => ends.2.2.2) fun _ _ => id

end Session

end SecdLisp
