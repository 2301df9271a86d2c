import SecdLisp.Compile.Formals
import SecdLisp.Globals
import SecdLisp.Proofs.Parallel.Heap

/-!
# Scopes on both sides

Corresponding parameter lists are read as corresponding frames, or refused for the same reason,
and a name has one place in corresponding scopes and one slot in corresponding tables.
-/

namespace SecdLisp

namespace Parallel

open World

variable {left right : SymbolTable} {w w' : World} {h h' : Heap} {v v' : Value}

inductive World.Formals (w : World) : Formal → Formal → Prop where
  | plain {i j : Symbol} (names : w.Names i j) : Formals w (.plain i) (.plain j)
  | rest {i j : Symbol} (names : w.Names i j) : Formals w (.rest i) (.rest j)

abbrev World.Frames (w : World) : Frame → Frame → Prop := List.Forall₂ w.Formals

abbrev World.Scopes (w : World) : List Frame → List Frame → Prop := List.Forall₂ w.Frames

structure World.Places (w : World) (p q : Place) : Prop where
  depth : p.depth = q.depth
  index : p.index = q.index
  formals : w.Formals p.formal q.formal

theorem World.Formals.mono {f f' : Formal} (formals : w.Formals f f') (le : w.Within w') :
    w'.Formals f f' := by
  cases formals with
  | plain names => exact .plain (names.mono le)
  | rest names => exact .rest (names.mono le)

theorem World.Formals.name {f f' : Formal} (formals : w.Formals f f') :
    w.Names f.name f'.name := by
  cases formals with
  | plain names => exact names
  | rest names => exact names

theorem World.Frames.mono {f f' : Frame} (frames : w.Frames f f') (le : w.Within w') :
    w'.Frames f f' := frames.imp fun _ _ formals => formals.mono le

theorem World.Scopes.mono {s s' : List Frame} (scopes : w.Scopes s s') (le : w.Within w') :
    w'.Scopes s s' := scopes.imp fun _ _ frames => World.Frames.mono frames le

theorem World.Names.eq_iff {i i' j j' : Symbol} (first : w.Names i j) (second : w.Names i' j') :
    i = i' ↔ j = j' := by
  constructor
  · rintro rfl
    exact first.functional second
  · rintro rfl
    exact first.inj second

theorem find?_rel {f f' : Frame} {i j : Symbol} (frames : w.Frames f f') (names : w.Names i j) :
    Option.Rel (fun p q => p.1 = q.1 ∧ w.Formals p.2 q.2) (f.find? i) (f'.find? j) := by
  induction frames with
  | nil => exact .none
  | @cons g g' gs gs' first _ ih =>
    rw [Frame.find?, Frame.find?]
    have same := first.name.eq_iff names
    by_cases here : g.name = i
    · rw [if_pos here, if_pos (same.mp here)]
      exact .some ⟨rfl, first⟩
    · rw [if_neg here, if_neg fun there => here (same.mpr there)]
      generalize Frame.find? gs i = x at ih ⊢
      generalize Frame.find? gs' j = y at ih ⊢
      cases ih with
      | none => exact .none
      | some both => exact .some ⟨congrArg (· + 1) both.1, both.2⟩

theorem locate?_rel {s s' : List Frame} {i j : Symbol} (scopes : w.Scopes s s')
    (names : w.Names i j) :
    Option.Rel w.Places (Frame.locate? s i) (Frame.locate? s' j) := by
  induction scopes with
  | nil => exact .none
  | @cons f f' fs fs' first _ ih =>
    rw [Frame.locate?, Frame.locate?]
    have found := find?_rel first names
    generalize Frame.find? f i = x at found ⊢
    generalize Frame.find? f' j = y at found ⊢
    cases found with
    | some both => exact .some ⟨rfl, both.1, both.2⟩
    | none =>
      generalize Frame.locate? fs i = x at ih ⊢
      generalize Frame.locate? fs' j = y at ih ⊢
      cases ih with
      | none => exact .none
      | some places =>
        exact .some ⟨congrArg (· + 1) places.depth, places.index, places.formals⟩

theorem slotIn?_eq {t t' : List Symbol} {i j : Symbol} (tables : List.Forall₂ w.Names t t')
    (names : w.Names i j) : Globals.slotIn? t i = Globals.slotIn? t' j := by
  suffices t.idxOf? i = t'.idxOf? j by rw [Globals.slotIn?, Globals.slotIn?, this]
  induction tables with
  | nil => rfl
  | @cons a b _ _ first _ ih =>
    rw [List.idxOf?_cons, List.idxOf?_cons, ih]
    have same : (a == i) = (b == j) := by
      rw [Bool.eq_iff_iff, beq_iff_eq, beq_iff_eq]
      exact first.eq_iff names
    rw [same]

/-- Both sides refuse for the same reason, or accept. -/
inductive Checks {α β : Type} (Q : α → β → Prop) :
    Except CompileError α → Except CompileError β → Prop where
  | ok {a : α} {b : β} (values : Q a b) : Checks Q (.ok a) (.ok b)
  | error (e : CompileError) : Checks Q (.error e) (.error e)

theorem Checks.bind {α β γ δ : Type} {P : α → β → Prop} {Q : γ → δ → Prop}
    {x : Except CompileError α} {y : Except CompileError β} {f : α → Except CompileError γ}
    {g : β → Except CompileError δ} (first : Checks P x y)
    (next : ∀ a b, P a b → Checks Q (f a) (g b)) : Checks Q (x >>= f) (y >>= g) := by
  cases first with
  | ok values => exact next _ _ values
  | error e => exact .error e

theorem annotated_checks {form : String} {x y : Option (List Value)}
    (pinned : w.left = left ∧ w.right = right) (items : Option.Rel (List.Forall₂ w.Values) x y) :
    Checks w.Names (Frame.annotated left form x) (Frame.annotated right form y) := by
  obtain ⟨rfl, rfl⟩ := pinned
  rcases items with ⟨items⟩ | _
  · rcases items with _ | ⟨first, _ | ⟨second, _ | _⟩⟩
    · exact .error _
    · cases first <;> exact .error _
    · cases first with
      | ident name =>
        cases second with
        | @ident i j marker =>
          rw [Frame.annotated, Frame.annotated]
          have same := marker.eq_wellKnown_iff (k := .rest) (by decide)
          by_cases here : i = Symbol.rest
          · rw [if_pos here, if_pos (same.mp here)]
            exact .ok name
          · rw [if_neg here, if_neg fun there => here (same.mpr there), name.same, marker.same]
            exact .error _
        | _ => exact .error _
      | _ => cases second <;> exact .error _
    · cases first <;> cases second <;> exact .error _
  · exact .error _

theorem ofItems_checks {form : String} {items items' : List Value}
    (pinned : w.left = left ∧ w.right = right) (heaps : w.Heaps h h')
    (all : List.Forall₂ w.Values items items') :
    Checks w.Frames (Frame.ofItems h left form items) (Frame.ofItems h' right form items') := by
  induction all with
  | nil => exact .ok .nil
  | cons first others ih =>
    cases first with
    | @ident i j name =>
      unfold Frame.ofItems
      have same := name.eq_wellKnown_iff (k := .rest) (by decide)
      by_cases here : i = .rest
      · rw [if_pos here, if_pos (same.mp here)]
        cases others with
        | nil => exact .error _
        | cons second others =>
          cases others with
          | nil =>
            cases second with
            | ident last => exact .ok (.cons (.rest last) .nil)
            | _ => exact .error _
          | cons _ _ => cases second <;> exact .error _
      · rw [if_neg here, if_neg fun there => here (same.mpr there)]
        exact ih.bind fun _ _ frames => .ok (List.Forall₂.cons (.plain name) frames)
    | @pair a b cells =>
      rw [Frame.ofItems, Frame.ofItems]
      refine (annotated_checks pinned (heaps.toList? (.pair cells))).bind fun i j name => ?_
      cases others with
      | nil => exact .ok (.cons (.rest name) .nil)
      | cons _ _ => exact .error _
    | _ => exact .error _

theorem ofParameters_checks {form : String} (pinned : w.left = left ∧ w.right = right)
    (heaps : w.Heaps h h') (values : w.Values v v') :
    Checks w.Frames (Frame.ofParameters h left form v) (Frame.ofParameters h' right form v') := by
  rw [Frame.ofParameters, Frame.ofParameters]
  have items := heaps.toList? values
  generalize h.toList? v = x at items ⊢
  generalize h'.toList? v' = y at items ⊢
  cases items with
  | none => exact .error _
  | some items => exact ofItems_checks pinned heaps items

theorem ofNames_checks {form : String} {items items' : List Value}
    (all : List.Forall₂ w.Values items items') :
    Checks w.Frames (Frame.ofNames form items) (Frame.ofNames form items') := by
  induction all with
  | nil => exact .ok .nil
  | cons first _ ih =>
    cases first with
    | ident name => exact ih.bind fun _ _ frames => .ok (List.Forall₂.cons (.plain name) frames)
    | _ => exact .error _

structure World.Bindings (w : World) (p q : Frame × List Value × Value) : Prop where
  frames : w.Frames p.1 q.1
  values : List.Forall₂ w.Values p.2.1 q.2.1
  body : w.Values p.2.2 q.2.2

theorem ofBindings_checks {form : String} {items items' : List Value} (heaps : w.Heaps h h')
    (all : List.Forall₂ w.Values items items') :
    Checks w.Bindings (Frame.ofBindings h form items) (Frame.ofBindings h' form items') := by
  rcases all with _ | ⟨names, _ | ⟨values, _ | ⟨body, _ | ⟨_, _⟩⟩⟩⟩
  · exact .error _
  · exact .error _
  · exact .error _
  · rw [Frame.ofBindings, Frame.ofBindings]
    have bound := heaps.toList? names
    have given := heaps.toList? values
    generalize h.toList? _ = x at bound ⊢
    generalize h'.toList? _ = y at bound ⊢
    cases bound with
    | none => exact .error _
    | some bound =>
      generalize h.toList? _ = x at given ⊢
      generalize h'.toList? _ = y at given ⊢
      cases given with
      | none => exact .error _
      | some given =>
        dsimp only
        rw [bound.length_eq, given.length_eq]
        split
        · exact .error _
        · exact (ofNames_checks bound).bind fun _ _ frames => .ok ⟨frames, given, body⟩
  · exact .error _

end Parallel

end SecdLisp
