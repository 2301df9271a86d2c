import SecdLisp.Proofs.Contract
import SecdLisp.Proofs.Graph
import SecdLisp.Text.Form

/-!
# What reading keeps

A reader puts what it reads together from atoms, cell by cell. So it keeps every contract that a new
cell keeps, and that a new name keeps; and what it reads has every property that pairs have if their
halves have it.
-/

namespace SecdLisp

open Contract

namespace Contract

variable {W : Type}

/-- The part of a contract of readers that is about their heap. -/
def below (C : Contract W Reading) (source : Source) (symbols : SymbolTable) : Contract W Heap where
  le := C.le
  holds w h := C.holds w ⟨source, h, symbols⟩
  error := C.error
  refl := C.refl
  trans := C.trans

end Contract

namespace Reading

/-- What makes a contract and a property of values one of reading. -/
structure Takes {W : Type} (C : Contract W Reading) (P : W → Value → Prop) : Prop where
  later : ∀ {w w' v}, C.le w w' → P w v → P w' v
  error : ∀ w cause, C.error w (.parse cause)
  source : ∀ {w r} source, C.holds w r → ∃ w', C.le w w' ∧ C.holds w' { r with source }
  nil : ∀ w, P w .nil
  truth : ∀ w, P w .truth
  int : ∀ w n, P w (.int n)
  wellKnown : ∀ w, ∀ name < Symbol.wellKnown.length, P w (.ident name)
  intern : ∀ w name, C.Keeps w (fun w i => P w (.ident i)) (intern name)
  cons : ∀ {w car cdr} source symbols, P w car → P w cdr →
    (C.below source symbols).Keeps w P (Heap.cons car cdr)
  halves : ∀ {w r a}, C.holds w r → P w (.pair a) → P w (r.heap.car a) ∧ P w (r.heap.cdr a)

variable {W α : Type} {C : Contract W Reading} {P : W → Value → Prop} {p : W → α → Prop} {w : W}
  {v : Value} {source : Source} {symbols : SymbolTable}

theorem ends_onHeap {x : HeapM α} {r : Reading} {p : α → Reading → Prop}
    {q : Error → Reading → Prop} : Ends (onHeap x) r p q ↔
      Ends x r.heap (fun a h => p a { r with heap := h }) fun e h => q e { r with heap := h } := by
  obtain ⟨source, h, symbols⟩ := r
  unfold Ends onHeap
  dsimp only
  cases x h <;> exact .rfl

theorem keeps_onHeap {x : HeapM α}
    (keeps : ∀ source symbols, (C.below source symbols).Keeps w p x) :
    C.Keeps w p (onHeap x) := by
  intro r holds
  exact ends_onHeap.mpr (keeps r.source r.symbols r.heap holds)

namespace Takes

variable (takes : Takes C P)

include takes

theorem keeps_list {vs : List Value} (known : ∀ v ∈ vs, P w v) :
    (C.below source symbols).Keeps w P (Heap.list vs) :=
  keeps_foldrM (p := P) (r := P) known (fun _ _ => takes.later) (takes.nil w)
    fun _ _ _ _ => takes.cons source symbols

theorem keeps_quoted (known : P w v) :
    (C.below source symbols).Keeps w P (Template.quoted v) := by
  refine takes.keeps_list ?_
  simp only [List.forall_mem_cons]
  exact ⟨takes.wellKnown w _ (by decide), known, nofun⟩

theorem keeps_unquoted (known : P w v) :
    (C.below source symbols).Keeps w P (Template.unquoted v) :=
  (takes.cons source symbols known (takes.nil w)).bind fun w₁ _ _ rest =>
    takes.cons source symbols (takes.wellKnown w₁ _ (by decide)) rest

theorem keeps_expandWithin (height : Nat) (known : P w v) :
    (C.below source symbols).Keeps w P (Template.expandWithin height v) := by
  have refused (w : W) (cause : ParseError) :
      (C.below source symbols).Keeps w P (throw (.parse cause) : HeapM Value) :=
    keeps_throw (takes.error w cause)
  induction height generalizing w v with
  | zero => exact refused w _
  | succ height ih =>
    cases v with
    | pair a =>
      unfold Template.expandWithin
      refine keeps_seen_bind fun h holds => ?_
      split
      · refine keeps_seen_bind fun h holds => ?_
        cases found : h.carOf? (h.cdr a) with
        | none => exact refused w _
        | some u =>
          have next := (takes.halves holds known).2
          obtain ⟨b, eq, rfl⟩ := Option.map_eq_some_iff.mp found
          cases link : h.cdr a <;> rw [link] at eq next <;> cases eq
          exact keeps_pure (takes.halves holds next).1
      · refine keeps_seen_bind fun h holds => ?_
        cases found : h.toList? (.pair a) with
        | none => exact refused w _
        | some items =>
          have all := Heap.forall_toList? (fun _ => takes.halves holds) known found
          refine keeps_foldrM (p := P) (r := P) all (fun _ _ => takes.later) (takes.nil w) ?_
          intro w₁ item built _ knownItem knownBuilt
          refine (ih knownItem).bind fun w₂ expanded later knownExpanded => takes.keeps_list ?_
          simp only [List.forall_mem_cons]
          exact ⟨takes.wellKnown w₂ _ (by decide), knownExpanded,
            takes.later later knownBuilt, nofun⟩
    | _ => exact takes.keeps_quoted known

theorem keeps_expand (known : P w v) : (C.below source symbols).Keeps w P (Template.expand v) :=
  keeps_seen_bind fun _ _ => takes.keeps_expandWithin _ known

theorem keeps_fail (cause : ParseError) : C.Keeps w p (fail cause : ReadM α) :=
  keeps_throw (takes.error w cause)

theorem keeps_next? : C.Keeps w (fun _ _ => True) next? := by
  rintro ⟨source, h, symbols⟩ holds
  unfold next? Ends
  dsimp only
  cases Token.next? source with
  | ok t rest =>
    obtain ⟨w', le, holds'⟩ := takes.source rest holds
    exact ⟨w', le, holds', trivial⟩
  | error cause rest =>
    obtain ⟨w', le, holds'⟩ := takes.source rest holds
    exact ⟨w', le, holds', takes.error w' cause⟩

theorem keeps_next : C.Keeps w (fun _ _ => True) next := by
  refine takes.keeps_next?.bind fun _ t _ _ => ?_
  cases t with
  | some t => exact keeps_pure trivial
  | none => exact takes.keeps_fail _

theorem keeps_peek? : C.Keeps w (fun _ _ => True) peek? := by
  intro r holds
  unfold peek? Ends
  dsimp only
  cases Token.peek? r.source with
  | ok t => exact ⟨w, C.refl w, holds, trivial⟩
  | error cause => exact ⟨w, C.refl w, holds, takes.error w cause⟩

theorem keeps_atom (word : String) : C.Keeps w P (atom word) := by
  unfold atom
  split
  · exact keeps_pure (takes.nil w)
  · split
    · exact keeps_pure (takes.truth w)
    · exact (takes.intern w word).bind fun _ _ _ known => keeps_pure known

theorem keeps_elements {element : Token → ReadM Value} (keeps : ∀ w t, C.Keeps w P (element t))
    (bound : List Char) {read : List Value} (known : ∀ v ∈ read, P w v) :
    C.Keeps w (fun w vs => ∀ v ∈ vs, P w v) (elements element bound read) := by
  induction bound generalizing w read with
  | nil => exact takes.keeps_fail _
  | cons _ bound ih =>
    refine takes.keeps_next?.bind fun w₁ t later _ => ?_
    have known (v : Value) (mem : v ∈ read) := takes.later later (known v mem)
    have more (t : Token) : C.Keeps w₁ (fun w vs => ∀ v ∈ vs, P w v)
        (do elements element bound ((← element t) :: read)) := by
      refine (keeps w₁ t).bind fun w₂ v later₂ first => ih (List.forall_mem_cons.mpr ⟨first, ?_⟩)
      exact fun v mem => takes.later later₂ (known v mem)
    cases t with
    | none => exact takes.keeps_fail _
    | some t =>
      cases t with
      | closing => exact keeps_pure fun v mem => known v (List.mem_reverse.mp mem)
      | _ => exact more _

theorem keeps_unquote {datum : Token → ReadM Value} (keeps : ∀ w t, C.Keeps w P (datum t)) :
    C.Keeps w P (unquote datum) := by
  have work (w : W) : C.Keeps w P (do onHeap (Template.unquoted (← datum (← next)))) :=
    takes.keeps_next.bind fun w₁ t _ _ => (keeps w₁ t).bind fun w₂ v _ known =>
      keeps_onHeap fun _ _ => takes.keeps_unquoted known
  refine takes.keeps_peek?.bind fun w₁ t _ _ => ?_
  dsimp only
  split
  · exact takes.keeps_fail _
  · exact work w₁

theorem keeps_datum (room templates : Nat) (token : Token) :
    C.Keeps w P (datum room templates token) := by
  induction room generalizing w templates token with
  | zero => exact takes.keeps_fail _
  | succ room ih =>
    cases token with
    | opening =>
      have bounds : C.Keeps w (fun _ _ => True) (fun r => .ok r.source.unread r) :=
        fun _ holds => ⟨w, C.refl w, holds, trivial⟩
      refine bounds.bind fun w₁ bound _ _ => ?_
      refine (takes.keeps_elements (fun w t => ih templates t) bound (by simp)).bind
        fun w₂ vs _ known => keeps_onHeap fun _ _ => takes.keeps_list known
    | closing => exact takes.keeps_fail _
    | quote =>
      exact takes.keeps_next.bind fun w₁ t _ _ => (ih templates t).bind fun w₂ v _ known =>
        keeps_onHeap fun _ _ => takes.keeps_quoted known
    | backquote =>
      exact takes.keeps_next.bind fun w₁ t _ _ => (ih (templates + 1) t).bind fun w₂ v _ known =>
        keeps_onHeap fun _ _ => takes.keeps_expand known
    | comma =>
      cases templates with
      | zero => exact takes.keeps_fail _
      | succ outer => exact takes.keeps_unquote fun w t => ih outer t
    | atSign => exact takes.keeps_fail _
    | int n => exact keeps_pure (takes.int w n)
    | ident word => exact takes.keeps_atom word

theorem keeps_form? : C.Keeps w (fun w found => ∀ v, found = some v → P w v) form? := by
  have ends : C.Keeps w (fun _ _ => True) atEnd := by
    rintro ⟨source, h, symbols⟩ holds
    obtain ⟨w', le, holds'⟩ := takes.source source.skipBlanks holds
    exact ⟨w', le, holds', trivial⟩
  refine ends.bind fun w₁ done _ _ => ?_
  cases done with
  | true => exact keeps_pure nofun
  | false =>
    refine takes.keeps_next.bind fun w₂ t _ _ => ?_
    refine (takes.keeps_datum maxNesting 0 t).bind fun w₃ v _ known => ?_
    exact keeps_pure fun w eq => Option.some.inj eq ▸ known

theorem keeps_form : C.Keeps w P form := by
  refine takes.keeps_form?.bind fun w₁ found _ known => ?_
  cases found with
  | some v => exact keeps_pure (known v rfl)
  | none => exact takes.keeps_fail _

end Takes

end Reading

end SecdLisp
