import SecdLisp.Proofs.Addressing

/-!
# Parameter lists

A parameter list has plain names, and behind them there may be one rest parameter, with its marker
in front of it or in a pair with it. Any other list has a first place where it goes wrong, and that
place says how it is refused.
-/

namespace SecdLisp

namespace Frame

/-- The frame of some plain parameters and, behind them, of a rest parameter if there is one. -/
def listing (names : List Symbol) (rest : Option Symbol) : Frame :=
  names.map .plain ++ (rest.map .rest).toList

/-- How a parameter list goes on behind its plain names: it ends, or it has a rest parameter in one
of the two spellings. Every name can be the name of a rest parameter, even the marker. -/
inductive Ending (h : Heap) : Option Symbol → List Value → Prop where
  | none : Ending h none []
  | marked {name : Symbol} : Ending h (some name) [.ident .rest, .ident name]
  | annotated {a : Addr} {name : Symbol} (items : h.Lists (.pair a) [.ident name, .ident .rest]) :
    Ending h (some name) [.pair a]

/-- The value lists these plain names, and then this rest parameter if there is one. -/
def Declares (h : Heap) (v : Value) (names : List Symbol) (rest : Option Symbol) : Prop :=
  .rest ∉ names ∧ ∃ ending, Ending h rest ending ∧ h.Lists v (names.map .ident ++ ending)

/-- What is wrong with a parameter list where its plain names end. -/
inductive Flaw (h : Heap) (symbols : SymbolTable) (form : String) :
    List Value → CompileError → Prop where
  | marker {later : List Value} (notOneName : ∀ name, later ≠ [.ident name]) :
    Flaw h symbols form (.ident .rest :: later) (.malformed form .restNotOneName)
  | otherMarker {a : Addr} {name marker : Symbol} {later : List Value}
    (items : h.Lists (.pair a) [.ident name, .ident marker]) (other : marker ≠ .rest) :
    Flaw h symbols form (.pair a :: later)
      (.invalidFormal (symbols.name name) (symbols.name marker))
  | shape {a : Addr} {later : List Value}
    (notTwoNames : ∀ name marker, ¬h.Lists (.pair a) [.ident name, .ident marker]) :
    Flaw h symbols form (.pair a :: later) (.malformed form .annotationShape)
  | notLast {a : Addr} {name : Symbol} {later : List Value}
    (items : h.Lists (.pair a) [.ident name, .ident .rest]) (more : later ≠ []) :
    Flaw h symbols form (.pair a :: later) (.malformed form .restNotLast)
  | atom {v : Value} {later : List Value} (noName : ∀ name, v ≠ .ident name)
    (noPair : ∀ a, v ≠ .pair a) :
    Flaw h symbols form (v :: later) (.malformed form (.parameterNotName v.kind))

/-- Why a value is refused as a parameter list: it is no list, or it has plain names and then
something that is wrong. -/
inductive Refused (h : Heap) (symbols : SymbolTable) (form : String) (v : Value) :
    CompileError → Prop where
  | improper (noList : ∀ items, ¬h.Lists v items) :
    Refused h symbols form v (.malformed form .parametersNotList)
  | flawed {names : List Symbol} {tail : List Value} {e : CompileError} (plain : .rest ∉ names)
    (items : h.Lists v (names.map .ident ++ tail)) (flaw : Flaw h symbols form tail e) :
    Refused h symbols form v e

variable {h : Heap} {symbols : SymbolTable} {form : String} {v : Value} {items tail : List Value}
  {names : List Symbol} {rest : Option Symbol} {e : CompileError}

/-- Plain names are taken one by one, and then the rest of the list decides. -/
theorem ofItems_append (plain : .rest ∉ names) (tail : List Value) :
    ofItems h symbols form (names.map .ident ++ tail) =
      (names.map .plain ++ ·) <$> ofItems h symbols form tail := by
  induction names with
  | nil => simp
  | cons name names ih =>
    rw [List.mem_cons, not_or] at plain
    rw [List.map_cons, List.cons_append, ofItems.eq_def]
    dsimp only
    rw [if_neg (Ne.symm plain.1), ih plain.2]
    cases ofItems h symbols form tail <;> rfl

theorem ofItems_of_ending (ending : Ending h rest tail) :
    ofItems h symbols form tail = .ok (rest.map .rest).toList := by
  cases ending with
  | none => rfl
  | marked => rfl
  | annotated items =>
    rw [ofItems, items.toList?]
    rfl

theorem ofItems_of_flaw (closed : h.Closed) (owned : ∀ v ∈ tail, h.Owns v)
    (flaw : Flaw h symbols form tail e) : ofItems h symbols form tail = .error e := by
  cases flaw with
  | @marker later notOneName =>
    rw [ofItems, if_pos rfl]
    · rfl
    · exact notOneName
  | otherMarker items other =>
    rw [ofItems, items.toList?, annotated, if_neg other]
    rfl
  | @shape a later notTwoNames =>
    have owns := owned (.pair a) List.mem_cons_self
    rw [ofItems]
    unfold annotated
    split
    next name marker found =>
      exact absurd ((Heap.toList?_eq_some_iff closed owns).mp found) (notTwoNames name marker)
    next => rfl
  | @notLast a name later items more =>
    rw [ofItems, items.toList?, annotated, if_pos rfl]
    cases later with
    | nil => exact absurd rfl more
    | cons _ _ => rfl
  | @atom v later noName noPair =>
    cases v with
    | ident name => exact absurd rfl (noName name)
    | pair a => exact absurd rfl (noPair a)
    | _ => rfl

/-- Behind the plain names that a list starts with, it is complete or something is wrong. -/
theorem exists_ending_or_flaw (h : Heap) (symbols : SymbolTable) (form : String)
    (items : List Value) : ∃ (names : List Symbol) (tail : List Value),
      .rest ∉ names ∧ items = names.map .ident ++ tail ∧
      ((∃ rest, Ending h rest tail) ∨ ∃ e, Flaw h symbols form tail e) := by
  induction items with
  | nil => exact ⟨[], [], List.not_mem_nil, rfl, .inl ⟨_, .none⟩⟩
  | cons item items ih =>
    cases item with
    | ident name =>
      -- Only a name that is not the marker is plain; every other element ends the plain names.
      by_cases marker : name = .rest
      · subst marker
        refine ⟨[], .ident .rest :: items, List.not_mem_nil, rfl, ?_⟩
        by_cases one : ∃ name, items = [.ident name]
        · obtain ⟨name, rfl⟩ := one
          exact .inl ⟨_, .marked⟩
        · exact .inr ⟨_, .marker fun name eq => one ⟨name, eq⟩⟩
      · obtain ⟨names, tail, plain, rfl, state⟩ := ih
        refine ⟨name :: names, tail, ?_, rfl, state⟩
        rw [List.mem_cons, not_or]
        exact ⟨Ne.symm marker, plain⟩
    | pair a =>
      refine ⟨[], .pair a :: items, List.not_mem_nil, rfl, ?_⟩
      by_cases two : ∃ name marker, h.Lists (.pair a) [.ident name, .ident marker]
      · obtain ⟨name, marker, list⟩ := two
        by_cases other : marker = .rest
        · subst other
          cases items with
          | nil => exact .inl ⟨_, .annotated list⟩
          | cons next later => exact .inr ⟨_, .notLast list (List.cons_ne_nil next later)⟩
        · exact .inr ⟨_, .otherMarker list other⟩
      · exact .inr ⟨_, .shape fun name marker list => two ⟨name, marker, list⟩⟩
    | _ => exact ⟨[], _, List.not_mem_nil, rfl, .inr ⟨_, .atom nofun nofun⟩⟩

theorem ofParameters_of_declares (declares : Declares h v names rest) :
    ofParameters h symbols form v = .ok (listing names rest) := by
  obtain ⟨plain, tail, ending, items⟩ := declares
  simp only [ofParameters, items.toList?]
  rw [ofItems_append plain, ofItems_of_ending ending]
  rfl

theorem ofParameters_of_refused (closed : h.Closed) (owns : h.Owns v)
    (refused : Refused h symbols form v e) : ofParameters h symbols form v = .error e := by
  cases refused with
  | improper noList =>
    rw [ofParameters]
    cases found : h.toList? v with
    | none => rfl
    | some items => exact absurd ((Heap.toList?_eq_some_iff closed owns).mp found) (noList items)
  | flawed plain items flaw =>
    have owned := Heap.forall_toList? (fun a _ => closed a) owns items.toList?
    simp only [ofParameters, items.toList?]
    rw [ofItems_append plain, ofItems_of_flaw closed (List.forall_mem_append.mp owned).2 flaw]
    rfl

/-- Every value is a parameter list or has a reason why it is none. -/
theorem declares_or_refused (h : Heap) (symbols : SymbolTable) (form : String) (v : Value) :
    (∃ names rest, Declares h v names rest) ∨ ∃ e, Refused h symbols form v e := by
  by_cases list : ∃ items, h.Lists v items
  · obtain ⟨items, list⟩ := list
    obtain ⟨names, tail, plain, rfl, ⟨rest, ending⟩ | ⟨e, flaw⟩⟩ :=
      exists_ending_or_flaw h symbols form items
    · exact .inl ⟨names, rest, plain, tail, ending, list⟩
    · exact .inr ⟨e, .flawed plain list flaw⟩
  · exact .inr ⟨_, .improper fun items items' => list ⟨items, items'⟩⟩

theorem ofParameters_eq_ok_iff (closed : h.Closed) (owns : h.Owns v) {frame : Frame} :
    ofParameters h symbols form v = .ok frame ↔
      ∃ names rest, Declares h v names rest ∧ frame = listing names rest := by
  constructor
  · intro taken
    rcases declares_or_refused h symbols form v with ⟨names, rest, declares⟩ | ⟨e, refused⟩
    · rw [ofParameters_of_declares declares] at taken
      exact ⟨names, rest, declares, (Except.ok.inj taken).symm⟩
    · rw [ofParameters_of_refused closed owns refused] at taken
      cases taken
  · rintro ⟨names, rest, declares, rfl⟩
    exact ofParameters_of_declares declares

theorem ofParameters_eq_error_iff (closed : h.Closed) (owns : h.Owns v) :
    ofParameters h symbols form v = .error e ↔ Refused h symbols form v e := by
  refine ⟨fun failed => ?_, ofParameters_of_refused closed owns⟩
  rcases declares_or_refused h symbols form v with ⟨names, rest, declares⟩ | ⟨e', refused⟩
  · rw [ofParameters_of_declares declares] at failed
    cases failed
  · rw [ofParameters_of_refused closed owns refused] at failed
    exact Except.error.inj failed ▸ refused

/-- A value is taken as a parameter list exactly if it lists plain names and behind them at most one
rest parameter in either spelling, and its frame says just that. Otherwise the first element that
goes wrong decides: a pair of two names without the marker is reported by both names, and for
everything else the form is called malformed. -/
theorem parameters_exact (closed : h.Closed) (owns : h.Owns v) (symbols : SymbolTable)
    (form : String) :
    (∀ frame, ofParameters h symbols form v = .ok frame ↔
      ∃ names rest, Declares h v names rest ∧ frame = listing names rest) ∧
    (∀ frame, ofParameters h symbols form v = .ok frame → frame.RestLast) ∧
    (∀ w names rest, Declares h v names rest → Declares h w names rest →
      ofParameters h symbols form v = ofParameters h symbols form w) ∧
    (∀ name marker, ofParameters h symbols form v = .error (.invalidFormal name marker) ↔
      ∃ (names : List Symbol) (a : Addr) (later : List Value) (i j : Symbol), .rest ∉ names ∧
        h.Lists v (names.map .ident ++ .pair a :: later) ∧
        h.Lists (.pair a) [.ident i, .ident j] ∧ j ≠ .rest ∧
        name = symbols.name i ∧ marker = symbols.name j) ∧
    ∀ e, ofParameters h symbols form v = .error e →
      (∃ name marker, e = .invalidFormal name marker) ∨ ∃ reason, e = .malformed form reason := by
  refine ⟨fun frame => ofParameters_eq_ok_iff closed owns, ?_, ?_, ?_, ?_⟩
  · intro frame taken
    exact restLast_ofParameters taken
  · intro w names rest declares declares'
    rw [ofParameters_of_declares declares, ofParameters_of_declares declares']
  · intro name marker
    rw [ofParameters_eq_error_iff closed owns]
    constructor
    · intro refused
      cases refused with
      | flawed plain items flaw =>
        cases flaw with
        | otherMarker pair other => exact ⟨_, _, _, _, _, plain, items, pair, other, rfl, rfl⟩
    · rintro ⟨names, a, later, i, j, plain, items, pair, other, rfl, rfl⟩
      exact .flawed plain items (.otherMarker pair other)
  · intro e failed
    cases (ofParameters_eq_error_iff closed owns).mp failed with
    | improper => exact .inr ⟨_, rfl⟩
    | flawed _ _ flaw =>
      cases flaw with
      | otherMarker => exact .inl ⟨_, _, rfl⟩
      | _ => exact .inr ⟨_, rfl⟩

/-- The lists `(x (y &rest))`, `(x &rest y)` and `(x (y x))`, where `x` and `y` are the names with
the numbers 24 and 25. -/
def spellings : Heap :=
  ⟨#[⟨.ident .rest, .nil⟩, ⟨.ident 25, .pair 0⟩, ⟨.pair 1, .nil⟩, ⟨.ident 24, .pair 2⟩,
    ⟨.ident 25, .nil⟩, ⟨.ident .rest, .pair 4⟩, ⟨.ident 24, .pair 5⟩,
    ⟨.ident 24, .nil⟩, ⟨.ident 25, .pair 7⟩, ⟨.pair 8, .nil⟩, ⟨.ident 24, .pair 9⟩],
    11, by decide, by decide⟩

theorem closed_spellings : spellings.Closed := by
  rintro (_ | _ | _ | _ | _ | _ | _ | _ | _ | _ | _ | a)
  all_goals refine ⟨fun b eq => ?_, fun b eq => ?_⟩ <;> cases eq <;> decide

/-- The table in which `x` and `y` have these numbers. -/
def withSpellings : SymbolTable := ((SymbolTable.initial.intern "x").2.intern "y").2

theorem parameters_exact_spellings :
    spellings.Closed ∧ spellings.Owns (.pair 3) ∧ spellings.Owns (.pair 10) ∧
    ofParameters spellings withSpellings "fn" (.pair 3) = .ok [.plain 24, .rest 25] ∧
    ofParameters spellings withSpellings "fn" (.pair 3) =
      ofParameters spellings withSpellings "fn" (.pair 6) ∧
    ofParameters spellings withSpellings "fn" (.pair 10) =
      .error (.invalidFormal "y" "x") := by
  have owns : spellings.Owns (.pair 3) := fun a eq => by cases eq; decide
  have owns' : spellings.Owns (.pair 10) := fun a eq => by cases eq; decide
  have behind : Declares spellings (.pair 3) [24] (some 25) :=
    ⟨by decide, [.pair 1], .annotated ⟨[1, 0], .cons (by decide) (.cons (by decide) .nil), rfl⟩,
      [3, 2], .cons (by decide) (.cons (by decide) .nil), rfl⟩
  have before : Declares spellings (.pair 6) [24] (some 25) :=
    ⟨by decide, [.ident .rest, .ident 25], .marked,
      [6, 5, 4], .cons (by decide) (.cons (by decide) (.cons (by decide) .nil)), rfl⟩
  obtain ⟨taken, _, same, _⟩ := parameters_exact closed_spellings owns withSpellings "fn"
  obtain ⟨_, _, _, reported, _⟩ := parameters_exact closed_spellings owns' withSpellings "fn"
  refine ⟨closed_spellings, owns, owns', (taken _).mpr ⟨_, _, behind, rfl⟩,
    same _ _ _ behind before, (reported _ _).mpr ⟨[24], 8, [], 25, 24, by decide, ?_, ?_, ?_⟩⟩
  · exact ⟨[10, 9], .cons (by decide) (.cons (by decide) .nil), rfl⟩
  · exact ⟨[8, 7], .cons (by decide) (.cons (by decide) .nil), rfl⟩
  · exact ⟨by decide, by decide +kernel, by decide +kernel⟩

end Frame

end SecdLisp
