import SecdLisp.Proofs.Text.Grammar
import SecdLisp.Proofs.Text.Scanning

/-!
# Ways through a text

A text can be read form by form from the place where the last form ended, as a stream of forms, or
at once. The first way starts afresh at every place. All three find the same forms, make the same
cells and names and stop at the same place for the same reason, since what is read at a place
depends on the characters from there on alone.
-/

namespace SecdLisp

namespace Source

variable {text : String} {src src' : Source} {front cs : List Char}

theorem utf8ByteSize_ofList (cs : List Char) : (String.ofList cs).utf8ByteSize = byteLength cs := by
  induction cs with
  | nil => rfl
  | cons c cs ih =>
    rw [byteLength_cons, ← ih, ← List.singleton_append, String.ofList_append,
      String.utf8ByteSize_append, ← String.singleton_eq_ofList, String.utf8ByteSize_singleton]

theorem dropBytes?_byteLength (front back : List Char) :
    dropBytes? (front ++ back) (byteLength front) = some back := by
  induction front with
  | nil => cases back <;> rfl
  | cons c front ih =>
    have some := byteLength_pos (List.cons_ne_nil c front)
    rw [List.cons_append, dropBytes?.eq_3 _ _ _ (Nat.ne_of_gt some), byteLength_cons,
      if_pos (Nat.le_add_right ..), Nat.add_sub_cancel_left, ih]

/-- Where a reader comes to in a text, it can start from there. -/
theorem ofStringAt?_of_passes (passes : (ofString text).Passes front src) :
    ofStringAt? text src.offset = some src := by
  obtain ⟨o, unread⟩ := src
  obtain ⟨characters, place⟩ := passes
  simp only [ofString, Nat.zero_add] at characters place
  rw [ofStringAt?, characters, place, dropBytes?_byteLength]
  rfl

theorem isValid_of_passes (passes : (ofString text).Passes front src) :
    (⟨src.offset⟩ : String.Pos.Raw).IsValid text := by
  obtain ⟨characters, place⟩ := passes
  simp only [ofString, Nat.zero_add] at characters place
  rw [String.Pos.Raw.isValid_iff_exists_append]
  refine ⟨String.ofList front, String.ofList src.unread, ?_, ?_⟩
  · rw [← String.ofList_append, ← characters, String.ofList_toList]
  · rw [String.Pos.Raw.ext_iff, String.byteIdx_rawEndPos, utf8ByteSize_ofList, place]

end Source

namespace Reading

open Token (Reads)

/-- Reading form by form, each from the place where the one before it ended. What is recorded of a
form is its value, the place behind it and what the reader has by then. -/
inductive Visits (text : String) :
    Nat → Reading → List (Value × Nat × Reading) → Option Error → Reading → Prop where
  | done {o : Nat} {r last : Reading} (run : formAt? text o r = .ok none last) :
    Visits text o r [] none last
  | failed {o : Nat} {r last : Reading} {e : Error} (run : formAt? text o r = .error e last) :
    Visits text o r [] (some e) last
  | form {o o' : Nat} {r r' last : Reading} {v : Value} {found : List (Value × Nat × Reading)}
    {ending : Option Error} (run : formAt? text o r = .ok (some (v, o')) r')
    (later : Visits text o' r' found ending last) :
    Visits text o r ((v, o', r') :: found) ending last

end Reading

/-- Taking form after form from a stream. The place of a stream is that of its reader. -/
inductive FormStream.Yields :
    FormStream → List (Value × Nat × Reading) → Option Error → FormStream → Prop where
  | done {s last : FormStream} (run : s.next? = (none, last)) : Yields s [] none last
  | failed {s last : FormStream} {e : Error} (run : s.next? = (some (.error e), last)) :
    Yields s [] (some e) last
  | form {s s' last : FormStream} {v : Value} {found : List (Value × Nat × Reading)}
    {ending : Option Error} (run : s.next? = (some (.ok v), s'))
    (later : Yields s' found ending last) :
    Yields s ((v, s'.reading.source.offset, s'.reading) :: found) ending last

namespace Reading

open Token (Reads)

variable {text : String} {r r' last : Reading} {front : List Char} {c : Char} {bound : List Char}
  {v : Value} {e : Error} {found : List (Value × Nat × Reading)} {ending : Option Error}

/-- How reading at once ends where reading form by form finds these values and ends so. -/
def outcome (vs : List Value) : Option Error → Reading → EStateM.Result Error Reading (List Value)
  | none, last => .ok vs last
  | some e, last => .error e last

/-- All ways from the place of a reader on, where a list of characters bounds the number of
forms. -/
structure Passage (text : String) (bound : List Char) (r : Reading)
    (found : List (Value × Nat × Reading)) (ending : Option Error) (last : Reading) : Prop where
  visits : Visits text r.source.offset r found ending last
  yields : FormStream.Yields ⟨r, false⟩ found ending ⟨last, ending.isSome⟩
  finished : FormStream.next? ⟨last, ending.isSome⟩ = (none, ⟨last, ending.isSome⟩)
  atOnce : ∀ read, formsWithin bound read r = outcome (read.reverse ++ found.map (·.1)) ending last
  increasing : (r.source.offset :: found.map (·.2.1)).Pairwise (· < ·)
  valid : ∀ o ∈ found.map (·.2.1), (⟨o⟩ : String.Pos.Raw).IsValid text
  inText : ∀ o, ending ≠ some (.parse (.notBoundary o))

theorem formAt?_eq (passes : (Source.ofString text).Passes front r.source) :
    formAt? text r.source.offset r = (do
      match ← form? with
      | some v => return some (v, ← fun r => .ok r.source.offset r)
      | none => return none : ReadM _) r := by
  obtain ⟨src, h, symbols⟩ := r
  have there : seek text src.offset ⟨src, h, symbols⟩ = .ok () ⟨src, h, symbols⟩ := by
    rw [seek, Source.ofStringAt?_of_passes passes]
  exact bind_of_eq_ok there

theorem Passage.done (passes : (Source.ofString text).Passes front r.source)
    (done : r.source.atEnd = true) :
    Passage text bound r [] none { r with source := r.source.skipBlanks } := by
  have run := moves_form? done r.heap r.symbols
  have again : r.source.skipBlanks.atEnd = true := by
    rwa [Source.atEnd, Source.skipBlanks_skipBlanks]
  have rerun := moves_form? again r.heap r.symbols
  rw [Source.skipBlanks_skipBlanks] at rerun
  constructor
  case visits =>
    refine .done ?_
    rw [formAt?_eq passes]
    exact bind_of_eq_ok run
  case yields =>
    refine .done ?_
    rw [FormStream.next?, if_neg Bool.false_ne_true, run]
    rfl
  case finished =>
    show FormStream.next? ⟨_, false⟩ = _
    rw [FormStream.next?, if_neg Bool.false_ne_true, rerun]
    rfl
  case atOnce =>
    intro read
    rw [formsWithin.eq_def]
    refine (bind_of_eq_ok run).trans ?_
    simp [outcome, pure, EStateM.pure]
  case increasing => simp
  case valid => simp
  case inText => simp

theorem Passage.failed (passes : (Source.ofString text).Passes front r.source)
    (run : form? r = .error e last) (inText : ∀ o, e ≠ .parse (.notBoundary o)) :
    Passage text (c :: bound) r [] (some e) last where
  visits := by
    refine .failed ?_
    rw [formAt?_eq passes]
    exact bind_of_eq_error run
  yields := by
    refine .failed ?_
    simp [FormStream.next?, run]
  finished := rfl
  atOnce read := by
    rw [formsWithin_cons]
    exact bind_of_eq_error run
  increasing := by simp
  valid := nofun
  inText o same := inText o (Option.some.inj same)

theorem Passage.form (passes : (Source.ofString text).Passes front r.source)
    (run : form? r = .ok (some v) r') (farther : r.source.offset < r'.source.offset)
    (passes' : ∃ front, (Source.ofString text).Passes front r'.source)
    (later : Passage text bound r' found ending last) :
    Passage text (c :: bound) r ((v, r'.source.offset, r') :: found) ending last where
  visits := by
    refine .form ?_ later.visits
    rw [formAt?_eq passes]
    exact bind_of_eq_ok run
  yields := by
    have next : FormStream.next? ⟨r, false⟩ = (some (.ok v), ⟨r', false⟩) := by
      simp [FormStream.next?, run]
    exact .form next later.yields
  finished := later.finished
  atOnce read := by
    rw [formsWithin_cons]
    refine (bind_of_eq_ok run).trans ?_
    simpa using later.atOnce (v :: read)
  increasing := by
    have increasing := later.increasing
    simp only [List.map_cons, List.pairwise_cons, List.mem_cons] at increasing ⊢
    refine ⟨?_, increasing⟩
    rintro o (rfl | mem)
    · exact farther
    · exact Nat.lt_trans farther (increasing.1 o mem)
  valid := by
    obtain ⟨front, passes'⟩ := passes'
    exact List.forall_mem_cons.mpr ⟨Source.isValid_of_passes passes', later.valid⟩
  inText := later.inText

/-- All ways from one place of a text on are the same. -/
theorem exists_passage (passes : (Source.ofString text).Passes front r.source)
    (enough : r.source.unread.length ≤ bound.length) :
    ∃ found ending last, Passage text bound r found ending last := by
  induction bound generalizing r front with
  | nil =>
    rw [List.length_nil, Nat.le_zero, List.length_eq_zero_iff] at enough
    have done : r.source.atEnd = true := by
      rw [Source.atEnd, Source.skipBlanks, enough]
      rfl
    exact ⟨_, _, _, .done passes done⟩
  | cons c bound ih =>
    have ends := form?_ends r
    cases run : form? r with
    | error e last =>
      refine ⟨_, _, _, .failed passes run ?_⟩
      rintro o rfl
      rcases ends.of_eq_error run with full | ⟨cause, same, syntactic⟩
      · cases full
      · cases same
        exact syntactic
    | ok v? r' =>
      have ends := ends.of_eq_ok run
      cases v? with
      | none => exact ⟨_, _, _, .done passes ends.1⟩
      | some v =>
        obtain ⟨p, reads⟩ := ends
        obtain ⟨t, ts, spelled, -, -⟩ := exists_tokens_eq_cons p
        obtain ⟨cs, more⟩ := reads.passes
        rw [spelled] at reads
        obtain ⟨d, rest, same, enough'⟩ := reads.exists_bound enough
        cases same
        have farther : r.source.offset < r'.source.offset := by
          have some : cs ≠ [] := by
            rintro rfl
            have shorter := reads.length_le
            have same := more.length_le
            rw [List.length_cons] at shorter
            rw [List.length_nil] at same
            omega
          have pos := byteLength_pos some
          rw [more.2]
          omega
        obtain ⟨found, ending, last, later⟩ := ih (passes.trans more) enough'
        exact ⟨_, _, _, .form passes run farther ⟨_, passes.trans more⟩ later⟩

/-- Reading form by form from the places found, taking forms from a stream and reading at once
agree on every text, heap and symbol table: on the values, on heap and names after each form, on
the places behind the forms and on the way it ends. A stream that has ended yields nothing more.
The places go up and are boundaries of characters, so that no place is refused; and from every
boundary on, the bytes that a word has are the text of that word. -/
theorem ways_agree (text : String) (h : Heap) (symbols : SymbolTable) : ∃ found ending last,
    Visits text 0 ⟨.ofString text, h, symbols⟩ found ending last ∧
    FormStream.Yields ⟨⟨.ofString text, h, symbols⟩, false⟩ found ending ⟨last, ending.isSome⟩ ∧
    FormStream.next? ⟨last, ending.isSome⟩ = (none, ⟨last, ending.isSome⟩) ∧
    forms ⟨.ofString text, h, symbols⟩ = outcome (found.map (·.1)) ending last ∧
    (0 :: found.map (·.2.1)).Pairwise (· < ·) ∧
    (∀ o ∈ found.map (·.2.1), (⟨o⟩ : String.Pos.Raw).IsValid text) ∧
    (∀ o, ending ≠ some (.parse (.notBoundary o))) ∧
    ∀ front back, text = front ++ back →
      Utf8.decode (Scanning.word (Scanning.skip false (Utf8.encode back))) =
        .ok (String.ofList ((Source.ofString back).skipBlanks.unread.takeWhile
          (!Token.isDelimiter ·))) := by
  have start : (Source.ofString text).Passes [] (Source.ofString text) := .refl _
  obtain ⟨found, ending, last, passage⟩ :=
    exists_passage (r := ⟨.ofString text, h, symbols⟩) start (Nat.le_refl _)
  have atOnce : forms ⟨.ofString text, h, symbols⟩ = outcome (found.map (·.1)) ending last :=
    passage.atOnce []
  exact ⟨found, ending, last, passage.visits, passage.yields, passage.finished, atOnce,
    passage.increasing, passage.valid, passage.inText, fun _ back _ => Scanning.decode_word back⟩

end Reading

end SecdLisp
