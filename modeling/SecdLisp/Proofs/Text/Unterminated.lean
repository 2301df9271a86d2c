import SecdLisp.Proofs.Contract
import SecdLisp.Proofs.Text.Balance
import SecdLisp.Proofs.Text.Grammar

/-!
# Lists that are not terminated

The reader closes the lists that it opens: behind a form, the rest of the text closes as many more
lists than it opens as it did before the form. So where the closing parenthesis of a list is
missing, the text opens more lists than it closes, and a text that is read to its end does not.
-/

namespace SecdLisp

open Contract

def Heap.terminated : Contract Unit Heap where
  le _ _ := True
  holds _ _ := True
  error _ e := e ≠ .parse .unterminatedList
  refl _ := trivial
  trans _ _ := trivial

namespace Template

variable {w : Unit}

theorem keeps_cons_terminated (car cdr : Value) :
    Heap.terminated.Keeps w (fun _ _ => True) (Heap.cons car cdr) := by
  intro h _
  rw [Heap.ends_cons]
  exact ⟨fun _ => ⟨w, trivial, trivial, trivial⟩, fun _ => ⟨w, trivial, trivial, nofun⟩⟩

theorem keeps_list_terminated (vs : List Value) :
    Heap.terminated.Keeps w (fun _ _ => True) (Heap.list vs) :=
  keeps_foldrM (p := fun _ _ => True) (fun _ _ => trivial) (fun _ _ _ _ => trivial) trivial
    fun _ v k _ _ _ => keeps_cons_terminated v k

theorem keeps_quoted_terminated (v : Value) :
    Heap.terminated.Keeps w (fun _ _ => True) (quoted v) := keeps_list_terminated _

theorem keeps_unquoted_terminated (v : Value) :
    Heap.terminated.Keeps w (fun _ _ => True) (unquoted v) :=
  (keeps_cons_terminated v .nil).bind fun _ _ _ _ => keeps_cons_terminated _ _

theorem keeps_expandWithin_terminated (height : Nat) (v : Value) :
    Heap.terminated.Keeps w (fun _ _ => True) (expandWithin height v) := by
  induction height generalizing w v with
  | zero => exact keeps_throw nofun
  | succ height ih =>
    cases v with
    | pair a =>
      unfold expandWithin
      refine keeps_seen_bind fun h _ => ?_
      split
      · refine keeps_seen_bind fun h _ => ?_
        split
        · exact keeps_pure trivial
        · exact keeps_throw nofun
      · refine keeps_seen_bind fun h _ => ?_
        split
        · exact keeps_throw nofun
        · refine keeps_foldrM (p := fun _ _ => True) (fun _ _ => trivial) (fun _ _ _ _ => trivial)
            trivial fun _ item built _ _ _ => ?_
          exact (ih item).bind fun _ _ _ _ => keeps_list_terminated _
    | _ => exact keeps_list_terminated _

theorem keeps_expand_terminated (v : Value) :
    Heap.terminated.Keeps w (fun _ _ => True) (expand v) :=
  keeps_seen_bind fun _ _ => keeps_expandWithin_terminated _ v

end Template

theorem Token.ne_unterminated_of_next? {src src' : Source} {cause : ParseError}
    (found : next? src = .error cause src') : cause ≠ .unterminatedList := by
  have finds := finds_next? src
  rw [found] at finds
  cases finds with
  | @refused o w rest _ here word delimited means =>
    unfold ofWord at means
    split at means
    · split at means <;> cases means
      nofun
    · cases means

theorem openParens_add (d k : Int) (comment : Bool) (cs : List Char) :
    openParens (d + k) comment cs = d + openParens k comment cs := by
  induction cs generalizing k comment with
  | nil => rfl
  | cons c cs ih =>
    simp only [openParens]
    split_ifs
    · exact ih k false
    · exact ih k true
    · exact ih k true
    · rw [Int.add_assoc, ih]
    · rw [Int.add_sub_assoc, ih]
    · exact ih k false

namespace Source

variable {src src' : Source} {t : Token}

/-- How many more lists the rest of the text opens than it closes. -/
def opens (src : Source) : Int := openParens 0 false src.unread

theorem opens_skipBlanks (src : Source) : src.skipBlanks.opens = src.opens :=
  (Token.openParens_skipFrom 0 false src.offset src.unread).symm

theorem opens_of_atEnd (done : src.atEnd = true) : src.opens = 0 := by
  rw [← opens_skipBlanks, opens, List.isEmpty_iff.mp done]
  rfl

theorem opens_of_next? (found : Token.next? src = .ok (some t) src') :
    src.opens = t.depth + src'.opens := by
  rw [opens, Token.openParens_next? found, Int.zero_add, ← Int.add_zero t.depth, openParens_add,
    Int.add_zero, opens]

end Source

namespace Reading

open Source (opens_of_next? opens_of_atEnd opens_skipBlanks)

variable {α β : Type} {src src' : Source} {d k : Int} {r : Reading} {x : ReadM α} {e : Error}

/-- Between two places of a text that many lists are closed, those left out that are opened. -/
def Closes (src : Source) (d : Int) (src' : Source) : Prop :=
  src'.unread.length ≤ src.unread.length ∧ src'.opens = d + src.opens

/-- Where that many lists are open, the rest of the text leaves one open, if the error is that a
list is not terminated. -/
def Lacks (src : Source) (d : Int) (e : Error) : Prop :=
  e = .parse .unterminatedList → 0 < d + src.opens

/-- The reader closes that many lists, or one of them is not terminated. -/
def Counts (d : Int) (x : ReadM α) (r : Reading) : Prop :=
  Ends x r (fun _ r' => Closes r.source d r'.source) fun e _ => Lacks r.source d e

theorem closes_refl (src : Source) : Closes src 0 src := ⟨Nat.le_refl _, (Int.zero_add _).symm⟩

theorem lacks_of_ne (other : e ≠ .parse .unterminatedList) : Lacks src d e :=
  fun same => absurd same other

theorem counts_fail {cause : ParseError} (other : cause ≠ .unterminatedList) :
    Counts d (fail cause : ReadM α) r :=
  lacks_of_ne fun same => other (Error.parse.inj same)

theorem Counts.bind {f : α → ReadM β} (first : Counts k x r) (around : 0 ≤ d)
    (next : ∀ a r', Closes r.source k r'.source → Counts d (f a) r') :
    Counts (d + k) (x >>= f) r := by
  rw [Counts, ends_bind]
  refine first.mono (fun a r' closes => ?_) fun e _ lacks same => ?_
  · obtain ⟨shorter, opens⟩ := closes
    refine (next a r' ⟨shorter, opens⟩).mono (fun b r'' closes' => ?_) fun e _ lacks same => ?_
    · obtain ⟨shorter', opens'⟩ := closes'
      exact ⟨shorter'.trans shorter, by omega⟩
    · have opened := lacks same
      omega
  · have opened := lacks same
    omega

theorem Counts.onHeap {f : α → HeapM β} (counts : Counts d x r)
    (keeps : ∀ a, Heap.terminated.Keeps () (fun _ _ => True) (f a)) :
    Counts d (x >>= fun a => onHeap (f a)) r := by
  rw [Counts, ends_bind]
  refine counts.mono (fun a r' closes => ?_) fun _ _ => id
  obtain ⟨src', h, symbols⟩ := r'
  have ends := keeps a h trivial
  unfold Ends at ends
  unfold Reading.onHeap Ends
  dsimp only
  cases run : f a h with
  | ok b h' => exact closes
  | error e h' =>
    rw [run] at ends
    obtain ⟨_, _, _, other⟩ := ends
    exact lacks_of_ne other

theorem Counts.later {y : ReadM α} (closes : Closes r.source k src')
    (same : x r = y { r with source := src' }) (counts : Counts d y { r with source := src' }) :
    Counts (d + k) x r := by
  obtain ⟨shorter, opens⟩ := closes
  rw [Counts, Ends, same]
  refine counts.mono (fun a r' closes' => ?_) fun e _ lacks same => ?_
  · obtain ⟨shorter', opens'⟩ := closes'
    exact ⟨shorter'.trans shorter, by dsimp only at opens'; omega⟩
  · have opened := lacks same
    dsimp only at opened
    omega

theorem closes_skipBlanks (src : Source) : Closes src 0 src.skipBlanks :=
  ⟨Source.length_skipFrom_le .., by rw [opens_skipBlanks, Int.zero_add]⟩

theorem closes_of_next? {t : Token} (found : Token.next? src = .ok (some t) src') :
    Closes src (-t.depth) src' := by
  have shorter := Token.length_lt_of_next? found
  have opens := opens_of_next? found
  exact ⟨by omega, by omega⟩

theorem counts_next?_bind {f : Option Token → ReadM α}
    (done : r.source.atEnd = true → Counts d (f none) { r with source := r.source.skipBlanks })
    (each : ∀ t src', Token.next? r.source = .ok (some t) src' →
      Counts (d + t.depth) (f (some t)) { r with source := src' }) :
    Counts d (next? >>= f) r := by
  obtain ⟨src, h, symbols⟩ := r
  cases found : Token.next? src with
  | error cause stop =>
    have run : (next? >>= f) ⟨src, h, symbols⟩ = .error (.parse cause) ⟨stop, h, symbols⟩ :=
      bind_of_eq_error (by rw [next?, found])
    rw [Counts, Ends, run]
    exact lacks_of_ne fun same => Token.ne_unterminated_of_next? found (Error.parse.inj same)
  | ok t? src' =>
    have run := bind_of_eq_ok (f := f) (moves_next? found h symbols)
    cases t? with
    | none =>
      obtain ⟨ended, rfl⟩ := Token.atEnd_of_next? found
      simpa using Counts.later (r := ⟨src, h, symbols⟩) (closes_skipBlanks src) run (done ended)
    | some t =>
      have counts := Counts.later (r := ⟨src, h, symbols⟩) (closes_of_next? found) run
        (each t src' found)
      rwa [Int.add_neg_cancel_right] at counts

theorem counts_next_bind {f : Token → ReadM α} (each : ∀ t r, Counts t.depth (f t) r)
    (r : Reading) : Counts 0 (next >>= f) r := by
  rw [next, bind_assoc]
  refine counts_next?_bind (fun _ => lacks_of_ne nofun) fun t src' _ => ?_
  rw [Int.zero_add]
  exact each t _

theorem counts_elements {element : Token → ReadM Value}
    (each : ∀ t r, Counts t.depth (element t) r) {bound : List Char}
    (enough : r.source.unread.length ≤ bound.length) (read : List Value) :
    Counts 1 (elements element bound read) r := by
  induction bound generalizing r read with
  | nil =>
    intro _
    rw [List.length_nil, Nat.le_zero, List.length_eq_zero_iff] at enough
    rw [Source.opens, enough]
    decide
  | cons c bound ih =>
    rw [elements]
    refine counts_next?_bind (fun done _ => ?_) fun t src' found => ?_
    · dsimp only
      rw [opens_skipBlanks, opens_of_atEnd done]
      decide
    · have shorter := Token.length_lt_of_next? found
      rw [List.length_cons] at enough
      have more : Counts (1 + t.depth)
          (do elements element bound ((← element t) :: read)) { r with source := src' } := by
        refine (each t _).bind (by decide) fun v r' closes => ih ?_ _
        have := closes.1
        dsimp only at this
        omega
      cases t with
      | closing => exact closes_refl src'
      | _ => exact more

theorem counts_unquote {f : Token → ReadM Value} (each : ∀ t r, Counts t.depth (f t) r)
    (r : Reading) : Counts 0 (unquote f) r := by
  have read := (counts_next_bind each r).onHeap Template.keeps_unquoted_terminated
  rw [bind_assoc] at read
  unfold unquote
  obtain ⟨src, h, symbols⟩ := r
  cases found : Token.next? src with
  | error cause stop =>
    have run : peek? ⟨src, h, symbols⟩ = .error (.parse cause) ⟨src, h, symbols⟩ := by
      unfold peek? Token.peek?
      dsimp only
      rw [found]
    rw [Counts, Ends, bind_of_eq_error run]
    exact lacks_of_ne fun same => Token.ne_unterminated_of_next? found (Error.parse.inj same)
  | ok t? src' =>
    rw [Counts, Ends, bind_of_eq_ok (moves_peek? found h symbols)]
    by_cases splicing : t? = some .atSign
    · rw [if_pos splicing]
      exact lacks_of_ne (by simp)
    · rw [if_neg splicing]
      exact read

theorem counts_datum (room templates : Nat) (t : Token) (r : Reading) :
    Counts t.depth (datum room templates t) r := by
  induction room generalizing templates t r with
  | zero => exact counts_fail nofun
  | succ room ih =>
    cases t with
    | opening =>
      have elements := counts_elements (ih templates) (Nat.le_refl r.source.unread.length) []
      have list : Counts 1 _ r := elements.onHeap Template.keeps_list_terminated
      exact list
    | closing => exact counts_fail nofun
    | quote =>
      have quoted := (counts_next_bind (ih templates) r).onHeap Template.keeps_quoted_terminated
      rw [bind_assoc] at quoted
      exact quoted
    | backquote =>
      have expanded := (counts_next_bind (ih (templates + 1)) r).onHeap
        Template.keeps_expand_terminated
      rw [bind_assoc] at expanded
      exact expanded
    | comma =>
      cases templates with
      | zero => exact counts_fail nofun
      | succ outer => exact counts_unquote (ih outer) r
    | atSign => exact counts_fail nofun
    | int n => exact closes_refl _
    | ident word =>
      show Counts 0 (atom word) r
      unfold atom
      split
      · exact closes_refl _
      split
      · exact closes_refl _
      · exact closes_refl _

theorem counts_form? (r : Reading) : Ends form? r
    (fun v? r' => r'.source.opens = r.source.opens ∧
      match v? with
      | none => r'.source.atEnd = true
      | some _ => r'.source.unread.length < r.source.unread.length)
    fun e _ => Lacks r.source 0 e := by
  obtain ⟨src, h, symbols⟩ := r
  cases done : src.atEnd with
  | true =>
    rw [Ends, moves_form? done h symbols]
    refine ⟨opens_skipBlanks src, ?_⟩
    rwa [Source.atEnd, Source.skipBlanks_skipBlanks]
  | false =>
    have datum : Counts 0 (next >>= datum maxNesting 0) ⟨src.skipBlanks, h, symbols⟩ :=
      counts_next_bind (counts_datum maxNesting 0) _
    have form : Counts 0 form? ⟨src, h, symbols⟩ := by
      refine Counts.later (d := 0) (r := ⟨src, h, symbols⟩) (closes_skipBlanks src)
        (bind_of_eq_ok (moves_atEnd src h symbols)) ?_
      rw [done, if_neg Bool.false_ne_true, ← bind_assoc]
      exact datum.bind (Int.le_refl 0) fun v r' _ => closes_refl r'.source
    have reads := form?_ends ⟨src, h, symbols⟩
    cases run : form? ⟨src, h, symbols⟩ with
    | error e r' =>
      rw [Ends, run]
      exact form.of_eq_error run
    | ok v? r' =>
      rw [Ends, run]
      obtain ⟨-, opens⟩ := form.of_eq_ok run
      have reads := reads.of_eq_ok run
      refine ⟨opens.trans (Int.zero_add _), ?_⟩
      cases v? with
      | none => exact absurd reads.1 (by simp [done])
      | some v =>
        obtain ⟨p, reads⟩ := reads
        obtain ⟨t, ts, spelled, -, -⟩ := exists_tokens_eq_cons p
        have shorter := reads.length_le
        rw [spelled, List.length_cons] at shorter
        dsimp only at shorter ⊢
        omega

/-- At the end of the text the reader has closed what it has opened. -/
theorem counts_formsWithin {bound : List Char} (enough : r.source.unread.length ≤ bound.length)
    (read : List Value) : Ends (formsWithin bound read) r (fun _ _ => r.source.opens = 0)
      fun e _ => Lacks r.source 0 e := by
  induction bound generalizing r read with
  | nil =>
    obtain ⟨src, h, symbols⟩ := r
    have done : src.atEnd = true := by
      rw [List.length_nil, Nat.le_zero, List.length_eq_zero_iff] at enough
      rw [Source.atEnd, Source.skipBlanks, enough]
      rfl
    rw [formsWithin, Ends, bind_of_eq_ok (moves_form? done h symbols)]
    exact opens_of_atEnd done
  | cons c bound ih =>
    rw [formsWithin_cons, ends_bind]
    refine (counts_form? r).mono (fun v? r' found => ?_) fun _ _ => id
    obtain ⟨opens, found⟩ := found
    cases v? with
    | none => exact opens ▸ opens_of_atEnd found
    | some v =>
      rw [List.length_cons] at enough
      refine (ih (r := r') (by dsimp only at found; omega) _).mono (fun _ _ => opens.symm.trans) ?_
      intro e _ lacks
      rwa [Lacks, opens] at lacks

/-- A text that is read to its end closes all lists that it opens, and one in which a list is not
terminated does not. -/
theorem counts_forms (src : Source) (h : Heap) (symbols : SymbolTable) :
    Ends forms ⟨src, h, symbols⟩ (fun _ _ => src.opens = 0)
      fun e _ => e = .parse .unterminatedList → 0 < src.opens := by
  have counts := counts_formsWithin (r := ⟨src, h, symbols⟩) (Nat.le_refl _) []
  refine counts.mono (fun _ _ => id) fun e _ lacks same => ?_
  have opened := lacks same
  rwa [Int.zero_add] at opened

end Reading

end SecdLisp
