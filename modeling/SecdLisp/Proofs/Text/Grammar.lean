import SecdLisp.Proofs.Text.Build
import SecdLisp.Proofs.Text.Tokens

/-!
# The reader and its grammar

The reader accepts the texts whose tokens are those of a list of well-scoped phrases that do not
nest too deeply. It then does what putting the phrases together does. In any other text there is
a first place where no phrase goes on; up to there the reader has put some phrases together too,
and there it stops with a cause that has to do with the text alone.
-/

namespace SecdLisp

/-- The causes that a text can give to reject it. -/
def ParseError.IsSyntactic : ParseError → Prop
  | .malformedUnquote | .improperTemplate | .emptyInput | .notBoundary _ => False
  | _ => True

theorem Token.isSyntactic_of_next? {src src' : Source} {cause : ParseError}
    (found : next? src = .error cause src') : cause.IsSyntactic := by
  have finds := finds_next? src
  rw [found] at finds
  cases finds with
  | @refused o w rest _ here word delimited means =>
    unfold ofWord at means
    split at means
    · split at means <;> cases means
      trivial
    · cases means

namespace Reading

open Token (Reads atEnd_eq_false)
open Phrase (build buildAll tokensAll)

variable {α β γ ι : Type} {src src' src'' : Source} {t : Token} {ts : List Token} {p : Phrase}
  {ps : List Phrase} {room templates : Nat}

/-- From one place of a text to another, the reader does just this work, which does not look at the
text. A failure may leave it anywhere in the text. -/
def Carries (work : ReadM α) (src : Source) (x : ReadM α) (src' : Source) : Prop :=
  ∀ r : Reading, Ends work r
    (fun a r' => r'.source = r.source ∧
      x { r with source := src } = .ok a { r' with source := src' })
    fun e r' => ∃ stop, x { r with source := src } = .error e { r' with source := stop }

def Moves (x : ReadM α) (src : Source) (a : α) (src' : Source) : Prop :=
  ∀ h symbols, x ⟨src, h, symbols⟩ = .ok a ⟨src', h, symbols⟩

namespace Carries

variable {work : ReadM α} {x : ReadM α}

theorem bind_map {y : ReadM β} {k : α → β} {f : α → ReadM γ} {g : β → ReadM γ}
    (first : Carries (k <$> work) src y src') (next : ∀ a, Carries (f a) src' (g (k a)) src'') :
    Carries (work >>= f) src (y >>= g) src'' := by
  intro r
  have first := first r
  rw [ends_map] at first
  rw [ends_bind]
  refine first.mono ?_ ?_
  · rintro a r₁ ⟨same, run⟩
    refine (next a r₁).mono ?_ ?_
    · rintro b r₂ ⟨same', run'⟩
      exact ⟨same'.trans same, (bind_of_eq_ok run).trans run'⟩
    · rintro e r₂ ⟨stop, run'⟩
      exact ⟨stop, (bind_of_eq_ok run).trans run'⟩
  · rintro e r₁ ⟨stop, run⟩
    exact ⟨stop, bind_of_eq_error run⟩

theorem bind {f g : α → ReadM β} (first : Carries work src x src')
    (next : ∀ a, Carries (f a) src' (g a) src'') :
    Carries (work >>= f) src (x >>= g) src'' := bind_map (k := id) (by rwa [id_map]) next

theorem after {y : ReadM β} {b : β} {f : β → ReadM α} (moves : Moves y src b src')
    (next : Carries work src' (f b) src'') : Carries work src (y >>= f) src'' := by
  intro r
  have run := moves r.heap r.symbols
  have same : (y >>= f) { r with source := src } = f b { r with source := src' } :=
    bind_of_eq_ok run
  refine (next r).mono ?_ ?_
  · intro a r' ends
    rwa [same]
  · intro e r' ends
    rwa [same]

theorem ends {h : Heap} {symbols : SymbolTable} {p : α → Heap → SymbolTable → Prop}
    {q : Error → Prop} (carries : Carries work src x src')
    (ends : Ends work ⟨src, h, symbols⟩ (fun a r => p a r.heap r.symbols) fun e _ => q e) :
    Ends x ⟨src, h, symbols⟩ (fun a r => r.source = src' ∧ p a r.heap r.symbols) fun e _ => q e := by
  have same := carries ⟨src, h, symbols⟩
  cases run : work ⟨src, h, symbols⟩ with
  | ok a r =>
    have holds := ends.of_eq_ok run
    rw [Ends, (same.of_eq_ok run).2]
    exact ⟨rfl, holds⟩
  | error e r =>
    obtain ⟨stop, same⟩ := same.of_eq_error run
    rw [Ends, same]
    exact ends.of_eq_error run

theorem pure (a : α) (src : Source) : Carries (pure a) src (pure a) src := fun _ => ⟨rfl, rfl⟩

theorem onHeap (x : HeapM α) (src : Source) : Carries (onHeap x) src (Reading.onHeap x) src := by
  rintro ⟨at', h, symbols⟩
  unfold Ends Reading.onHeap
  dsimp only
  cases x h with
  | ok a h' => exact ⟨rfl, rfl⟩
  | error e h' => exact ⟨src, rfl⟩

theorem atom (word : String) (src : Source) : Carries (atom word) src (Reading.atom word) src := by
  unfold Reading.atom
  split
  · exact .pure _ _
  split
  · exact .pure _ _
  · exact fun _ => ⟨rfl, rfl⟩

end Carries

theorem moves_next? {t? : Option Token} (found : Token.next? src = .ok t? src') :
    Moves next? src t? src' := by
  intro h symbols
  rw [next?, found]

theorem moves_next (found : Token.next? src = .ok (some t) src') : Moves next src t src' := by
  intro h symbols
  exact bind_eq_ok.mpr ⟨some t, _, moves_next? found h symbols, rfl⟩

theorem moves_peek? {t? : Option Token} (found : Token.next? src = .ok t? src') :
    Moves peek? src t? src := by
  intro h symbols
  unfold peek? Token.peek?
  dsimp only
  rw [found]

theorem moves_atEnd (src : Source) : Moves atEnd src src.atEnd src.skipBlanks := fun _ _ => rfl

theorem exists_tokens_eq_cons (p : Phrase) :
    ∃ t ts, p.tokens = t :: ts ∧ t ≠ .closing ∧ t ≠ .atSign := by
  cases p <;> exact ⟨_, _, rfl, by simp, by simp⟩

theorem Carries.next {work : ReadM α} {f : Token → ReadM α} (reads : Reads src p.tokens src')
    (later : ∀ {t ts src}, p.tokens = t :: ts → Reads src ts src' → Carries work src (f t) src') :
    Carries work src (do f (← next)) src' := by
  obtain ⟨t, ts, spelled, -, -⟩ := exists_tokens_eq_cons p
  rw [spelled] at reads
  cases reads with
  | cons found reads => exact .after (moves_next found) (later spelled reads)

theorem Carries.elements {work : ReadM (List Value)} {element : Token → ReadM Value} {c : Char}
    {bound : List Char} {read : List Value} (found : Token.next? src = .ok (some t) src')
    (ordinary : t ≠ .closing)
    (next : Carries work src' (do Reading.elements element bound ((← element t) :: read)) src'') :
    Carries work src (Reading.elements element (c :: bound) read) src'' := by
  rw [Reading.elements]
  refine .after (moves_next? found) ?_
  cases t with
  | closing => exact absurd rfl ordinary
  | _ => exact next

theorem elements_carries {element : Token → ReadM Value}
    (each : ∀ p ∈ ps, ∀ {t ts src src'}, p.tokens = t :: ts → Reads src ts src' →
      Carries p.build src (element t) src')
    (reads : Reads src (tokensAll ps ++ [.closing]) src') {bound : List Char}
    (enough : src.unread.length ≤ bound.length) (read : List Value) :
    Carries (do return read.reverse ++ (← buildAll ps)) src (elements element bound read) src' := by
  induction ps generalizing src bound read with
  | nil =>
    have work : (do return read.reverse ++ (← buildAll [])) = (Pure.pure read.reverse : ReadM _) := by
      simp [buildAll]
    cases reads with
    | cons found reads =>
      obtain ⟨c, bound, rfl, -⟩ := (Reads.one found).exists_bound enough
      cases reads
      rw [work, elements]
      exact .after (moves_next? found) (.pure _ _)
  | cons p ps ih =>
    have work : (do return read.reverse ++ (← buildAll (p :: ps))) = (do
        let v ← p.build
        return (v :: read).reverse ++ (← buildAll ps) : ReadM _) := by
      simp [buildAll]
    rw [List.forall_mem_cons] at each
    rw [tokensAll, List.append_assoc] at reads
    obtain ⟨src₁, first, later⟩ := reads.split
    obtain ⟨t, ts, spelled, ordinary, -⟩ := exists_tokens_eq_cons p
    rw [spelled] at first
    cases first with
    | cons found first =>
      obtain ⟨c, bound, rfl, enough⟩ := (Reads.one found).exists_bound enough
      have shorter := first.length_le
      rw [work]
      refine .elements found ordinary ((each.1 spelled first).bind fun v => ?_)
      exact ih each.2 later (by omega) (v :: read)

theorem datum_carries (enough : p.height ≤ room) (inside : p.isScoped templates = true)
    (spelled : p.tokens = t :: ts) (reads : Reads src ts src') :
    Carries p.build src (datum room templates t) src' := by
  induction p generalizing room templates src src' t ts
  all_goals
    obtain ⟨room, rfl⟩ := Nat.exists_eq_add_one.mpr ((Phrase.height_pos _).trans_le enough)
    cases spelled
  case int n =>
    cases reads
    exact .pure _ _
  case word name =>
    cases reads
    exact .atom _ _
  case list items ih =>
    rw [Phrase.height, Nat.add_le_add_iff_right, Phrase.heightAll_le] at enough
    rw [Phrase.isScoped, Phrase.areScoped_iff] at inside
    have all := elements_carries (fun p mem _ _ _ _ => ih p mem (enough p mem) (inside p mem))
      reads (Nat.le_refl _) []
    simp only [List.reverse_nil, List.nil_append, bind_pure] at all
    exact .after (fun _ _ => rfl) (all.bind fun vs => .onHeap _ _)
  case quote p ih =>
    rw [Phrase.height, Nat.add_le_add_iff_right] at enough
    exact .next reads fun spelled reads =>
      (ih enough inside spelled reads).bind fun v => .onHeap _ _
  case backquote p ih =>
    rw [Phrase.height, Nat.add_le_add_iff_right] at enough
    exact .next reads fun spelled reads =>
      (ih enough inside spelled reads).bind fun v => .onHeap _ _
  case unquote p ih =>
    rw [Phrase.height, Nat.add_le_add_iff_right] at enough
    cases templates with
    | zero => cases inside
    | succ templates =>
      obtain ⟨t, ts, spelled, -, ordinary⟩ := exists_tokens_eq_cons p
      have ahead := reads
      rw [spelled] at ahead
      cases ahead with
      | cons found _ =>
        refine .after (moves_peek? found) ?_
        rw [if_neg (by simpa using ordinary)]
        exact .next reads fun spelled reads =>
          (ih enough inside spelled reads).bind fun v => .onHeap _ _

theorem form?_carries (enough : p.height ≤ maxNesting) (inside : p.isScoped 0 = true)
    (reads : Reads src p.tokens src') : Carries (some <$> p.build) src form? src' := by
  obtain ⟨t, ts, spelled, -, -⟩ := exists_tokens_eq_cons p
  have more : src.atEnd = false := by
    rw [spelled] at reads
    cases reads with
    | cons found _ => exact atEnd_eq_false found
  have reads : Reads src.skipBlanks p.tokens src' := by
    rw [spelled] at reads ⊢
    exact reads.skipBlanks
  refine .after (moves_atEnd src) ?_
  rw [more, map_eq_pure_bind]
  exact .next reads fun spelled reads =>
    (datum_carries enough inside spelled reads).bind fun v => .pure _ _

theorem form_carries (enough : p.height ≤ maxNesting) (inside : p.isScoped 0 = true)
    (reads : Reads src p.tokens src') : Carries p.build src form src' := by
  have found := form?_carries enough inside reads
  rw [← bind_pure (build p)]
  exact found.bind_map fun v => .pure v src'

theorem moves_form? (done : src.atEnd = true) : Moves form? src none src.skipBlanks := by
  intro h symbols
  refine (bind_of_eq_ok (moves_atEnd src h symbols)).trans ?_
  rw [done]
  rfl

theorem formsWithin_carries (fit : ∀ p ∈ ps, p.height ≤ maxNesting ∧ p.isScoped 0 = true)
    (reads : Reads src (tokensAll ps) src') (done : src'.atEnd = true) {bound : List Char}
    (enough : src.unread.length ≤ bound.length) (read : List Value) :
    Carries (do return read.reverse ++ (← buildAll ps)) src (formsWithin bound read)
      src'.skipBlanks := by
  induction ps generalizing src bound read with
  | nil =>
    have work : (do return read.reverse ++ (← buildAll [])) = (Pure.pure read.reverse : ReadM _) := by
      simp [buildAll]
    cases reads
    rw [work, formsWithin.eq_def]
    exact .after (moves_form? done) (.pure _ _)
  | cons p ps ih =>
    have work : (do return read.reverse ++ (← buildAll (p :: ps))) = (do
        let v ← p.build
        return (v :: read).reverse ++ (← buildAll ps) : ReadM _) := by
      simp [buildAll]
    rw [List.forall_mem_cons] at fit
    rw [tokensAll] at reads
    obtain ⟨src₁, first, later⟩ := reads.split
    have form := form?_carries fit.1.1 fit.1.2 first
    obtain ⟨t, ts, spelled, -, -⟩ := exists_tokens_eq_cons p
    rw [spelled] at first
    obtain ⟨c, bound, rfl, enough'⟩ := first.exists_bound enough
    rw [work, formsWithin.eq_def]
    exact form.bind_map fun v => ih fit.2 later enough' (v :: read)

/-- In this place of the text the reader fails. Before that it puts some phrases together, which
may fail too for want of room; what they are and what comes of it has to do with the text alone. -/
def Fails (src : Source) (x : ι → ReadM α) : Prop :=
  ∃ ps cause stop, (∀ p ∈ ps, p.Worded) ∧ ParseError.IsSyntactic cause ∧
    ∀ i, Carries (do let _ ← buildAll ps; fail cause) src (x i) stop

namespace Fails

variable {x : ι → ReadM α} {cause : ParseError}

theorem now (syntactic : cause.IsSyntactic) (run : ∀ i h symbols,
    ∃ stop, x i ⟨src, h, symbols⟩ = .error (.parse cause) ⟨stop, h, symbols⟩) : Fails src x :=
  ⟨[], cause, src, nofun, syntactic, fun i r => run i r.heap r.symbols⟩

theorem of_fail (syntactic : cause.IsSyntactic) (src : Source) :
    Fails src fun _ : ι => (Reading.fail cause : ReadM α) :=
  now syntactic fun _ _ _ => ⟨src, rfl⟩

theorem reindex {κ : Type} (fails : Fails src x) (k : κ → ι) : Fails src fun j => x (k j) := by
  obtain ⟨ps, cause, stop, worded, syntactic, all⟩ := fails
  exact ⟨ps, cause, stop, worded, syntactic, fun j => all (k j)⟩

theorem after {y : ReadM β} {b : β} {f : ι → β → ReadM α} (moves : Moves y src b src')
    (fails : Fails src' fun i => f i b) : Fails src fun i => y >>= f i := by
  obtain ⟨ps, cause, stop, worded, syntactic, later⟩ := fails
  exact ⟨ps, cause, stop, worded, syntactic, fun i => .after moves (later i)⟩

theorem bind (fails : Fails src x) (f : ι → α → ReadM β) : Fails src fun i => x i >>= f i := by
  obtain ⟨ps, cause, stop, worded, syntactic, first⟩ := fails
  refine ⟨ps, cause, stop, worded, syntactic, fun i r => ?_⟩
  have first := first i r
  rw [ends_bind] at first ⊢
  refine first.mono ?_ ?_
  · rintro vs r' ⟨stop, run⟩
    exact ⟨stop, bind_of_eq_error run⟩
  · rintro e r' ⟨stop, run⟩
    exact ⟨stop, bind_of_eq_error run⟩

theorem behind {f : ι → α → ReadM β} {k : Value → α} (worded : p.Worded)
    (phrase : ∀ i, Carries (k <$> p.build) src (x i) src')
    (fails : Fails src' fun iv : ι × Value => f iv.1 (k iv.2)) : Fails src fun i => x i >>= f i := by
  obtain ⟨ps, cause, stop, all, syntactic, later⟩ := fails
  refine ⟨p :: ps, cause, stop, List.forall_mem_cons.mpr ⟨worded, all⟩, syntactic, fun i => ?_⟩
  have work : (do let _ ← buildAll (p :: ps); fail cause) = (do
      let _ ← p.build
      let _ ← buildAll ps
      fail cause : ReadM β) := by
    simp [buildAll]
  rw [work]
  exact (phrase i).bind_map fun v => later (i, v)

end Fails

/-- A phrase that is read with that much room and inside that many templates. -/
def Fits (room templates : Nat) (p : Phrase) : Prop :=
  p.height ≤ room ∧ p.isScoped templates = true

theorem worded_of_tokens (spelled : p.tokens = t :: ts) (ordinary : t ≠ .ident ",")
    (reads : Reads src ts src') : p.Worded := by
  rw [Phrase.Worded, spelled, List.mem_cons, not_or]
  exact ⟨ordinary.symm, reads.no_comma_name⟩

/-- Either a phrase starts with this token or reading one fails. -/
def Settles (room templates : Nat) (f : Token → ReadM Value) : Prop :=
  ∀ (t : Token) (src : Source), t ≠ .ident "," →
    (∃ p ts src', Fits room templates p ∧ p.tokens = t :: ts ∧ Reads src ts src') ∨
      Fails src fun _ : Unit => f t

theorem Fails.of_next? {stop : Source} {cause : ParseError}
    (found : Token.next? src = .error cause stop) (f : ι → Option Token → ReadM α) :
    Fails src fun i => next? >>= f i := by
  refine .now (Token.isSyntactic_of_next? found) fun i h symbols => ⟨stop, bind_of_eq_error ?_⟩
  rw [next?, found]

theorem next_settles {f : Token → ReadM Value} (settles : Settles room templates f)
    (src : Source) : (∃ p src', Fits room templates p ∧ Reads src p.tokens src') ∨
      Fails src fun _ : Unit => (do f (← next)) := by
  cases found : Token.next? src with
  | error cause stop =>
    right
    exact .bind (.of_next? found _) _
  | ok t? src₁ =>
    cases t? with
    | none =>
      right
      exact .bind (.after (moves_next? found) (.of_fail (by trivial) _)) _
    | some t =>
      rcases settles t src₁ (fun same => Token.ne_of_next?_ident (same ▸ found) rfl) with
        ⟨p, ts, src', fits, spelled, reads⟩ | fails
      · left
        exact ⟨p, src', fits, spelled ▸ .cons found reads⟩
      · right
        exact .after (moves_next found) fails

theorem elements_settles {element : Token → ReadM Value} (settles : Settles room templates element)
    (carries : ∀ {p t ts src src'}, Fits room templates p → p.tokens = t :: ts →
      Reads src ts src' → Carries p.build src (element t) src')
    (bound : List Char) (src : Source) :
    (∃ ps src', (∀ p ∈ ps, Fits room templates p) ∧
        Reads src (tokensAll ps ++ [.closing]) src') ∨
      Fails src (elements element bound) := by
  induction bound generalizing src with
  | nil =>
    right
    exact .of_fail (by trivial) src
  | cons c bound ih =>
    cases found : Token.next? src with
    | error cause stop =>
      right
      exact .of_next? found _
    | ok t? src₁ =>
      cases t? with
      | none =>
        right
        exact .after (moves_next? found) (.of_fail (by trivial) _)
      | some t =>
        by_cases closing : t = .closing
        · left
          subst closing
          exact ⟨[], src₁, nofun, .one found⟩
        have ordinary : t ≠ .ident "," := fun same => Token.ne_of_next?_ident (same ▸ found) rfl
        have unfolded (fails : Fails src₁ fun read => do
            elements element bound ((← element t) :: read)) :
            Fails src (elements element (c :: bound)) := by
          obtain ⟨ps, cause, stop, worded, syntactic, all⟩ := fails
          exact ⟨ps, cause, stop, worded, syntactic, fun read =>
            .elements found closing (all read)⟩
        rcases settles t src₁ ordinary with ⟨p, ts, src₂, fits, spelled, reads⟩ | fails
        · rcases ih src₂ with ⟨ps, src', fit, later⟩ | fails
          · left
            refine ⟨p :: ps, src', List.forall_mem_cons.mpr ⟨fits, fit⟩, ?_⟩
            rw [tokensAll, List.append_assoc, spelled]
            exact .cons found (reads.append later)
          · right
            refine unfolded (.behind (k := id) (worded_of_tokens spelled ordinary reads)
              (fun _ => ?_) (fails.reindex fun (rv : List Value × Value) => rv.2 :: rv.1))
            rw [id_map]
            exact carries fits spelled reads
        · right
          exact unfolded ((fails.reindex fun _ => ()).bind _)

theorem unquote_settles {f : Token → ReadM Value} (settles : Settles room templates f)
    (src : Source) : (∃ p src', Fits room templates p ∧ Reads src p.tokens src') ∨
      Fails src fun _ : Unit => unquote f := by
  cases found : Token.next? src with
  | error cause stop =>
    right
    refine .now (Token.isSyntactic_of_next? found) fun _ h symbols => ⟨src, bind_of_eq_error ?_⟩
    unfold peek? Token.peek?
    dsimp only
    rw [found]
  | ok t? src₁ =>
    by_cases splicing : t? = some .atSign
    · right
      refine .after (moves_peek? found) ?_
      rw [if_pos splicing]
      exact .bind (.of_fail (by trivial) _) _
    · rcases next_settles settles src with fits | fails
      · exact .inl fits
      · right
        refine .after (moves_peek? found) ?_
        rw [if_neg splicing]
        simpa only [bind_assoc] using fails.bind fun _ v => onHeap (Template.unquoted v)

theorem datum_settles (room templates : Nat) : Settles room templates (datum room templates) := by
  induction room generalizing templates with
  | zero => exact fun t src _ => .inr (.of_fail (by trivial) src)
  | succ room ih =>
    intro t src ordinary
    cases t with
    | opening =>
      rcases elements_settles (ih templates) (fun fits => datum_carries fits.1 fits.2) src.unread src
        with ⟨ps, src', fit, reads⟩ | fails
      · left
        refine ⟨.list ps, _, src', ⟨?_, ?_⟩, rfl, reads⟩
        · rw [Phrase.height, Nat.add_le_add_iff_right, Phrase.heightAll_le]
          exact fun p mem => (fit p mem).1
        · rw [Phrase.isScoped, Phrase.areScoped_iff]
          exact fun p mem => (fit p mem).2
      · right
        exact .after (fun _ _ => rfl) ((fails.reindex fun _ => []).bind _)
    | closing => exact .inr (.of_fail (by trivial) src)
    | quote =>
      rcases next_settles (ih templates) src with ⟨p, src', fits, reads⟩ | fails
      · exact .inl ⟨.quote p, _, src', ⟨Nat.add_le_add_right fits.1 1, fits.2⟩, rfl, reads⟩
      · right
        simpa only [datum, bind_assoc] using fails.bind fun _ v => onHeap (Template.quoted v)
    | backquote =>
      rcases next_settles (ih (templates + 1)) src with ⟨p, src', fits, reads⟩ | fails
      · exact .inl ⟨.backquote p, _, src', ⟨Nat.add_le_add_right fits.1 1, fits.2⟩, rfl, reads⟩
      · right
        simpa only [datum, bind_assoc] using fails.bind fun _ v => onHeap (Template.expand v)
    | comma =>
      cases templates with
      | zero => exact .inr (.of_fail (by trivial) src)
      | succ templates =>
        rcases unquote_settles (ih templates) src with ⟨p, src', fits, reads⟩ | fails
        · exact .inl ⟨.unquote p, _, src', ⟨Nat.add_le_add_right fits.1 1, fits.2⟩, rfl, reads⟩
        · exact .inr fails
    | atSign => exact .inr (.of_fail (by trivial) src)
    | int n => exact .inl ⟨.int n, [], src, ⟨Nat.le_add_left 1 room, rfl⟩, rfl, .nil src⟩
    | ident word => exact .inl ⟨.word word, [], src, ⟨Nat.le_add_left 1 room, rfl⟩, rfl, .nil src⟩

/-- A text is at its end, or a phrase comes next, or there is no form here. -/
theorem form?_settles (src : Source) : src.atEnd = true ∨
    (∃ p src', Fits maxNesting 0 p ∧ Reads src p.tokens src') ∨
      Fails src fun _ : Unit => form? := by
  cases done : src.atEnd with
  | true => exact .inl rfl
  | false =>
    right
    rcases next_settles (datum_settles maxNesting 0) src.skipBlanks with
      ⟨p, src', fits, reads⟩ | fails
    · left
      refine ⟨p, src', fits, ?_⟩
      obtain ⟨t, ts, spelled, -, -⟩ := exists_tokens_eq_cons p
      rw [spelled] at reads ⊢
      cases reads with
      | cons found later => exact .cons ((Token.next?_skipBlanks src).symm.trans found) later
    · right
      refine .after (moves_atEnd src) ?_
      rw [done, if_neg Bool.false_ne_true]
      simpa only [bind_assoc] using fails.bind fun _ v => (Pure.pure (some v) : ReadM _)

theorem Fails.ends {x : ReadM α} (fails : Fails src fun _ : Unit => x) : ∃ cells,
    ∀ h symbols, Ends x ⟨src, h, symbols⟩ (fun _ _ => False) fun e _ =>
      e = .heapFull ∧ h.capacity < h.size + cells ∨
        h.size + cells ≤ h.capacity ∧ ∃ cause, e = .parse cause ∧ cause.IsSyntactic := by
  obtain ⟨ps, cause, stop, worded, syntactic, carries⟩ := fails
  refine ⟨Phrase.cellsAll ps, fun h symbols => ?_⟩
  have costs := Phrase.costs_buildAll worded ⟨src, h, symbols⟩
  refine ((carries ()).ends (p := fun _ _ _ => False) (q := fun e =>
    e = .heapFull ∧ h.capacity < h.size + Phrase.cellsAll ps ∨
      h.size + Phrase.cellsAll ps ≤ h.capacity ∧ ∃ cause, e = .parse cause ∧ cause.IsSyntactic)
    ?_).mono (fun _ _ ends => ends.2) fun _ _ => id
  rw [ends_bind]
  refine costs.mono ?_ ?_
  · rintro vs r ⟨-, adds, -⟩
    have fits := r.heap.size_le_capacity
    rw [adds.size, adds.capacity] at fits
    exact .inr ⟨fits, cause, rfl, syntactic⟩
  · exact fun _ _ => .inl

theorem form?_ends (r : Reading) : Ends form? r
    (fun v? r' => match v? with
      | none => r.source.atEnd = true ∧ r' = { r with source := r.source.skipBlanks }
      | some _ => ∃ p : Phrase, Reads r.source p.tokens r'.source)
    fun e _ => e = .heapFull ∨ ∃ cause, e = .parse cause ∧ cause.IsSyntactic := by
  obtain ⟨src, h, symbols⟩ := r
  rcases form?_settles src with done | ⟨p, src', fits, reads⟩ | fails
  · rw [Ends, moves_form? done h symbols]
    exact ⟨done, rfl⟩
  · have worded : p.Worded := reads.no_comma_name
    have costs := Phrase.costs_build worded ⟨src, h, symbols⟩
    refine ((form?_carries fits.1 fits.2 reads).ends (p := fun v? _ _ => v?.isSome = true)
      (q := fun e => e = .heapFull) ?_).mono ?_ ?_
    · rw [ends_map]
      exact costs.mono (fun _ _ _ => rfl) fun _ _ ends => ends.1
    · rintro v? r ⟨here, found⟩
      cases v? with
      | none => cases found
      | some v => exact ⟨p, here ▸ reads⟩
    · exact fun _ _ => .inl
  · obtain ⟨cells, ends⟩ := fails.ends
    refine (ends h symbols).mono (fun _ _ => False.elim) ?_
    rintro e r (⟨full, -⟩ | ⟨-, cause⟩)
    · exact .inl full
    · exact .inr cause

theorem formsWithin_cons (c : Char) (bound : List Char) :
    formsWithin (c :: bound) = fun read => (do
      match ← form? with
      | none => return read.reverse
      | some v => formsWithin bound (v :: read)) := by
  funext read
  exact formsWithin.eq_def (c :: bound) read

theorem formsWithin_settles {bound : List Char} (enough : src.unread.length ≤ bound.length) :
    (∃ ps src', (∀ p ∈ ps, Fits maxNesting 0 p) ∧ Reads src (tokensAll ps) src' ∧
        src'.atEnd = true) ∨ Fails src (formsWithin bound) := by
  induction bound generalizing src with
  | nil =>
    left
    rw [List.length_nil, Nat.le_zero, List.length_eq_zero_iff] at enough
    obtain ⟨o, unread⟩ := src
    cases enough
    exact ⟨[], _, nofun, .nil _, rfl⟩
  | cons c bound ih =>
    rcases form?_settles src with done | ⟨p, src₁, fits, reads⟩ | fails
    · left
      exact ⟨[], src, nofun, .nil src, done⟩
    · obtain ⟨t, ts, spelled, -, -⟩ := exists_tokens_eq_cons p
      have worded : p.Worded := reads.no_comma_name
      have enough : src₁.unread.length ≤ bound.length := by
        rw [spelled] at reads
        obtain ⟨d, rest, same, enough⟩ := reads.exists_bound enough
        cases same
        exact enough
      rcases ih enough with ⟨ps, src', fit, later, done⟩ | fails
      · left
        refine ⟨p :: ps, src', List.forall_mem_cons.mpr ⟨fits, fit⟩, ?_, done⟩
        rw [tokensAll]
        exact reads.append later
      · right
        rw [formsWithin_cons]
        exact .behind (k := some) worded (fun _ => form?_carries fits.1 fits.2 reads)
          (fails.reindex fun (rv : List Value × Value) => rv.2 :: rv.1)
    · right
      rw [formsWithin_cons]
      exact (fails.reindex fun _ => ()).bind _

/-- The text is written with these phrases, none of which is nested too deeply or unquotes an
expression outside of templates. -/
def Grammatical (text : String) (ps : List Phrase) : Prop :=
  Token.Lexes text.toList (ps.flatMap Phrase.tokens) ∧ ∀ p ∈ ps, Fits maxNesting 0 p

theorem forms_carries (fit : ∀ p ∈ ps, Fits maxNesting 0 p) (reads : Reads src (tokensAll ps) src')
    (done : src'.atEnd = true) : Carries (buildAll ps) src forms src'.skipBlanks := by
  have within := formsWithin_carries fit reads done (Nat.le_refl _) []
  simp only [List.reverse_nil, List.nil_append, bind_pure] at within
  exact .after (fun _ _ => rfl) within

theorem forms_settles (src : Source) :
    (∃ ps src', (∀ p ∈ ps, Fits maxNesting 0 p) ∧ Reads src (tokensAll ps) src' ∧
        src'.atEnd = true) ∨ Fails src fun _ : Unit => forms := by
  have enough : src.unread.length ≤ src.unread.length := Nat.le_refl _
  rcases formsWithin_settles enough with all | fails
  · exact .inl all
  · right
    exact .after (fun _ _ => rfl) (fails.reindex fun _ => [])

theorem grammatical_iff {text : String} : Grammatical text ps ↔
    ∃ src', (∀ p ∈ ps, Fits maxNesting 0 p) ∧ Reads (.ofString text) (tokensAll ps) src' ∧
      src'.atEnd = true := by
  rw [Grammatical, Token.Lexes, Phrase.tokensAll_eq]
  constructor
  · rintro ⟨⟨src', reads, done⟩, fit⟩
    exact ⟨src', fit, reads, done⟩
  · rintro ⟨src', fit, reads, done⟩
    exact ⟨⟨src', reads, done⟩, fit⟩

theorem forms_of_grammatical {text : String} (grammatical : Grammatical text ps) (h : Heap)
    (symbols : SymbolTable) : Ends forms ⟨.ofString text, h, symbols⟩
      (fun vs r => h.size + Phrase.cellsAll ps ≤ h.capacity ∧
        List.Forall₂ (·.Unfolds r.heap r.symbols ·) vs (ps.map Phrase.desugar))
      fun e _ => e = .heapFull ∧ h.capacity < h.size + Phrase.cellsAll ps := by
  have worded : ∀ p ∈ ps, p.Worded := by
    obtain ⟨⟨src', reads, -⟩, -⟩ := grammatical
    simpa [Phrase.Worded] using reads.no_comma_name
  obtain ⟨src', fit, reads, done⟩ := grammatical_iff.mp grammatical
  have carries := forms_carries fit reads done
  have costs := Phrase.costs_buildAll worded ⟨.ofString text, h, symbols⟩
  rw [Phrase.desugarAll_eq] at costs
  refine (carries.ends (p := fun vs h' symbols' => h.Adds (Phrase.cellsAll ps) h' ∧
    List.Forall₂ (·.Unfolds h' symbols' ·) vs (ps.map Phrase.desugar))
    (costs.mono (fun _ _ ends => ⟨ends.2.1, ends.2.2.2⟩) fun _ _ => id)).mono ?_ fun _ _ => id
  rintro vs r ⟨-, adds, all⟩
  have fits := r.heap.size_le_capacity
  rw [adds.size, adds.capacity] at fits
  exact ⟨fits, all⟩

/-- The reader accepts exactly the texts of the grammar, given room for the cells that a text
takes: what it reads from such a text are the trees that the phrases stand for, and every other
text is an error of the text. -/
theorem forms_grammar (text : String) : ∃ cells, ∀ h symbols,
    (h.capacity < h.size + cells →
      ∃ r, forms ⟨.ofString text, h, symbols⟩ = .error .heapFull r) ∧
    (h.size + cells ≤ h.capacity →
      ((∃ vs r, forms ⟨.ofString text, h, symbols⟩ = .ok vs r) ↔ ∃ ps, Grammatical text ps) ∧
      (∀ ps, Grammatical text ps → ∃ vs r, forms ⟨.ofString text, h, symbols⟩ = .ok vs r ∧
        List.Forall₂ (·.Unfolds r.heap r.symbols ·) vs (ps.map Phrase.desugar)) ∧
      ((¬∃ ps, Grammatical text ps) →
        ∃ cause r, forms ⟨.ofString text, h, symbols⟩ = .error (.parse cause) r)) := by
  have accepted {h : Heap} {symbols : SymbolTable} {vs : List Value} {r : Reading}
      (run : forms ⟨.ofString text, h, symbols⟩ = .ok vs r) {ps : List Phrase}
      (grammatical : Grammatical text ps) :
      List.Forall₂ (·.Unfolds r.heap r.symbols ·) vs (ps.map Phrase.desugar) :=
    ((forms_of_grammatical grammatical h symbols).of_eq_ok run).2
  rcases forms_settles (.ofString text) with ⟨ps, src', read⟩ | fails
  · have grammatical : Grammatical text ps := grammatical_iff.mpr ⟨src', read⟩
    refine ⟨Phrase.cellsAll ps, fun h symbols => ?_⟩
    have ends := forms_of_grammatical grammatical h symbols
    cases run : forms ⟨.ofString text, h, symbols⟩ with
    | ok vs r =>
      have room := (ends.of_eq_ok run).1
      refine ⟨fun full => by omega, fun _ => ⟨?_, ?_, ?_⟩⟩
      · exact ⟨fun _ => ⟨ps, grammatical⟩, fun _ => ⟨vs, r, rfl⟩⟩
      · exact fun qs grammatical' => ⟨vs, r, rfl, accepted run grammatical'⟩
      · exact fun none => absurd ⟨ps, grammatical⟩ none
    | error e r =>
      obtain ⟨rfl, full⟩ := ends.of_eq_error run
      exact ⟨fun _ => ⟨r, rfl⟩, fun room => by omega⟩
  · obtain ⟨cells, ends⟩ := fails.ends
    refine ⟨cells, fun h symbols => ?_⟩
    have ends := ends h symbols
    cases run : forms ⟨.ofString text, h, symbols⟩ with
    | ok vs r => exact (ends.of_eq_ok run).elim
    | error e r =>
      have none {ps : List Phrase} (room : h.size + cells ≤ h.capacity) :
          ¬Grammatical text ps := by
        intro grammatical
        have full := ((forms_of_grammatical grammatical h symbols).of_eq_error run).1
        rcases ends.of_eq_error run with ⟨-, less⟩ | ⟨-, cause, rfl, -⟩
        · omega
        · cases full
      rcases ends.of_eq_error run with ⟨rfl, full⟩ | ⟨room, cause, rfl, -⟩
      · exact ⟨fun _ => ⟨r, rfl⟩, fun room => by omega⟩
      · refine ⟨fun full => by omega, fun _ => ⟨?_, ?_, ?_⟩⟩
        · simp [none room]
        · exact fun ps grammatical => absurd grammatical (none room)
        · exact fun _ => ⟨cause, r, rfl⟩

end Reading

end SecdLisp
