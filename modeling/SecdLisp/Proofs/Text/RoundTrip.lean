import SecdLisp.Proofs.Parallel.Print
import SecdLisp.Proofs.Text.Grammar
import SecdLisp.Proofs.Text.Words

/-!
# Reading what was printed

The printed form of a value spells the tree that the value unfolds to, as long as the tree is
within the limits of printing: the pairs that are being printed stand for larger trees, so none of
them is met again. A spelled tree is a phrase without abbreviations, and the tree that this phrase
stands for is the same again.
-/

namespace SecdLisp

namespace Token

variable {w : List Char} {t : Token} {rest : List Char}

theorem isDigit_of_mem_toDigits {n : Nat} {c : Char} (mem : c ∈ Nat.toDigits 10 n) :
    c.isDigit = true := Nat.isDigit_of_mem_toDigits (by decide) (by decide) mem

theorem allDigits_toDigits (n : Nat) : allDigits (Nat.toDigits 10 n) = true :=
  allDigits_iff.mpr ⟨Nat.toDigits_ne_nil, fun _ => isDigit_of_mem_toDigits⟩

theorem ofDigits_toDigits (n : Nat) : ofDigits (Nat.toDigits 10 n) = n := by
  have same := Nat.ofDigitChars_ten_toDigits (n := n)
  rwa [Nat.ofDigitChars] at same

/-- The characters of a number as it is printed. -/
theorem toList_toString (n : Int) : (toString n).toList =
    if n < 0 then '-' :: Nat.toDigits 10 n.natAbs else Nat.toDigits 10 n.natAbs := by
  cases n with
  | ofNat n => simp [toString, Int.repr]
  | negSucc n => simp [toString, Int.repr]

theorem numeral?_toString (n : Int) : numeral? (toString n).toList = some n := by
  rw [toList_toString]
  by_cases negative : n < 0
  · rw [if_pos negative, numeral?, if_pos (allDigits_toDigits _), ofDigits_toDigits]
    congr 1
    omega
  · have first : ∀ ds, Nat.toDigits 10 n.natAbs ≠ '-' :: ds := by
      intro ds same
      have digit := isDigit_of_mem_toDigits (n := n.natAbs) (c := '-') (by simp [same])
      exact absurd digit (by decide)
    rw [if_neg negative, numeral?.eq_2 _ first, if_pos (allDigits_toDigits _), ofDigits_toDigits]
    congr 1
    omega

theorem isWord_toString (n : Int) : IsWord (toString n).toList := by
  have digits : ∀ c ∈ Nat.toDigits 10 n.natAbs, isDelimiter c = false := fun _ mem =>
    isDelimiter_of_isDigit (isDigit_of_mem_toDigits mem)
  rw [toList_toString]
  split
  · exact ⟨by simp, List.forall_mem_cons.mpr ⟨by decide, digits⟩⟩
  · exact ⟨Nat.toDigits_ne_nil, digits⟩

theorem ofWord_toString (n : Int64) : ofWord (toString n.toInt).toList = .ok (.int n) := by
  have fits : word? n.toInt = some n := word?_eq_some_iff.mpr rfl
  simp only [ofWord, numeral?_toString, fits]

/-- A name that is read as it is printed: it has no character that ends a word, is no numeral and
is none of the two atoms. -/
structure IsPlain (name : String) : Prop where
  some : name ≠ ""
  ordinary : ∀ c ∈ name.toList, c ∉ delimiters
  noNumeral : ¬∃ ds, ds ≠ [] ∧ (∀ d ∈ ds, d.isDigit = true) ∧
    (name.toList = ds ∨ name.toList = '-' :: ds)
  notNil : name ≠ "nil"
  notTruth : name ≠ "t"

theorem IsPlain.isWord {name : String} (plain : IsPlain name) : IsWord name.toList := by
  refine ⟨by simpa using plain.some, fun c mem => ?_⟩
  rw [← Bool.not_eq_true, isDelimiter_iff]
  exact plain.ordinary c mem

theorem IsPlain.ofWord {name : String} (plain : IsPlain name) :
    Token.ofWord name.toList = .ok (.ident name) := by
  simp only [Token.ofWord, numeral?_eq_none_iff.mpr plain.noNumeral, String.ofList_toList]

theorem reads_word {o : Nat} (word : IsWord w) (means : ofWord w = .ok t)
    (delimited : Delimited rest) : ∃ o', Reads ⟨o, w ++ rest⟩ [t] ⟨o', rest⟩ := by
  obtain ⟨c, w, rfl⟩ := List.exists_cons_of_ne_nil word.1
  obtain ⟨blank, -, semicolon⟩ := isDelimiter_eq_false.mp (word.2 c (by simp))
  have here : Source.skipBlanks ⟨o, c :: w ++ rest⟩ = ⟨o, c :: w ++ rest⟩ :=
    Source.skipFrom_of_stop blank semicolon
  have found := next?_word here word delimited
  rw [means] at found
  exact ⟨_, .one found⟩

theorem reads_punctuation {o : Nat} {c : Char} (one : punctuation? c = some t)
    (blank : isBlank c = false) (semicolon : c ≠ ';') :
    ∃ o', Reads ⟨o, c :: rest⟩ [t] ⟨o', rest⟩ :=
  ⟨_, .one (next?_punctuation (Source.skipFrom_of_stop blank semicolon) one)⟩

theorem reads_space {o : Nat} {cs : List Char} {ts : List Token} {src : Source}
    (reads : Reads ⟨o + 1, cs⟩ (t :: ts) src) : Reads ⟨o, ' ' :: cs⟩ (t :: ts) src := by
  cases reads with
  | cons found later => exact .cons found later

end Token

namespace Sexp

/-- A list or its end. -/
def IsList : Sexp → Prop
  | .nil => True
  | .cons .. => True
  | _ => False

/-- All lists in the tree end in nil. -/
def IsProper : Sexp → Prop
  | .cons a b => IsProper a ∧ IsProper b ∧ IsList b
  | _ => True

def Names (p : String → Prop) : Sexp → Prop
  | .name s => p s
  | .cons a b => Names p a ∧ Names p b
  | _ => True

def cells : Sexp → Nat
  | .cons a b => cells a + cells b + 1
  | _ => 0

mutual

/-- How many values are printed: atoms and lists, the rest of a list not counted. -/
def nodes : Sexp → Nat
  | .cons a b => nodes a + restNodes b + 1
  | _ => 1

def restNodes : Sexp → Nat
  | .cons a b => nodes a + restNodes b
  | _ => 0

end

mutual

def spell : Sexp → List Char
  | .nil => ['n', 'i', 'l']
  | .truth => ['t']
  | .int n => (toString n.toInt).toList
  | .name s => s.toList
  | .cons a b => '(' :: (spell a ++ (spellRest b ++ [')']))

def spellRest : Sexp → List Char
  | .cons a b => ' ' :: (spell a ++ spellRest b)
  | _ => []

end

mutual

/-- The phrase that the tree is spelled as. -/
def phrase : Sexp → Phrase
  | .nil => .word "nil"
  | .truth => .word "t"
  | .int n => .int n
  | .name s => .word s
  | .cons a b => .list (phrase a :: phrases b)

def phrases : Sexp → List Phrase
  | .cons a b => phrase a :: phrases b
  | _ => []

end

variable {s : Sexp}

theorem nodes_pos (s : Sexp) : 0 < s.nodes := by
  cases s <;> simp [nodes]

theorem desugar_phrase (proper : s.IsProper) (plain : s.Names Token.IsPlain) :
    s.phrase.desugar = s ∧ (s.IsList → Sexp.list (Phrase.desugarAll s.phrases) = s) := by
  induction s with
  | nil => exact ⟨rfl, fun _ => rfl⟩
  | truth => exact ⟨rfl, False.elim⟩
  | int n => exact ⟨rfl, False.elim⟩
  | name s =>
    refine ⟨?_, False.elim⟩
    rw [phrase, Phrase.desugar, Phrase.ofWord, if_neg plain.notNil, if_neg plain.notTruth]
  | cons a b iha ihb =>
    obtain ⟨first, rest, list⟩ := proper
    have head := (iha first plain.1).1
    have tail := (ihb rest plain.2).2 list
    have all : Sexp.list (Phrase.desugarAll (a.phrase :: b.phrases)) = .cons a b := by
      rw [Phrase.desugarAll, list_cons, head, tail]
    exact ⟨all, fun _ => all⟩

theorem isScoped_phrase (s : Sexp) (n : Nat) :
    s.phrase.isScoped n = true ∧ Phrase.areScoped n s.phrases = true := by
  induction s with
  | cons a b iha ihb =>
    have all : Phrase.areScoped n (a.phrase :: b.phrases) = true := by
      rw [Phrase.areScoped, iha.1, ihb.2]
      rfl
    exact ⟨all, all⟩
  | _ => exact ⟨rfl, rfl⟩

theorem height_phrase (s : Sexp) :
    s.phrase.height ≤ s.nest + 1 ∧ Phrase.heightAll s.phrases ≤ s.nest := by
  induction s with
  | cons a b iha ihb =>
    have all : Phrase.heightAll (a.phrase :: b.phrases) ≤ nest (.cons a b) := by
      rw [Phrase.heightAll, nest]
      omega
    exact ⟨Nat.add_le_add_right all 1, all⟩
  | _ => exact ⟨by simp [phrase, Phrase.height], by simp [phrases, Phrase.heightAll]⟩

theorem cells_phrase (proper : s.IsProper) : s.phrase.cells = s.cells ∧
    (s.IsList → Phrase.cellsAll s.phrases + s.phrases.length = s.cells) := by
  induction s with
  | cons a b iha ihb =>
    obtain ⟨first, rest, list⟩ := proper
    have head := (iha first).1
    have tail := (ihb rest).2 list
    have all : Phrase.cellsAll (a.phrase :: b.phrases) + (a.phrase :: b.phrases).length =
        cells (.cons a b) := by
      rw [Phrase.cellsAll, List.length_cons, cells, ← tail, head]
      omega
    exact ⟨all, fun _ => all⟩
  | _ => exact ⟨rfl, fun _ => rfl⟩

/-- The text of a tree has the tokens of its phrase, if a delimiter follows. -/
theorem reads_spell (plain : s.Names Token.IsPlain) {rest : List Char}
    (delimited : Token.Delimited rest) (o : Nat) :
    (∃ o', Token.Reads ⟨o, s.spell ++ rest⟩ s.phrase.tokens ⟨o', rest⟩) ∧
      ∃ o', Token.Reads ⟨o, s.spellRest ++ rest⟩ (Phrase.tokensAll s.phrases) ⟨o', rest⟩ := by
  induction s generalizing rest o with
  | nil => exact ⟨Token.reads_word (by decide) rfl delimited, o, .nil _⟩
  | truth => exact ⟨Token.reads_word (by decide) rfl delimited, o, .nil _⟩
  | int n =>
    exact ⟨Token.reads_word (Token.isWord_toString _) (Token.ofWord_toString n) delimited, o,
      .nil _⟩
  | name s => exact ⟨Token.reads_word plain.isWord plain.ofWord delimited, o, .nil _⟩
  | cons a b iha ihb =>
    have items {rest : List Char} (delimited : Token.Delimited rest) (o : Nat) :
        ∃ o', Token.Reads ⟨o, a.spell ++ (b.spellRest ++ rest)⟩
          (Phrase.tokensAll (a.phrase :: b.phrases)) ⟨o', rest⟩ := by
      have inner : Token.Delimited (b.spellRest ++ rest) := by
        cases b with
        | cons => exact Token.delimited_cons (by decide)
        | _ => exact delimited
      obtain ⟨o₁, first⟩ := (iha plain.1 inner o).1
      obtain ⟨o₂, later⟩ := (ihb plain.2 delimited o₁).2
      exact ⟨o₂, first.append later⟩
    constructor
    · have delimited' : Token.Delimited (')' :: rest) := Token.delimited_cons (by decide)
      obtain ⟨o₁, opening⟩ := Token.reads_punctuation (o := o) (c := '(') rfl rfl (by decide)
      obtain ⟨o₂, inner⟩ := items delimited' o₁
      obtain ⟨o₃, closing⟩ : ∃ o₃, Token.Reads ⟨o₂, ')' :: rest⟩ [.closing] ⟨o₃, rest⟩ :=
        Token.reads_punctuation rfl rfl (by decide)
      refine ⟨o₃, ?_⟩
      rw [spell, List.cons_append, List.append_assoc, List.append_assoc]
      exact opening.append (inner.append closing)
    · obtain ⟨o', inner⟩ := items delimited (o + 1)
      refine ⟨o', ?_⟩
      rw [spellRest, List.cons_append, List.append_assoc]
      obtain ⟨t, ts, spelled, -, -⟩ := Reading.exists_tokens_eq_cons a.phrase
      rw [Phrase.tokensAll, spelled] at inner
      rw [phrases, Phrase.tokensAll, spelled]
      exact Token.reads_space inner

end Sexp

namespace Print

open Parallel (Covers covers_size)

variable {h : Heap} {symbols : SymbolTable} {v : Value} {s t : Sexp} {path : Path} {a : Addr}
  {o : Output}

def Above (h : Heap) (symbols : SymbolTable) (s : Sexp) (path : Path) : Prop :=
  ∀ a, path.contains a = true → ∃ t, (Value.pair a).Unfolds h symbols t ∧ sizeOf s < sizeOf t

theorem Above.not_contains (above : Above h symbols s path)
    (unfolds : (Value.pair a).Unfolds h symbols s) : path.contains a = false := by
  by_contra mem
  rw [Bool.not_eq_false] at mem
  obtain ⟨t, there, less⟩ := above a mem
  rw [there.unique unfolds] at less
  omega

theorem Above.insert (above : Above h symbols s path)
    (unfolds : (Value.pair a).Unfolds h symbols s) (less : sizeOf t < sizeOf s) :
    Above h symbols t (path.insert a) := by
  intro b mem
  rw [Std.TreeSet.contains_insert, Bool.or_eq_true, beq_iff_eq, Std.compare_eq_iff_eq] at mem
  rcases mem with rfl | mem
  · exact ⟨s, unfolds, less⟩
  · obtain ⟨u, there, more⟩ := above b mem
    exact ⟨u, there, by omega⟩

/-- Within the limits, the tree is printed as it is spelled. -/
def Spells (h : Heap) (symbols : SymbolTable) (s : Sexp) : Prop :=
  ∀ v room path o, v.Unfolds h symbols s → s.nest < room → s.nodes ≤ o.budget →
    Above h symbols s path → Print.value h symbols room path v o =
      ⟨o.text ++ String.ofList s.spell, o.budget - s.nodes⟩

def SpellsRest (h : Heap) (symbols : SymbolTable) (s : Sexp) : Prop :=
  ∀ v room fuel path o, v.Unfolds h symbols s → s.nest ≤ room → s.restNodes ≤ o.budget →
    Above h symbols s path → Covers path h fuel →
      tail h (Print.value h symbols room) fuel path v o =
        ⟨o.text ++ String.ofList s.spellRest, o.budget - s.restNodes⟩

theorem spells_atom (one : s.nodes = 1) (atoms : ∀ {v : Value}, v.Unfolds h symbols s →
    (∀ a, v ≠ .pair a) ∧ atom symbols v = String.ofList s.spell) : Spells h symbols s := by
  intro v room path o unfolds deep budget above
  obtain ⟨room, rfl⟩ := Nat.exists_eq_add_one.mpr (Nat.zero_lt_of_lt deep)
  obtain ⟨notPair, same⟩ := atoms unfolds
  have spare : o.budget ≠ 0 := by omega
  cases v with
  | pair a => exact absurd rfl (notPair a)
  | _ => simp [Print.value, spare, one, ← same, Output.put, Output.spend]

theorem spellsRest_nil : SpellsRest h symbols .nil := by
  intro v room fuel path o unfolds deep budget above covers
  rw [Value.unfolds_nil] at unfolds
  subst unfolds
  cases fuel <;> simp [tail, Sexp.spellRest, Sexp.restNodes]

theorem spellsRest_cons {a b : Sexp} (first : Spells h symbols a) (rest : SpellsRest h symbols b) :
    SpellsRest h symbols (.cons a b) := by
  intro v room fuel path o unfolds deep budget above covers
  obtain ⟨c, owned, rfl, car, cdr⟩ := Value.unfolds_cons.mp unfolds
  have out := above.not_contains unfolds
  have some := a.nodes_pos
  rw [Sexp.nest] at deep
  rw [Sexp.restNodes] at budget ⊢
  have spare : o.budget ≠ 0 := by omega
  cases fuel with
  | zero =>
    rw [covers.contains owned] at out
    cases out
  | succ fuel =>
    rw [tail, out, decide_eq_false spare]
    have above₁ := above.insert unfolds (Sexp.sizeOf_car a b)
    have above₂ := above.insert unfolds (Sexp.sizeOf_cdr a b)
    simp only [Bool.or_self, Bool.false_eq_true, if_false]
    rw [first _ _ _ _ car (by omega) (by simp only [Output.put]; omega) above₁]
    rw [rest _ _ _ _ _ cdr (by omega) (by simp only [Output.put]; omega) above₂
      (covers.insert owned out)]
    simp only [Output.put, Output.mk.injEq, Sexp.spellRest]
    refine ⟨?_, by omega⟩
    rw [← String.toList_inj]
    simp

theorem spells_cons {a b : Sexp} (first : Spells h symbols a) (rest : SpellsRest h symbols b) :
    Spells h symbols (.cons a b) := by
  intro v room path o unfolds deep budget above
  obtain ⟨c, owned, rfl, car, cdr⟩ := Value.unfolds_cons.mp unfolds
  obtain ⟨room, rfl⟩ := Nat.exists_eq_add_one.mpr (Nat.zero_lt_of_lt deep)
  have out := above.not_contains unfolds
  rw [Sexp.nest] at deep
  rw [Sexp.nodes] at budget ⊢
  have spare : o.budget ≠ 0 := by omega
  have above₁ := above.insert unfolds (Sexp.sizeOf_car a b)
  have above₂ := above.insert unfolds (Sexp.sizeOf_cdr a b)
  rw [Print.value, if_neg spare]
  simp only [out, Bool.false_eq_true, if_false]
  rw [first _ _ _ _ car (by omega) (by simp only [Output.put, Output.spend]; omega) above₁]
  rw [rest _ _ _ _ _ cdr (by omega) (by simp only [Output.put, Output.spend]; omega) above₂
    (covers_size _ h)]
  simp only [Output.put, Output.spend, Output.mk.injEq, Sexp.spell]
  refine ⟨?_, by omega⟩
  rw [← String.toList_inj]
  simp

theorem spells (proper : s.IsProper) :
    Spells h symbols s ∧ (s.IsList → SpellsRest h symbols s) := by
  induction s with
  | nil => exact ⟨spells_atom rfl (by simp [atom, Sexp.spell]), fun _ => spellsRest_nil⟩
  | truth => exact ⟨spells_atom rfl (by simp [atom, Sexp.spell]), False.elim⟩
  | int n => exact ⟨spells_atom rfl (by simp [atom, Sexp.spell]), False.elim⟩
  | name s =>
    refine ⟨spells_atom rfl fun unfolds => ?_, False.elim⟩
    obtain ⟨i, lt, rfl, spelled⟩ := Value.unfolds_name.mp unfolds
    simp [atom, Sexp.spell, spelled]
  | cons a b iha ihb =>
    obtain ⟨first, rest, list⟩ := proper
    have head := (iha first).1
    have tail := (ihb rest).2 list
    exact ⟨spells_cons head tail, fun _ => spellsRest_cons head tail⟩

end Print

/-- A value is printed as its tree is spelled, if no limit of printing is passed. -/
theorem Value.print_eq_spell {h : Heap} {symbols : SymbolTable} {v : Value} {s : Sexp}
    (unfolds : v.Unfolds h symbols s) (proper : s.IsProper) (shallow : s.nest ≤ 200)
    (small : s.nodes ≤ 100000) : v.print h symbols = String.ofList s.spell := by
  have above : Print.Above h symbols s ∅ := fun a mem => by simp at mem
  have printed := (Print.spells proper).1 v (Print.maxDepth + 1) ∅ ⟨"", Print.maxNodes⟩ unfolds
    (Nat.lt_succ_of_le shallow) small above
  rw [Value.print, printed]
  simp

namespace Reading

/-- What was printed of a value is read back, from any heap and symbol table, as a value that
unfolds to the same tree, as long as printing leaves nothing out and the names can be read. -/
theorem form_print {h : Heap} {symbols : SymbolTable} {v : Value} {s : Sexp}
    (unfolds : v.Unfolds h symbols s) (proper : s.IsProper) (shallow : s.nest ≤ 200)
    (small : s.nodes ≤ 100000) (plain : s.Names Token.IsPlain) (h' : Heap)
    (symbols' : SymbolTable) (room : h'.size + s.cells ≤ h'.capacity) : ∃ v' r,
      form ⟨.ofString (v.print h symbols), h', symbols'⟩ = .ok v' r ∧
        v'.Unfolds r.heap r.symbols s ∧ r.source.unread = [] := by
  have text : Source.ofString (v.print h symbols) = ⟨0, s.spell ++ []⟩ := by
    rw [Value.print_eq_spell unfolds proper shallow small]
    simp [Source.ofString]
  obtain ⟨o', reads⟩ := (Sexp.reads_spell plain Token.delimited_nil 0).1
  have worded : s.phrase.Worded := reads.no_comma_name
  have deep : s.phrase.height ≤ maxNesting := by
    have le := (Sexp.height_phrase s).1
    have limit : 200 + 1 ≤ maxNesting := by decide
    omega
  have carries := form_carries deep (Sexp.isScoped_phrase s 0).1 reads
  have costs := Phrase.costs_build worded ⟨⟨0, s.spell ++ []⟩, h', symbols'⟩
  rw [(Sexp.cells_phrase proper).1, (Sexp.desugar_phrase proper plain).1] at costs
  have ends := carries.ends (p := fun v h symbols => v.Unfolds h symbols s)
    (costs.mono (fun _ _ ends => ends.2.2.2) fun _ _ => id)
  rw [text]
  cases run : form ⟨⟨0, s.spell ++ []⟩, h', symbols'⟩ with
  | ok v' r =>
    obtain ⟨here, unfolds'⟩ := ends.of_eq_ok run
    exact ⟨v', r, rfl, unfolds', congrArg Source.unread here⟩
  | error e r =>
    have full : h'.capacity < h'.size + s.cells := (ends.of_eq_error run).2
    omega

/-- The list of a name, a negative number and an empty list. -/
theorem form_print_list : ∃ v' r,
    form ⟨.ofString ((Value.pair 0).print
      ⟨#[⟨.ident 12, .pair 1⟩, ⟨.int (-7), .pair 2⟩, ⟨.nil, .nil⟩], 3, by decide, by decide⟩
      .initial), .ofCapacity 3, .initial⟩ = .ok v' r ∧
      v'.Unfolds r.heap r.symbols (.list [.name "car", .int (-7), .nil]) ∧
      r.source.unread = [] := by
  refine form_print ?_ ?_ (by decide) (by decide) ?_ _ _ (by decide)
  · refine Value.unfolds_cons.mpr ⟨0, by decide, rfl, ?_, ?_⟩
    · exact Value.unfolds_wellKnown (i := 12) rfl
    · refine Value.unfolds_cons.mpr ⟨1, by decide, rfl, Value.unfolds_int.mpr rfl, ?_⟩
      exact Value.unfolds_cons.mpr
        ⟨2, by decide, rfl, Value.unfolds_nil.mpr rfl, Value.unfolds_nil.mpr rfl⟩
  · simp [Sexp.IsProper, Sexp.IsList]
  · have ordinary : "car".toList.all (· ∉ Token.delimiters) = true := by decide
    have car : Token.IsPlain "car" :=
      ⟨by decide, by simpa using ordinary, Token.numeral?_eq_none_iff.mp (by decide), by decide,
        by decide⟩
    simpa [Sexp.Names] using car

end Reading

end SecdLisp
