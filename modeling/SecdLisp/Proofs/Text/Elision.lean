import SecdLisp.Proofs.Parallel.Print

/-!
# What printing leaves out

Printing follows rules that know no bound on the length of a list, and these always come to an end,
since no pair is entered while it is being printed. If the value unfolds to a finite tree within the
limits, the rules spell the tree; otherwise they put three dots somewhere.
-/

namespace SecdLisp

namespace Print

open Parallel (Covers covers_size)

/-- A value is printed, or what follows the first element of a list. -/
inductive Part where
  | whole
  | rest

/-- A value is not left out at this depth. -/
def HasRoom (depth : Nat) (o : Output) : Prop := depth ≤ maxDepth ∧ o.budget ≠ 0

/-- A list goes on with this pair. -/
def GoesOn (path : Path) (a : Addr) (o : Output) : Prop :=
  o.budget ≠ 0 ∧ path.contains a = false

/-- Printing part of a value leads from one output to another, and leaves something out that many
times. -/
inductive Prints (h : Heap) (symbols : SymbolTable) :
    Part → (depth : Nat) → Path → Value → Output → Output → (cuts : Nat) → Prop where
  | leftOut {depth : Nat} {path : Path} {v : Value} {o : Output} (none : ¬HasRoom depth o) :
    Prints h symbols .whole depth path v o (o.put "...") 1
  | atom {depth : Nat} {path : Path} {v : Value} {o : Output} (room : HasRoom depth o)
    (flat : v.isPair = false) :
    Prints h symbols .whole depth path v o (o.spend.put (atom symbols v)) 0
  | knot {depth : Nat} {path : Path} {a : Addr} {o : Output} (room : HasRoom depth o)
    (inside : path.contains a = true) :
    Prints h symbols .whole depth path (.pair a) o (o.spend.put "...") 1
  | list {depth : Nat} {path : Path} {a : Addr} {o o₁ o₂ : Output} {m n : Nat}
    (room : HasRoom depth o) (new : path.contains a = false)
    (first : Prints h symbols .whole (depth + 1) (path.insert a) (h.car a) (o.spend.put "(") o₁ m)
    (later : Prints h symbols .rest depth (path.insert a) (h.cdr a) o₁ o₂ n) :
    Prints h symbols .whole depth path (.pair a) o (o₂.put ")") (m + n)
  | done {depth : Nat} {path : Path} {o : Output} : Prints h symbols .rest depth path .nil o o 0
  | cut {depth : Nat} {path : Path} {a : Addr} {o : Output} (stop : ¬GoesOn path a o) :
    Prints h symbols .rest depth path (.pair a) o (o.put " ...") 1
  | next {depth : Nat} {path : Path} {a : Addr} {o o₁ o₂ : Output} {m n : Nat}
    (more : GoesOn path a o)
    (first : Prints h symbols .whole (depth + 1) (path.insert a) (h.car a) (o.put " ") o₁ m)
    (later : Prints h symbols .rest depth (path.insert a) (h.cdr a) o₁ o₂ n) :
    Prints h symbols .rest depth path (.pair a) o o₂ (m + n)
  | dotted {depth : Nat} {path : Path} {v : Value} {o o₁ : Output} {n : Nat}
    (flat : v.isPair = false) (some : v.isNil = false)
    (last : Prints h symbols .whole (depth + 1) path v (o.put " . ") o₁ n) :
    Prints h symbols .rest depth path v o o₁ n

variable {h : Heap} {symbols : SymbolTable} {part : Part} {depth : Nat} {path : Path} {v : Value}
  {o o₁ o₂ : Output} {m n : Nat}

/-- The rules leave no choice. -/
theorem Prints.unique (first : Prints h symbols part depth path v o o₁ m)
    (second : Prints h symbols part depth path v o o₂ n) : o₁ = o₂ ∧ m = n := by
  induction first generalizing o₂ n with
  | leftOut none =>
    cases second with
    | leftOut => exact ⟨rfl, rfl⟩
    | atom room | knot room | list room => exact absurd room none
  | atom room flat =>
    cases second with
    | leftOut none => exact absurd room none
    | atom => exact ⟨rfl, rfl⟩
    | knot | list => cases flat
  | knot room inside =>
    cases second with
    | leftOut none => exact absurd room none
    | atom _ flat => cases flat
    | knot => exact ⟨rfl, rfl⟩
    | list _ new =>
      rw [inside] at new
      cases new
  | list room new _ _ ihFirst ihLater =>
    cases second with
    | leftOut none => exact absurd room none
    | atom _ flat => cases flat
    | knot _ inside =>
      rw [inside] at new
      cases new
    | list _ _ first later =>
      obtain ⟨rfl, rfl⟩ := ihFirst first
      obtain ⟨rfl, rfl⟩ := ihLater later
      exact ⟨rfl, rfl⟩
  | done =>
    cases second with
    | done => exact ⟨rfl, rfl⟩
    | dotted _ some => cases some
  | cut stop =>
    cases second with
    | cut => exact ⟨rfl, rfl⟩
    | next more => exact absurd more stop
    | dotted flat => cases flat
  | next more _ _ ihFirst ihLater =>
    cases second with
    | cut stop => exact absurd more stop
    | next _ first later =>
      obtain ⟨rfl, rfl⟩ := ihFirst first
      obtain ⟨rfl, rfl⟩ := ihLater later
      exact ⟨rfl, rfl⟩
    | dotted flat => cases flat
  | dotted flat some _ ih =>
    cases second with
    | done => cases some
    | cut | next => cases flat
    | dotted _ _ last => exact ih last

theorem lt_size_of_isPair {a : Addr} (pair : (h.cdr a).isPair = true) : a < h.size := by
  by_contra out
  rw [Heap.cdr, Heap.cell_of_le (Nat.le_of_not_lt out)] at pair
  cases pair

/-- The walk along a list is over before its bound is used up: it enters no pair twice. -/
theorem prints_tail {item : Path → Value → Output → Output}
    (items : ∀ path v o, ∃ n, Prints h symbols .whole (depth + 1) path v o (item path v o) n)
    (fuel : Nat) (path : Path) (v : Value) (o : Output)
    (enough : v.isPair = true → ∃ k < fuel, Covers path h k) :
    ∃ n, Prints h symbols .rest depth path v o (tail h item fuel path v o) n := by
  induction fuel generalizing path v o with
  | zero =>
    cases v with
    | nil => exact ⟨0, .done⟩
    | pair a =>
      obtain ⟨k, less, -⟩ := enough rfl
      exact absurd less (Nat.not_lt_zero k)
    | _ =>
      obtain ⟨n, last⟩ := items path _ (o.put " . ")
      exact ⟨n, .dotted rfl rfl last⟩
  | succ fuel ih =>
    cases v with
    | nil => exact ⟨0, .done⟩
    | pair a =>
      rw [tail]
      by_cases more : GoesOn path a o
      · have enough' : (h.cdr a).isPair = true → ∃ k < fuel, Covers (path.insert a) h k := by
          intro pair
          obtain ⟨k, less, covers⟩ := enough rfl
          have owned := lt_size_of_isPair pair
          obtain _ | k := k
          · have inside := covers.contains owned
            rw [more.2] at inside
            cases inside
          · exact ⟨k, Nat.lt_of_succ_lt_succ less, covers.insert owned more.2⟩
        obtain ⟨m, first⟩ := items (path.insert a) (h.car a) (o.put " ")
        obtain ⟨n, later⟩ := ih (path.insert a) (h.cdr a) _ enough'
        rw [if_neg (by simp [more.1, more.2])]
        exact ⟨m + n, .next more first later⟩
      · rw [if_pos]
        · exact ⟨1, .cut more⟩
        · rw [GoesOn, not_and_or, not_not, Bool.not_eq_false] at more
          simpa using more
    | _ =>
      obtain ⟨n, last⟩ := items path _ (o.put " . ")
      exact ⟨n, .dotted rfl rfl last⟩

theorem prints_value (room depth : Nat) (levels : room + depth = maxDepth + 1) (path : Path)
    (v : Value) (o : Output) :
    ∃ n, Prints h symbols .whole depth path v o (value h symbols room path v o) n := by
  induction room generalizing depth path v o with
  | zero => exact ⟨1, .leftOut fun has => by have := has.1; omega⟩
  | succ room ih =>
    unfold value
    by_cases spent : o.budget = 0
    · rw [if_pos spent]
      exact ⟨1, .leftOut fun has => has.2 spent⟩
    have has : HasRoom depth o := ⟨by omega, spent⟩
    rw [if_neg spent]
    cases v with
    | pair a =>
      dsimp only
      cases inside : path.contains a with
      | true => exact ⟨1, .knot has inside⟩
      | false =>
        have enough : (h.cdr a).isPair = true → ∃ k < h.size, Covers (path.insert a) h k := by
          intro pair
          have owned := lt_size_of_isPair pair
          have covers := covers_size path h
          obtain ⟨k, size⟩ := Nat.exists_eq_add_one.mpr (Nat.zero_lt_of_lt owned)
          rw [size] at covers
          exact ⟨k, by omega, covers.insert owned inside⟩
        have items := ih (depth + 1) (by omega)
        obtain ⟨m, first⟩ := items (path.insert a) (h.car a) (o.spend.put "(")
        obtain ⟨n, later⟩ := prints_tail items h.size (path.insert a) (h.cdr a) _ enough
        exact ⟨m + n, .list has inside first later⟩
    | _ => exact ⟨0, .atom has rfl⟩

/-- There are three dots in the text. -/
def ShowsDots (text : String) : Prop := "...".toList <:+: text.toList

theorem ShowsDots.append_right {s : String} (shows' : ShowsDots s) (t : String) :
    ShowsDots (s ++ t) := by
  rw [ShowsDots, String.toList_append]
  exact shows'.trans (List.prefix_append ..).isInfix

theorem ShowsDots.append_left {t : String} (shows' : ShowsDots t) (s : String) :
    ShowsDots (s ++ t) := by
  rw [ShowsDots, String.toList_append]
  exact shows'.trans (List.suffix_append ..).isInfix

theorem showsDots_append {s t : String} (left : 0 < m → ShowsDots s) (right : 0 < n → ShowsDots t)
    (pos : 0 < m + n) : ShowsDots (s ++ t) := by
  by_cases here : 0 < m
  · exact (left here).append_right t
  · exact (right (by omega)).append_left s

theorem Prints.writes (prints : Prints h symbols part depth path v o o₁ n) :
    ∃ more, o₁.text = o.text ++ more ∧ (0 < n → ShowsDots more) := by
  induction prints with
  | leftOut => exact ⟨"...", rfl, fun _ => List.infix_rfl⟩
  | atom => exact ⟨_, rfl, nofun⟩
  | knot => exact ⟨"...", rfl, fun _ => List.infix_rfl⟩
  | list room new _ _ ihFirst ihLater =>
    obtain ⟨item, text, dots⟩ := ihFirst
    obtain ⟨more, text', dots'⟩ := ihLater
    refine ⟨"(" ++ (item ++ more ++ ")"), ?_, fun pos => ?_⟩
    · simp [Output.put, Output.spend, text', text, String.append_assoc]
    · exact ((showsDots_append dots dots' pos).append_right ")").append_left "("
  | done => exact ⟨"", String.append_empty.symm, nofun⟩
  | cut => exact ⟨" ...", rfl, fun _ => ⟨[' '], [], rfl⟩⟩
  | next more _ _ ihFirst ihLater =>
    obtain ⟨item, text, dots⟩ := ihFirst
    obtain ⟨more, text', dots'⟩ := ihLater
    refine ⟨" " ++ (item ++ more), ?_, fun pos => ?_⟩
    · simp [Output.put, text', text, String.append_assoc]
    · exact (showsDots_append dots dots' pos).append_left " "
  | dotted flat some _ ih =>
    obtain ⟨more, text, dots⟩ := ih
    refine ⟨" . " ++ more, ?_, fun pos => (dots pos).append_left " . "⟩
    simp [Output.put, text, String.append_assoc]

end Print

/-- A finite tree of pairs. -/
inductive Tree where
  | leaf (v : Value)
  | node (car cdr : Tree)

/-- The value is the root of the tree, whose leaves are no pairs. -/
def Value.Spreads (h : Heap) : Value → Tree → Prop
  | v, .leaf w => v = w ∧ v.isPair = false
  | v, .node a b => ∃ c, v = .pair c ∧ (h.car c).Spreads h a ∧ (h.cdr c).Spreads h b

namespace Tree

open Print (Part)

/-- The tree printed as a list is, with nothing left out. -/
def spell (symbols : SymbolTable) : Part → Tree → String
  | .whole, .leaf v => Print.atom symbols v
  | .whole, .node a b => "(" ++ (a.spell symbols .whole ++ (b.spell symbols .rest ++ ")"))
  | .rest, .leaf v => if v.isNil then "" else " . " ++ Print.atom symbols v
  | .rest, .node a b => " " ++ (a.spell symbols .whole ++ b.spell symbols .rest)

/-- How many values are printed: the root, the elements of each list and what follows a dot. -/
def count : Part → Tree → Nat
  | .whole, .leaf _ => 1
  | .whole, .node a b => a.count .whole + b.count .rest + 1
  | .rest, .leaf v => if v.isNil then 0 else 1
  | .rest, .node a b => a.count .whole + b.count .rest

/-- How deep the values nest that are printed. -/
def height : Part → Tree → Nat
  | .whole, .leaf _ => 0
  | .rest, .leaf v => if v.isNil then 0 else 1
  | _, .node a b => max (a.height .whole + 1) (b.height .rest)

theorem sizeOf_car (a b : Tree) : sizeOf a < sizeOf (node a b) := by
  rw [node.sizeOf_spec]
  omega

theorem sizeOf_cdr (a b : Tree) : sizeOf b < sizeOf (node a b) := by
  rw [node.sizeOf_spec]
  omega

theorem count_whole_pos (t : Tree) : 0 < t.count .whole := by
  cases t <;> simp [count]

end Tree

namespace Print

variable {h : Heap} {symbols : SymbolTable} {part : Part} {depth : Nat} {path : Path} {v : Value}
  {o o₁ : Output} {n : Nat} {t t' : Tree} {a : Addr}

theorem spreads_unique (spreads : v.Spreads h t) (spreads' : v.Spreads h t') : t = t' := by
  induction t generalizing v t' with
  | leaf w =>
    obtain ⟨rfl, flat⟩ := spreads
    cases t' with
    | leaf w' => rw [spreads'.1]
    | node a b =>
      obtain ⟨c, rfl, -, -⟩ := spreads'
      cases flat
  | node a b iha ihb =>
    obtain ⟨c, rfl, car, cdr⟩ := spreads
    cases t' with
    | leaf w => cases spreads'.2
    | node a' b' =>
      obtain ⟨_, ⟨⟩, car', cdr'⟩ := spreads'
      rw [iha car car', ihb cdr cdr']

theorem exists_leaf (spreads : v.Spreads h t) (flat : v.isPair = false) : t = .leaf v := by
  cases t with
  | leaf w => rw [spreads.1]
  | node a b =>
    obtain ⟨c, rfl, -, -⟩ := spreads
    cases flat

theorem exists_node (spreads : (Value.pair a).Spreads h t) : ∃ t₁ t₂, t = .node t₁ t₂ ∧
    (h.car a).Spreads h t₁ ∧ (h.cdr a).Spreads h t₂ := by
  cases t with
  | leaf w => cases spreads.2
  | node t₁ t₂ =>
    obtain ⟨_, ⟨⟩, car, cdr⟩ := spreads
    exact ⟨t₁, t₂, rfl, car, cdr⟩

/-- The pairs that are being printed are roots of larger trees. -/
def Inside (h : Heap) (t : Tree) (path : Path) : Prop :=
  ∀ a, path.contains a = true → ∃ t', (Value.pair a).Spreads h t' ∧ sizeOf t < sizeOf t'

theorem Inside.not_contains (inside : Inside h t path) (spreads : (Value.pair a).Spreads h t) :
    path.contains a = false := by
  by_contra mem
  rw [Bool.not_eq_false] at mem
  obtain ⟨t', spreads', less⟩ := inside a mem
  rw [spreads_unique spreads' spreads] at less
  omega

theorem Inside.insert (inside : Inside h t path) (spreads : (Value.pair a).Spreads h t)
    (less : sizeOf t' < sizeOf t) : Inside h t' (path.insert a) := by
  intro b mem
  rw [Std.TreeSet.contains_insert, Bool.or_eq_true, beq_iff_eq, Std.compare_eq_iff_eq] at mem
  obtain rfl | mem := mem
  · exact ⟨t, spreads, less⟩
  · obtain ⟨u, spreads', more⟩ := inside b mem
    exact ⟨u, spreads', less.trans more⟩

/-- Within the limits, nothing is left out and the tree is written as it is spelled. -/
theorem Prints.spells (prints : Prints h symbols part depth path v o o₁ n)
    (spreads : v.Spreads h t) (inside : Inside h t path) (shallow : depth + t.height part ≤ maxDepth)
    (small : t.count part ≤ o.budget) :
    n = 0 ∧ o₁ = ⟨o.text ++ t.spell symbols part, o.budget - t.count part⟩ := by
  induction prints generalizing t with
  | leftOut none =>
    have some := t.count_whole_pos
    exact absurd ⟨by omega, by omega⟩ none
  | atom room flat =>
    obtain rfl := exists_leaf spreads flat
    exact ⟨rfl, rfl⟩
  | knot room mem =>
    rw [inside.not_contains spreads] at mem
    cases mem
  | list room new _ _ ihFirst ihLater =>
    obtain ⟨t₁, t₂, rfl, car, cdr⟩ := exists_node spreads
    rw [Tree.height] at shallow
    rw [Tree.count] at small
    have deeper := inside.insert spreads (Tree.sizeOf_car t₁ t₂)
    have behind := inside.insert spreads (Tree.sizeOf_cdr t₁ t₂)
    obtain ⟨rfl, rfl⟩ := ihFirst car deeper (by omega) (by simp only [Output.put, Output.spend]; omega)
    obtain ⟨rfl, rfl⟩ := ihLater cdr behind (by omega) (by simp only [Output.put, Output.spend]; omega)
    simp only [Output.put, Output.spend, Output.mk.injEq, Tree.spell, Tree.count, String.append_assoc,
      true_and]
    omega
  | done =>
    obtain rfl := exists_leaf spreads rfl
    simp [Tree.spell, Tree.count, Value.isNil]
  | cut stop =>
    obtain ⟨t₁, t₂, rfl, car, cdr⟩ := exists_node spreads
    have some := t₁.count_whole_pos
    rw [Tree.count] at small
    exact absurd ⟨by omega, inside.not_contains spreads⟩ stop
  | next more _ _ ihFirst ihLater =>
    obtain ⟨t₁, t₂, rfl, car, cdr⟩ := exists_node spreads
    rw [Tree.height] at shallow
    rw [Tree.count] at small
    have deeper := inside.insert spreads (Tree.sizeOf_car t₁ t₂)
    have behind := inside.insert spreads (Tree.sizeOf_cdr t₁ t₂)
    obtain ⟨rfl, rfl⟩ := ihFirst car deeper (by omega) (by simp only [Output.put]; omega)
    obtain ⟨rfl, rfl⟩ := ihLater cdr behind (by omega) (by simp only [Output.put]; omega)
    simp only [Output.put, Output.mk.injEq, Tree.spell, Tree.count, String.append_assoc, true_and]
    omega
  | dotted flat some _ ih =>
    obtain rfl := exists_leaf spreads flat
    rw [Tree.height, if_neg (by simp [some])] at shallow
    rw [Tree.count, if_neg (by simp [some])] at small
    obtain ⟨rfl, rfl⟩ := ih spreads inside shallow small
    simp [Output.put, Tree.spell, Tree.count, some, String.append_assoc]

/-- Where nothing is left out, a finite tree within the limits has been printed. -/
theorem Prints.whole_tree (prints : Prints h symbols part depth path v o o₁ n) (whole : n = 0)
    (fits : part = .rest → depth ≤ maxDepth) :
    ∃ t, v.Spreads h t ∧ depth + t.height part ≤ maxDepth ∧ o₁.budget + t.count part = o.budget := by
  induction prints with
  | leftOut | knot | cut => cases whole
  | @atom depth path v o room flat =>
    refine ⟨.leaf v, ⟨rfl, flat⟩, room.1, ?_⟩
    have some := room.2
    simp only [Output.put, Output.spend, Tree.count]
    omega
  | @list depth path a o o₁ o₂ m n room new _ _ ihFirst ihLater =>
    obtain ⟨t₁, car, shallow, small⟩ := ihFirst (by omega) nofun
    obtain ⟨t₂, cdr, shallow', small'⟩ := ihLater (by omega) fun _ => room.1
    have some := room.2
    refine ⟨.node t₁ t₂, ⟨a, rfl, car, cdr⟩, ?_, ?_⟩
    · rw [Tree.height]
      omega
    · simp only [Output.put, Output.spend, Tree.count] at small ⊢
      omega
  | done => exact ⟨.leaf .nil, ⟨rfl, rfl⟩, fits rfl, rfl⟩
  | @next depth path a o o₁ o₂ m n more _ _ ihFirst ihLater =>
    obtain ⟨t₁, car, shallow, small⟩ := ihFirst (by omega) nofun
    obtain ⟨t₂, cdr, shallow', small'⟩ := ihLater (by omega) fits
    refine ⟨.node t₁ t₂, ⟨a, rfl, car, cdr⟩, ?_, ?_⟩
    · rw [Tree.height]
      omega
    · simp only [Output.put, Tree.count] at small ⊢
      omega
  | @dotted depth path v o o₁ n flat some _ ih =>
    obtain ⟨t, spreads, shallow, small⟩ := ih whole nofun
    obtain rfl := exists_leaf spreads flat
    refine ⟨.leaf v, spreads, ?_, ?_⟩
    · rwa [Tree.height, if_neg (by simp [some])]
    · rwa [Tree.count, if_neg (by simp [some])]

end Print

/-- Printing comes to an end by rules that leave no choice and know no bound on the length of a
list. A value that unfolds to a finite tree with at most 100000 printed values, none of them nested
deeper than 200, is printed as its tree is spelled, and nothing is left out; of every other value
something is left out, and there are three dots in its place. -/
theorem Value.print_exact (h : Heap) (symbols : SymbolTable) (v : Value) :
    ∃ o cuts, Print.Prints h symbols .whole 0 ∅ v ⟨"", 100000⟩ o cuts ∧
      (∀ o' cuts', Print.Prints h symbols .whole 0 ∅ v ⟨"", 100000⟩ o' cuts' →
        o' = o ∧ cuts' = cuts) ∧
      v.print h symbols = o.text ∧
      (∀ t, v.Spreads h t → t.height .whole ≤ 200 → t.count .whole ≤ 100000 →
        cuts = 0 ∧ v.print h symbols = t.spell symbols .whole) ∧
      ((∀ t, v.Spreads h t → 200 < t.height .whole ∨ 100000 < t.count .whole) →
        0 < cuts ∧ "...".toList <:+: (v.print h symbols).toList) := by
  have printable : ∃ cuts, Print.Prints h symbols .whole 0 ∅ v ⟨"", 100000⟩
      (Print.value h symbols 201 ∅ v ⟨"", 100000⟩) cuts :=
    Print.prints_value 201 0 rfl ∅ v _
  obtain ⟨cuts, prints⟩ := printable
  have printed : v.print h symbols = (Print.value h symbols 201 ∅ v ⟨"", 100000⟩).text := rfl
  refine ⟨_, cuts, prints, fun o' cuts' prints' => prints'.unique prints, printed, ?_, ?_⟩
  · intro t spreads shallow small
    have outside : Print.Inside h t ∅ := fun a mem => by simp at mem
    have shallow : 0 + t.height .whole ≤ Print.maxDepth := by rwa [Nat.zero_add]
    obtain ⟨rfl, spelled⟩ := prints.spells spreads outside shallow small
    refine ⟨rfl, ?_⟩
    rw [printed, spelled]
    exact String.empty_append
  · intro none
    have left : 0 < cuts := by
      refine Nat.pos_of_ne_zero fun whole => ?_
      obtain ⟨t, spreads, shallow, small⟩ := prints.whole_tree whole nofun
      have limits : Print.maxDepth = 200 := rfl
      obtain deep | large := none t spreads
      · omega
      · dsimp only at small
        omega
    obtain ⟨text, same, dots⟩ := prints.writes
    refine ⟨left, ?_⟩
    rw [printed, same, String.empty_append]
    exact dots left

end SecdLisp
