import Mathlib.Algebra.BigOperators.Group.List.Basic
import Mathlib.Algebra.Order.Group.Multiset
import SecdLisp.Proofs.Reading
import SecdLisp.Proofs.Text.Grammar
import SecdLisp.Proofs.Text.Trace

/-!
# Unquote marks are taken off

The marks in a value that is being read wait for the backquotes around it, the outer ones for those
further in; the payload of a mark is outside of the backquote that the mark waits for. Expanding a
template takes off just the marks that wait for its backquote and leaves the others where they are,
in a list or two of its own. So a value that is read inside no backquote has no mark, and no
template is ill-formed.
-/

namespace SecdLisp

namespace Heap

/-- Read inside these backquotes, the value has these marks, each of which waits for one of them.
The payload of a mark is outside of the backquote that the mark waits for. -/
inductive Awaits (h : Heap) : List Nat → Value → Multiset (Nat × Addr) → Prop where
  | atom {around : List Nat} {v : Value} (flat : ∀ a, v ≠ .pair a)
    (ordinary : v ≠ .ident .unquote) : Awaits h around v 0
  | mark {around : List Nat} {backquote : Nat} {a b : Addr} {marks : Multiset (Nat × Addr)}
    (owned : a < h.size) (owned' : b < h.size) (head : h.car a = .ident .unquote)
    (link : h.cdr a = .pair b) (last : h.cdr b = .nil)
    (payload : Awaits h around (h.car b) marks) :
    Awaits h (backquote :: around) (.pair a) ((backquote, a) ::ₘ marks)
  | list {around : List Nat} {v : Value} {as : List Addr} {marks : Addr → Multiset (Nat × Addr)}
    (spine : h.Spine v as) (each : ∀ a ∈ as, Awaits h around (h.car a) (marks a)) :
    Awaits h around v (as.map marks).sum

def AwaitsAll (h : Heap) (around : List Nat) (v : Value) (marks : Multiset (Nat × Addr)) : Prop :=
  ∃ (as : List Addr) (each : Addr → Multiset (Nat × Addr)), h.Spine v as ∧
    (∀ a ∈ as, h.Awaits around (h.car a) (each a)) ∧ (as.map each).sum = marks

variable {h h' : Heap} {around : List Nat} {backquote : Nat} {v car cdr : Value}
  {marks rest : Multiset (Nat × Addr)}

theorem AwaitsAll.awaits (all : h.AwaitsAll around v marks) : h.Awaits around v marks := by
  obtain ⟨as, each, spine, known, rfl⟩ := all
  exact .list spine known

/-- No value is a mark by itself. -/
theorem Awaits.ne_mark (awaits : h.Awaits around v marks) : v ≠ .ident .unquote := by
  cases awaits with
  | atom _ ordinary => exact ordinary
  | mark => exact nofun
  | list spine _ => cases spine <;> exact nofun

/-- No mark waits outside of all backquotes. -/
theorem Awaits.eq_zero (awaits : h.Awaits [] v marks) : marks = 0 := by
  generalize inside : [] = around at awaits
  induction awaits with
  | atom => rfl
  | mark => cases inside
  | list _ _ ih =>
    refine List.sum_eq_zero fun m mem => ?_
    obtain ⟨a, here, rfl⟩ := List.mem_map.mp mem
    exact ih a here inside

/-- The unquote mark is nowhere in the value. -/
def Unmarked (h : Heap) (v : Value) : Prop :=
  v ≠ .ident .unquote ∧ ∀ a, h.Reachable v a →
    h.car a ≠ .ident .unquote ∧ h.cdr a ≠ .ident .unquote

theorem Awaits.unmarked (awaits : h.Awaits [] v marks) : h.Unmarked v := by
  refine ⟨awaits.ne_mark, ?_⟩
  generalize inside : [] = around at awaits
  induction awaits with
  | @atom _ v flat _ =>
    have nothing (a : Addr) : ¬h.Reachable v a := by
      intro reached
      induction reached with
      | root here => exact flat _ here
      | car _ _ ih => exact ih
      | cdr _ _ ih => exact ih
    exact fun a reached => absurd reached (nothing a)
  | mark => cases inside
  | list spine each ih =>
    intro a reached
    obtain mem | ⟨b, mem, reached⟩ := spine.mem_or_reachable reached
    · refine ⟨(each a mem).ne_mark, ?_⟩
      obtain last | ⟨b, _, link⟩ := spine.cdr_mem mem
      · rw [last]
        exact nofun
      · rw [link]
        exact nofun
    · exact ih b mem inside a reached

theorem unmarked_of_awaits {vs : List Value} {each : List (Multiset (Nat × Addr))}
    (known : List.Forall₂ (h.Awaits []) vs each) : (∀ v ∈ vs, h.Unmarked v) ∧ each.sum = 0 := by
  induction known with
  | nil => exact ⟨nofun, rfl⟩
  | cons first _ ih =>
    refine ⟨List.forall_mem_cons.mpr ⟨first.unmarked, ih.1⟩, ?_⟩
    rw [List.sum_cons, first.eq_zero, ih.2, add_zero]

theorem Awaits.mono (awaits : h.Awaits around v marks) (grows : h.Grows h') :
    h'.Awaits around v marks := by
  induction awaits with
  | atom flat ordinary => exact .atom flat ordinary
  | mark owned owned' head link last payload ih =>
    refine .mark (Nat.lt_of_lt_of_le owned grows.size_le) (Nat.lt_of_lt_of_le owned' grows.size_le)
      ((grows.car owned).trans head) ((grows.cdr owned).trans link)
      ((grows.cdr owned').trans last) ?_
    rwa [grows.car owned']
  | list spine each ih =>
    refine .list (spine.congr grows.size_le fun a mem => grows.cdr (spine.owned mem))
      fun a mem => ?_
    rw [grows.car (spine.owned mem)]
    exact ih a mem

theorem AwaitsAll.mono (all : h.AwaitsAll around v marks) (grows : h.Grows h') :
    h'.AwaitsAll around v marks := by
  obtain ⟨as, each, spine, known, rfl⟩ := all
  refine ⟨as, each, spine.congr grows.size_le fun a mem => grows.cdr (spine.owned mem),
    fun a mem => ?_, rfl⟩
  rw [grows.car (spine.owned mem)]
  exact (known a mem).mono grows

theorem awaitsAll_nil (h : Heap) (around : List Nat) : h.AwaitsAll around .nil 0 :=
  ⟨[], fun _ => 0, .nil, nofun, rfl⟩

theorem AwaitsAll.cons {a : Addr} (owned : a < h.size) (first : h.Awaits around (h.car a) marks)
    (all : h.AwaitsAll around (h.cdr a) rest) :
    h.AwaitsAll around (.pair a) (marks + rest) := by
  obtain ⟨as, each, spine, known, rfl⟩ := all
  have spine' : h.Spine (.pair a) (a :: as) := .cons owned spine
  have fresh : a ∉ as := (List.nodup_cons.mp spine'.nodup).1
  have others {b : Addr} (mem : b ∈ as) : Function.update each a marks b = each b :=
    Function.update_of_ne (fun same : b = a => fresh (same ▸ mem)) ..
  refine ⟨a :: as, Function.update each a marks, spine', ?_, ?_⟩
  · rw [List.forall_mem_cons, Function.update_self]
    refine ⟨first, fun b mem => ?_⟩
    rw [others mem]
    exact known b mem
  · rw [List.map_cons, List.sum_cons, Function.update_self, List.map_congr_left fun b => others]

theorem ends_cons_awaits (first : h.Awaits around car marks) (all : h.AwaitsAll around cdr rest) :
    Ends (cons car cdr) h
      (fun v h' => h.Grows h' ∧ h'.AwaitsAll around v (marks + rest)) fun _ _ => True := by
  rw [ends_cons]
  refine ⟨fun room => ?_, fun _ => trivial⟩
  have grows := grows_grown h ⟨car, cdr⟩ room
  refine ⟨grows, .cons (by simp) ?_ ?_⟩
  · rw [Heap.car, cell_grown_size]
    exact first.mono grows
  · rw [Heap.cdr, cell_grown_size]
    exact all.mono grows

theorem ends_list_awaits {vs : List Value} {each : List (Multiset (Nat × Addr))}
    (known : List.Forall₂ (h.Awaits around) vs each) : Ends (list vs) h
      (fun v h' => h.Grows h' ∧ h'.AwaitsAll around v each.sum) fun _ _ => True := by
  induction known with
  | nil => exact ⟨.refl h, awaitsAll_nil h around⟩
  | cons first _ ih =>
    rw [list, listWithTail, List.foldrM_cons, ends_bind, List.sum_cons]
    refine ih.mono ?_ fun _ _ => id
    rintro rest h₁ ⟨grows, all⟩
    refine (ends_cons_awaits (first.mono grows) all).mono ?_ fun _ _ => id
    rintro v h₂ ⟨grows', all'⟩
    exact ⟨grows.trans grows', all'⟩

end Heap

namespace Template

open Heap

variable {h : Heap} {around : List Nat} {backquote : Nat} {v : Value}
  {marks : Multiset (Nat × Addr)}

theorem awaits_name {i : Symbol} (ordinary : i ≠ .unquote) (h : Heap) (around : List Nat) :
    h.Awaits around (.ident i) 0 := .atom nofun (by simpa using ordinary)

theorem ends_quoted_awaits (awaits : h.Awaits around v marks) : Ends (quoted v) h
    (fun v h' => h.Grows h' ∧ h'.Awaits around v marks) fun _ _ => True := by
  have known : List.Forall₂ (h.Awaits around) [.ident .quote, v] [0, marks] :=
    .cons (awaits_name (by decide) h around) (.cons awaits .nil)
  refine (ends_list_awaits known).mono ?_ fun _ _ => id
  rintro v h' ⟨grows, all⟩
  refine ⟨grows, ?_⟩
  simpa using all.awaits

theorem ends_unquoted_awaits (awaits : h.Awaits around v marks) (backquote : Nat) :
    Ends (unquoted v) h (fun v h' => h.Grows h' ∧ ∃ a < h'.size, h.size ≤ a ∧ v = .pair a ∧
      h'.Awaits (backquote :: around) (.pair a) ((backquote, a) ::ₘ marks)) fun _ _ => True := by
  rw [unquoted, ends_bind, ends_cons]
  refine ⟨fun room => ?_, fun _ => trivial⟩
  rw [ends_cons]
  refine ⟨fun room' => ?_, fun _ => trivial⟩
  have grows := grows_grown h ⟨v, .nil⟩ room
  have grows' := grows_grown _ ⟨.ident .unquote, .pair h.size⟩ room'
  have first := cell_grown_size _ ⟨.ident .unquote, .pair h.size⟩ room'
  have second := grows'.cell h.size (by simp)
  rw [cell_grown_size] at second
  refine ⟨grows.trans grows', _, by simp, grows.size_le, rfl, ?_⟩
  refine .mark (b := h.size) (by simp) (Nat.lt_of_lt_of_le (by simp) grows'.size_le)
    (congrArg Cell.car first) (congrArg Cell.cdr first) (congrArg Cell.cdr second) ?_
  rw [Heap.car, second]
  exact awaits.mono (grows.trans grows')

/-- What is left of a template: the marks that waited for this backquote are taken off, and the
others wait where they were. -/
def Expanded (h : Heap) (around : List Nat) (backquote : Nat) (marks : Multiset (Nat × Addr))
    (expanded : Value × List Addr) (h' : Heap) : Prop :=
  h.Grows h' ∧ ∃ left, h'.Awaits around expanded.1 left ∧
    marks = (expanded.2.map (backquote, ·) : List (Nat × Addr)) + left

theorem ends_chain_awaits {element : Value → HeapM (Value × List Addr)} {as : List Addr}
    {each : Addr → Multiset (Nat × Addr)}
    (expands : ∀ a ∈ as, ∀ h', h.Grows h' →
      Ends (element (h.car a)) h' (Expanded h' around backquote (each a)) fun _ _ => True)
    {h' : Heap} (grows : h.Grows h') : Ends
      ((as.map h.car).foldrM (fun item built => do
        let first ← element item
        let v ← Heap.list [.ident .cons, first.1, built.1]
        return (v, first.2 ++ built.2)) (.nil, [])) h'
      (Expanded h' around backquote (as.map each).sum) fun _ _ => True := by
  induction as with
  | nil => exact ⟨.refl h', 0, .atom nofun nofun, rfl⟩
  | cons a as ih =>
    rw [List.forall_mem_cons] at expands
    rw [List.map_cons, List.foldrM_cons, ends_bind, List.map_cons, List.sum_cons]
    refine (ih expands.2).mono ?_ fun _ _ => id
    rintro built h₁ ⟨grows₁, rest, awaits, shared⟩
    rw [ends_bind]
    refine (expands.1 h₁ (grows.trans grows₁)).mono ?_ fun _ _ => id
    rintro first h₂ ⟨grows₂, own, awaits', shared'⟩
    have known : List.Forall₂ (h₂.Awaits around) [.ident .cons, first.1, built.1] [0, own, rest] :=
      .cons (awaits_name (by decide) h₂ around) (.cons awaits' (.cons (awaits.mono grows₂) .nil))
    rw [ends_bind]
    refine (ends_list_awaits known).mono ?_ fun _ _ => id
    rintro v h₃ ⟨grows₃, all⟩
    refine ⟨grows₁.trans (grows₂.trans grows₃), _, all.awaits, ?_⟩
    rw [shared, shared', List.map_append, ← Multiset.coe_add]
    simp only [List.sum_cons, List.sum_nil, zero_add, add_zero]
    exact add_add_add_comm ..

theorem ends_expandWithinTraced_atom (flat : ∀ a, v ≠ .pair a) (ordinary : v ≠ .ident .unquote)
    (height : Nat) : Ends (expandWithinTraced height v) h (Expanded h around backquote 0)
      fun _ _ => True := by
  cases height with
  | zero => trivial
  | succ height =>
    have quotes : expandWithinTraced (height + 1) v = do return (← quoted v, []) := by
      cases v with
      | pair a => exact absurd rfl (flat a)
      | _ => rfl
    have awaits : h.Awaits around v 0 := .atom flat ordinary
    rw [quotes, ends_bind]
    refine (ends_quoted_awaits awaits).mono ?_ fun _ _ => id
    rintro w h₁ ⟨grows, awaits⟩
    exact ⟨grows, 0, awaits, rfl⟩

theorem ends_expandWithinTraced (awaits : h.Awaits (backquote :: around) v marks) {h' : Heap}
    (grows : h.Grows h') (height : Nat) : Ends (expandWithinTraced height v) h'
      (Expanded h' around backquote marks) fun _ _ => True := by
  generalize inside : backquote :: around = stack at awaits
  induction awaits generalizing h' height with
  | atom flat ordinary => exact ends_expandWithinTraced_atom flat ordinary height
  | @mark _ _ a b marks owned owned' head link last payload _ =>
    cases inside
    cases height with
    | zero => trivial
    | succ height =>
      have isMark := (grows.car owned).trans head
      have rest : h'.carOf? (h'.cdr a) = some (h.car b) := by
        rw [(grows.cdr owned).trans link]
        exact congrArg some (grows.car owned')
      rw [expandWithinTraced, ends_bind, ends_read, if_pos isMark, ends_bind, ends_read, rest]
      exact ⟨.refl h', marks, payload.mono grows, rfl⟩
  | @list _ v as each spine known ih =>
    cases inside
    have lists := Lists.mono ⟨as, spine, rfl⟩ grows
    cases spine with
    | nil =>
      exact ends_expandWithinTraced_atom (v := .nil) (fun _ => Value.noConfusion) Value.noConfusion
        height
    | @cons a as owned spine =>
      cases height with
      | zero => trivial
      | succ height =>
        have notMark : h'.car a ≠ .ident .unquote := by
          rw [grows.car owned]
          exact (known a (by simp)).ne_mark
        rw [expandWithinTraced, ends_bind, ends_read, if_neg notMark, ends_bind, ends_read,
          lists.toList?]
        exact ends_chain_awaits (fun b mem h' grows => ih b mem grows height rfl) grows

theorem ends_expandTraced (awaits : h.Awaits (backquote :: around) v marks) :
    Ends (expandTraced v) h (Expanded h around backquote marks) fun _ _ => True :=
  ends_expandWithinTraced awaits (.refl h) (h.size + 1)

end Template

namespace Trace

/-- Of the marks made, those that are not taken off are pending. Each was made by a comma of its own
in a cell of its own, and waits for a token that is a backquote. -/
structure Tallies (t : Trace) (tokens : List Token) (commas : Nat)
    (pending : Multiset (Nat × Addr)) (h : Heap) : Prop where
  balanced : (t.made : Multiset (Nat × Addr)) = (t.taken : Multiset (Nat × Addr)) + pending
  distinct : (t.made.map Prod.snd).Nodup
  owned : ∀ m ∈ t.made, m.2 < h.size
  count : t.made.length = commas
  matched : ∀ m ∈ t.made, tokens[m.1]? = some .backquote

variable {t : Trace} {tokens : List Token} {commas backquote : Nat} {h h' : Heap}
  {pending marks left : Multiset (Nat × Addr)}

theorem tallies_empty (tokens : List Token) (h : Heap) : empty.Tallies tokens 0 0 h :=
  ⟨rfl, List.nodup_nil, nofun, rfl, nofun⟩

theorem Tallies.mono (tallies : t.Tallies tokens commas pending h) (grows : h.Grows h') :
    t.Tallies tokens commas pending h' :=
  { tallies with owned := fun m mem => Nat.lt_of_lt_of_le (tallies.owned m mem) grows.size_le }

theorem Tallies.make {a : Nat} (tallies : t.Tallies tokens commas (pending + marks) h)
    (grows : h.Grows h') (fresh : h.size ≤ a) (owned : a < h'.size)
    (here : tokens[backquote]? = some .backquote) : (t.make backquote (.pair a)).Tallies tokens
      (commas + 1) (pending + ((backquote, a) ::ₘ marks)) h' := by
  have new : a ∉ t.made.map Prod.snd := by
    intro mem
    obtain ⟨m, known, rfl⟩ := List.mem_map.mp mem
    exact Nat.not_lt_of_le fresh (tallies.owned m known)
  constructor
  · rw [Trace.make, Multiset.add_cons, Multiset.add_cons, ← tallies.balanced]
    rfl
  · exact List.nodup_cons.mpr ⟨new, tallies.distinct⟩
  · exact List.forall_mem_cons.mpr ⟨owned, (tallies.mono grows).owned⟩
  · exact congrArg (· + 1) tallies.count
  · exact List.forall_mem_cons.mpr ⟨here, tallies.matched⟩

theorem Tallies.take {taken : List Addr} (tallies : t.Tallies tokens commas (pending + marks) h)
    (shared : marks = (taken.map (backquote, ·) : List (Nat × Addr)) + left) :
    (t.take backquote taken).Tallies tokens commas (pending + left) h := by
  refine { tallies with balanced := ?_ }
  show (t.made : Multiset (Nat × Addr)) = _
  rw [tallies.balanced, shared, Trace.take, ← Multiset.coe_add]
  ac_rfl

end Trace

namespace Phrase

open Reading

variable {around : List Nat} {tokens us : List Token} {t : Trace} {u : Token} {place commas : Nat}
  {pending : Multiset (Nat × Addr)} {r : Reading}

theorem awaits_atom {word : String} (ordinary : word ≠ ",") (around : List Nat) : Ends (atom word) r
    (fun v r' => r'.heap = r.heap ∧ r'.heap.Awaits around v 0) fun _ _ => True := by
  unfold atom
  split
  · exact ⟨rfl, .atom nofun nofun⟩
  split
  · exact ⟨rfl, .atom nofun nofun⟩
  · have other : (r.symbols.intern word).1 ≠ .unquote := by
      intro same
      have spelled := SymbolTable.name_intern r.symbols word
      rw [same, ((r.symbols.intern word).2.name_of_wellKnown rfl).2] at spelled
      exact ordinary spelled.symm
    exact ⟨rfl, Template.awaits_name other _ _⟩

/-- Putting a phrase together leaves just the marks pending that its value has. -/
def Tallied (around : List Nat) (tokens : List Token) (commas : Nat)
    (pending : Multiset (Nat × Addr)) (h : Heap) (vt : Value × Trace) (r : Reading) : Prop :=
  h.Grows r.heap ∧ ∃ marks, r.heap.Awaits around vt.1 marks ∧
    vt.2.Tallies tokens commas (pending + marks) r.heap

theorem tail_prefix_drop (here : u :: us <+: tokens.drop place) :
    us <+: tokens.drop (place + 1) := by
  simpa using here.drop 1

theorem ends_traceAll {ps : List Phrase}
    (each : ∀ p ∈ ps, ∀ {place : Nat} {t : Trace} {commas : Nat} {pending : Multiset (Nat × Addr)}
      {r : Reading}, p.tokens <+: tokens.drop place → t.Tallies tokens commas pending r.heap →
      Ends (p.trace around place t) r
        (Tallied around tokens (commas + p.tokens.count .comma) pending r.heap) fun _ _ => True)
    (here : tokensAll ps <+: tokens.drop place)
    (tallies : t.Tallies tokens commas pending r.heap) : Ends (traceAll around place ps t) r
      (fun vst r' => r.heap.Grows r'.heap ∧ ∃ marks : List (Multiset (Nat × Addr)),
        List.Forall₂ (r'.heap.Awaits around) vst.1 marks ∧
        vst.2.Tallies tokens (commas + (tokensAll ps).count .comma) (pending + marks.sum) r'.heap)
      fun _ _ => True := by
  induction ps generalizing place t commas pending r with
  | nil => exact ⟨.refl _, [], .nil, by simpa [tokensAll] using tallies⟩
  | cons p ps ih =>
    rw [List.forall_mem_cons] at each
    rw [tokensAll] at here
    have next : tokensAll ps <+: tokens.drop (place + p.tokens.length) := by
      simpa using here.drop p.tokens.length
    rw [traceAll, ends_bind]
    refine (each.1 ((List.prefix_append ..).trans here) tallies).mono ?_ fun _ _ => id
    rintro ⟨v, t₁⟩ r₁ ⟨grows, marks, awaits, tallies₁⟩
    rw [ends_bind]
    refine (ih each.2 next tallies₁).mono ?_ fun _ _ => id
    rintro ⟨vs, t₂⟩ r₂ ⟨grows₁, others, all, tallies₂⟩
    refine ⟨grows.trans grows₁, marks :: others, .cons (awaits.mono grows₁) all, ?_⟩
    rw [tokensAll, List.count_append, List.sum_cons, ← Nat.add_assoc, ← add_assoc]
    exact tallies₂

theorem ends_trace {p : Phrase} (worded : .ident "," ∉ p.tokens)
    (here : p.tokens <+: tokens.drop place)
    (backquotes : ∀ q ∈ around, tokens[q]? = some .backquote)
    (tallies : t.Tallies tokens commas pending r.heap) : Ends (p.trace around place t) r
      (Tallied around tokens (commas + p.tokens.count .comma) pending r.heap) fun _ _ => True := by
  induction p generalizing around place t commas pending r with
  | int n => exact ⟨.refl _, 0, .atom nofun nofun, by simpa [Phrase.tokens] using tallies⟩
  | word name =>
    have ordinary : name ≠ "," := by
      rintro rfl
      exact worded (by simp [Phrase.tokens])
    rw [trace, ends_bind]
    refine (awaits_atom ordinary around).mono ?_ fun _ _ => id
    rintro v r' ⟨same, awaits⟩
    refine ⟨same ▸ .refl _, 0, awaits, ?_⟩
    rw [same]
    simpa [Phrase.tokens] using tallies
  | list items ih =>
    have each : ∀ p ∈ items, .ident "," ∉ p.tokens := by
      simpa [Phrase.tokens, tokensAll_eq] using worded
    have inside : tokensAll items <+: tokens.drop (place + 1) :=
      (List.prefix_append ..).trans (tail_prefix_drop here)
    rw [trace, ends_bind]
    refine (ends_traceAll (fun p mem _ _ _ _ _ here tallies =>
      ih p mem (each p mem) here backquotes tallies) inside tallies).mono ?_ fun _ _ => id
    rintro ⟨vs, t₁⟩ r₁ ⟨grows, marks, known, tallies₁⟩
    rw [ends_bind, ends_onHeap]
    refine (Heap.ends_list_awaits known).mono ?_ fun _ _ => id
    rintro v h ⟨grows₁, listed⟩
    refine ⟨grows.trans grows₁, _, listed.awaits, ?_⟩
    simpa [Phrase.tokens] using tallies₁.mono grows₁
  | quote p ih =>
    have inner : .ident "," ∉ p.tokens := by simpa [Phrase.tokens] using worded
    rw [trace, ends_bind]
    refine (ih inner (tail_prefix_drop here) backquotes tallies).mono ?_ fun _ _ => id
    rintro ⟨v, t₁⟩ r₁ ⟨grows, marks, awaits, tallies₁⟩
    rw [ends_bind, ends_onHeap]
    refine (Template.ends_quoted_awaits awaits).mono ?_ fun _ _ => id
    rintro w h ⟨grows₁, awaits₁⟩
    refine ⟨grows.trans grows₁, marks, awaits₁, ?_⟩
    simpa [Phrase.tokens] using tallies₁.mono grows₁
  | backquote p ih =>
    have inner : .ident "," ∉ p.tokens := by simpa [Phrase.tokens] using worded
    have this : tokens[place]? = some .backquote := by
      obtain ⟨more, eq⟩ := here
      rw [← List.head?_drop, ← eq]
      rfl
    have stack : ∀ q ∈ place :: around, tokens[q]? = some .backquote :=
      List.forall_mem_cons.mpr ⟨this, backquotes⟩
    rw [trace, ends_bind]
    refine (ih inner (tail_prefix_drop here) stack tallies).mono ?_ fun _ _ => id
    rintro ⟨v, t₁⟩ r₁ ⟨grows, marks, awaits, tallies₁⟩
    rw [ends_bind, ends_onHeap]
    refine (Template.ends_expandTraced awaits).mono ?_ fun _ _ => id
    rintro ⟨w, taken⟩ h ⟨grows₁, left, awaits₁, shared⟩
    refine ⟨grows.trans grows₁, left, awaits₁, ?_⟩
    simpa [Phrase.tokens] using (tallies₁.mono grows₁).take shared
  | unquote p ih =>
    cases around with
    | nil => trivial
    | cons mate around =>
      have inner : .ident "," ∉ p.tokens := by simpa [Phrase.tokens] using worded
      obtain ⟨this, backquotes⟩ := List.forall_mem_cons.mp backquotes
      rw [trace, ends_bind]
      refine (ih inner (tail_prefix_drop here) backquotes tallies).mono ?_ fun _ _ => id
      rintro ⟨v, t₁⟩ r₁ ⟨grows, marks, awaits, tallies₁⟩
      rw [ends_bind, ends_onHeap]
      refine (Template.ends_unquoted_awaits awaits mate).mono ?_ fun _ _ => id
      rintro w h ⟨grows₁, a, owned, fresh, rfl, awaits₁⟩
      refine ⟨grows.trans grows₁, _, awaits₁, ?_⟩
      simpa [Phrase.tokens, Nat.add_assoc] using tallies₁.make grows₁ fresh owned this

end Phrase

/-- In the work on these tokens, every comma makes a mark in a cell of its own, and each mark is
taken off once, by the backquote that its comma matches. -/
structure Trace.Settled (t : Trace) (tokens : List Token) : Prop where
  taken : t.made.Perm t.taken
  distinct : (t.made.map Prod.snd).Nodup
  commas : t.made.length = tokens.count .comma
  backquotes : ∀ m ∈ t.made, tokens[m.1]? = some .backquote

namespace Reading

open Phrase (build buildAll tokensAll traceAll)
open Token (Reads)

variable {α : Type} {r r' : Reading} {src src' : Source} {p : Phrase} {ps : List Phrase}

/-- The work on these phrases ends in these values, none of which has a mark, and it settles all
marks. -/
def Clears (ps : List Phrase) (r : Reading) (vs : List Value) (r' : Reading) : Prop :=
  (∀ v ∈ vs, r'.heap.Unmarked v) ∧ ∃ t,
    traceAll [] 0 ps .empty r = .ok (vs, t) { r' with source := r.source } ∧
      t.Settled (tokensAll ps)

/-- The error is not one of those that a stray mark would cause. -/
def NoStrayMark (e : Error) : Prop := e ≠ .parse .malformedUnquote ∧ e ≠ .parse .improperTemplate

theorem noStrayMark_heapFull : NoStrayMark .heapFull := ⟨nofun, nofun⟩

theorem noStrayMark_notBoundary (offset : Nat) : NoStrayMark (.parse (.notBoundary offset)) :=
  ⟨nofun, nofun⟩

theorem Fails.noStrayMark {x : ReadM α} {good : α → Reading → Prop}
    (fails : Fails r.source fun _ : Unit => x) : Ends x r good fun e _ => NoStrayMark e := by
  obtain ⟨cells, ends⟩ := fails.ends
  refine (ends r.heap r.symbols).mono (fun _ _ => False.elim) ?_
  rintro e _ (⟨rfl, -⟩ | ⟨-, cause, rfl, syntactic⟩)
  · exact noStrayMark_heapFull
  · constructor
    · rintro ⟨⟩
      exact syntactic
    · rintro ⟨⟩
      exact syntactic

theorem clears_of_build {vs : List Value} (worded : .ident "," ∉ tokensAll ps)
    (inside : ∀ p ∈ ps, p.isScoped 0 = true)
    (run : buildAll ps r = .ok vs { r' with source := r.source }) : Clears ps r vs r' := by
  have each : ∀ p ∈ ps, .ident "," ∉ p.tokens := by simpa [Phrase.tokensAll_eq] using worded
  have whole : tokensAll ps <+: (tokensAll ps).drop 0 := List.prefix_rfl
  have outermost : ∀ q ∈ ([] : List Nat), (tokensAll ps)[q]? = some .backquote := nofun
  have known := Phrase.ends_traceAll (fun p mem _ _ _ _ _ here tallies =>
    Phrase.ends_trace (each p mem) here outermost tallies) whole
    (Trace.tallies_empty (tokensAll ps) r.heap)
  have settled (p : Phrase) (mem : p ∈ ps) (place : Nat) (t : Trace) :
      Prod.fst <$> p.trace [] place t = p.build :=
    Phrase.fst_trace (show p.isScoped ([] : List Nat).length = true from inside p mem) place t
  have same : Prod.fst <$> traceAll [] 0 ps .empty = buildAll ps :=
    Phrase.fst_traceAll settled 0 .empty
  rw [← same, map_eq_pure_bind] at run
  obtain ⟨⟨_, t⟩, _, traced, last⟩ := bind_eq_ok.mp run
  cases last
  obtain ⟨_, marks, awaits, tallies⟩ := known.of_eq_ok traced
  obtain ⟨unmarked, none⟩ := Heap.unmarked_of_awaits awaits
  have balanced := tallies.balanced
  rw [none, add_zero, add_zero] at balanced
  refine ⟨unmarked, t, traced, Multiset.coe_eq_coe.mp balanced, tallies.distinct, ?_,
    tallies.matched⟩
  rw [tallies.count, Nat.zero_add]

/-- A reader that does just the work on some phrases clears their marks. -/
theorem Carries.ends_clears {x : ReadM α} {k : List Value → α}
    (carries : Carries (k <$> buildAll ps) r.source x src')
    (reads : Reads r.source (tokensAll ps) src) (inside : ∀ p ∈ ps, p.isScoped 0 = true) :
    Ends x r (fun a r' => r'.source = src' ∧ ∃ vs, a = k vs ∧ Clears ps r vs r')
      fun e _ => e = .heapFull := by
  have worded := reads.no_comma_name
  have each : ∀ p ∈ ps, p.Worded := by simpa [Phrase.Worded, Phrase.tokensAll_eq] using worded
  have costs := Phrase.costs_buildAll each r
  have same := carries r
  rw [ends_map] at same
  cases run : buildAll ps r with
  | ok vs r₁ =>
    obtain ⟨unmoved, run'⟩ := same.of_eq_ok run
    have run'' : x r = .ok (k vs) { r₁ with source := src' } := run'
    rw [Ends, run'']
    refine ⟨rfl, vs, rfl, clears_of_build worded inside ?_⟩
    rw [run, ← unmoved]
  | error e r₁ =>
    obtain ⟨stop, run'⟩ := same.of_eq_error run
    have run'' : x r = .error e { r₁ with source := stop } := run'
    rw [Ends, run'']
    exact (costs.of_eq_error run).1

theorem Clears.single {vs : List Value} (clears : Clears [p] r vs r') : ∃ v, vs = [v] := by
  obtain ⟨_, t, traced, _⟩ := clears
  rw [traceAll] at traced
  obtain ⟨⟨v, _⟩, _, _, rest⟩ := bind_eq_ok.mp traced
  cases rest
  exact ⟨v, rfl⟩

theorem ends_form?_clears (r : Reading) : Ends form? r
    (fun v? r' => ∀ v, v? = some v → ∃ p : Phrase, Reads r.source p.tokens r'.source ∧
      Clears [p] r [v] r') fun e _ => NoStrayMark e := by
  rcases form?_settles r.source with done | ⟨p, src', fits, reads⟩ | fails
  · rw [Ends, moves_form? done r.heap r.symbols]
    rintro v ⟨⟩
  · have work : (·.head?) <$> buildAll [p] = some <$> build p := by simp [buildAll]
    have carries := form?_carries fits.1 fits.2 reads
    rw [← work] at carries
    have reads' : Reads r.source (tokensAll [p]) src' := by simpa [tokensAll] using reads
    have inside : ∀ q ∈ [p], q.isScoped 0 = true := by simpa using fits.2
    refine (carries.ends_clears reads' inside).mono ?_ ?_
    · rintro v? r' ⟨here, vs, rfl, clears⟩ v found
      obtain ⟨w, rfl⟩ := clears.single
      cases found
      exact ⟨p, here ▸ reads, clears⟩
    · rintro e _ rfl
      exact noStrayMark_heapFull
  · exact fails.noStrayMark

theorem ends_forms_clears (r : Reading) : Ends forms r
    (fun vs r' => ∃ ps src, Reads r.source (tokensAll ps) src ∧ r'.source = src.skipBlanks ∧
      Clears ps r vs r') fun e _ => NoStrayMark e := by
  rcases forms_settles r.source with ⟨ps, src', fit, reads, done⟩ | fails
  · have carries := forms_carries fit reads done
    rw [← id_map (buildAll ps)] at carries
    refine (carries.ends_clears reads fun p mem => (fit p mem).2).mono ?_ ?_
    · rintro _ r' ⟨here, vs, rfl, clears⟩
      exact ⟨ps, src', reads, here, clears⟩
    · rintro e _ rfl
      exact noStrayMark_heapFull
  · exact fails.noStrayMark

/-- The unquote mark stays inside the reader. Whatever text is read from whatever place, no value
that is returned has the mark anywhere; every comma makes a mark of its own, which is taken off
once, by the backquote that the comma matches by nesting; and no template is ever ill-formed. -/
theorem marks_stay_inside (r : Reading) :
    Ends form? r
      (fun v? r' => ∀ v, v? = some v → ∃ p : Phrase, Reads r.source p.tokens r'.source ∧
        Clears [p] r [v] r')
      (fun e _ => NoStrayMark e) ∧
    Ends forms r
      (fun vs r' => ∃ ps src, Reads r.source (tokensAll ps) src ∧ r'.source = src.skipBlanks ∧
        Clears ps r vs r')
      (fun e _ => NoStrayMark e) ∧
    ∀ text offset, Ends (formAt? text offset) r
      (fun found r' => ∀ v o, found = some (v, o) → ∃ (src : Source) (p : Phrase),
        Source.ofStringAt? text offset = some src ∧ Reads src p.tokens r'.source ∧
          Clears [p] { r with source := src } [v] r')
      fun e _ => NoStrayMark e := by
  refine ⟨ends_form?_clears r, ends_forms_clears r, fun text offset => ?_⟩
  rw [formAt?, ends_bind]
  cases place : Source.ofStringAt? text offset with
  | none =>
    have away : seek text offset r = .error (.parse (.notBoundary offset)) r := by
      rw [seek, place]
    rw [Ends, away]
    exact noStrayMark_notBoundary offset
  | some src =>
    have there : seek text offset r = .ok () { r with source := src } := by
      rw [seek, place]
    rw [Ends, there]
    dsimp only
    rw [ends_bind]
    refine (ends_form?_clears { r with source := src }).mono ?_ fun _ _ => id
    intro v? r' all
    cases v? with
    | none => rintro w o ⟨⟩
    | some v =>
      rintro w o ⟨⟩
      obtain ⟨p, reads, clears⟩ := all v rfl
      exact ⟨src, p, rfl, reads, clears⟩

end Reading

end SecdLisp
