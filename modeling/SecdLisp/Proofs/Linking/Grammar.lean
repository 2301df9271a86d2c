import SecdLisp.Proofs.Linking.Compile
import SecdLisp.Proofs.Upkeep.Arising

/-!
# The grammar of compiled code

Compiled code is a list of instructions, each with the lists and operands that it takes, in front of
the code that it was compiled for. The frames around an instruction are known from where it stands,
and its address lies in them or in a table of global names.
-/

namespace SecdLisp

namespace Linking

open Heap Contract Compile

/-- What code is read by: the halves of a pair, and the operands that an instruction may have among
some frames. -/
structure Terms where
  halves : Value → Value → Value → Prop
  operand : List Frame → Opcode → Value → Prop

namespace Terms

/-- Words in front of other code. -/
def Spells (T : Terms) : (words : List Value) → (rest code : Value) → Prop
  | [], k, v => v = k
  | word :: words, k, v => ∃ u, T.halves v word u ∧ T.Spells words k u

/-- The instructions without an operand that code may have in it. -/
inductive Bare : Value → Prop where
  | nil : Bare (.op .nil)
  | cons : Bare (.op .cons)
  | ap : Bare (.op .ap)
  | builtin (b : Builtin) : Bare (.ident b.symbol)

/-- Code with these frames around it, up to the code that it is put in front of. The branches of a
conditional end in JOIN and the code of a closure in RTN; the values of a recursive binding and the
code of its closure share the frame that DUM adds. -/
inductive Code (T : Terms) : List Frame → (code rest : Value) → Prop where
  | done {sc k} : Code T sc k k
  | bare {sc i u v k} (bare : Bare i) (words : T.Spells [i] u v) (next : Code T sc u k) :
    Code T sc v k
  | ldc {sc x u v k} (words : T.Spells [.op .ldc, x] u v) (next : Code T sc u k) : Code T sc v k
  | address {sc o a u v k} (takes : o = .ld ∨ o = .ldr ∨ o = .st) (place : T.operand sc o a)
    (words : T.Spells [.op o, a] u v) (next : Code T sc u k) : Code T sc v k
  | sel {sc c d i j u v k} (words : T.Spells [.op .sel, c, d] u v) (first : Code T sc c i)
    (firstEnd : T.Spells [.op .join] .nil i) (second : Code T sc d j)
    (secondEnd : T.Spells [.op .join] .nil j) (next : Code T sc u k) : Code T sc v k
  | ldf {sc frame c r u v k} (words : T.Spells [.op .ldf, c] u v) (body : Code T (frame :: sc) c r)
    (last : T.Spells [.op .rtn] .nil r) (next : Code T sc u k) : Code T sc v k
  | recursion {sc frame l m c r u v k} (dum : T.Spells [.op .dum] l v)
    (values : Code T (frame :: sc) l m) (call : T.Spells [.op .ldf, c, .op .rap] u m)
    (body : Code T (frame :: sc) c r) (last : T.Spells [.op .rtn] .nil r) (next : Code T sc u k) :
    Code T sc v k

variable {T T' : Terms} {sc : List Frame} {u v k : Value} {words : List Value}

theorem Spells.mono (spells : T.Spells words k v)
    (halves : ∀ v car cdr, T.halves v car cdr → T'.halves v car cdr) : T'.Spells words k v := by
  induction words generalizing v with
  | nil => exact spells
  | cons word words ih =>
    obtain ⟨u, here, rest⟩ := spells
    exact ⟨u, halves v word u here, ih rest⟩

theorem Code.mono (code : T.Code sc v k)
    (halves : ∀ v car cdr, T.halves v car cdr → T'.halves v car cdr)
    (operand : ∀ sc o a, T.operand sc o a → T'.operand sc o a) : T'.Code sc v k := by
  induction code with
  | done => exact .done
  | bare bare words _ next => exact .bare bare (words.mono halves) next
  | ldc words _ next => exact .ldc (words.mono halves) next
  | address takes place words _ next =>
    exact .address takes (operand _ _ _ place) (words.mono halves) next
  | sel words _ firstEnd _ secondEnd _ first second next =>
    exact .sel (words.mono halves) first (firstEnd.mono halves) second (secondEnd.mono halves) next
  | ldf words _ last _ body next => exact .ldf (words.mono halves) body (last.mono halves) next
  | recursion dum _ call _ last _ values body next =>
    exact .recursion (dum.mono halves) values (call.mono halves) body (last.mono halves) next

end Terms

/-- An instruction may use the slot of that depth and index, both counted from one: a parameter of a
lexical frame, or a name of a table. Rest parameters are loaded in a way of their own, and macros are
only stored. -/
inductive InScope (names : Table → Nat) (scopes : List Frame) : Opcode → Nat → Nat → Prop where
  | load {d i frame name} (around : scopes[d]? = some frame) (formal : frame[i]? = some (.plain name)) :
    InScope names scopes .ld (d + 1) (i + 1)
  | store {d i frame name} (around : scopes[d]? = some frame)
    (formal : frame[i]? = some (.plain name)) : InScope names scopes .st (d + 1) (i + 1)
  | rest {d i frame name} (around : scopes[d]? = some frame) (formal : frame[i]? = some (.rest name)) :
    InScope names scopes .ldr (d + 1) (i + 1)
  | loadGlobal {i} (known : i < names .functions) :
    InScope names scopes .ld (scopes.length + Table.functions.depth) (i + 1)
  | storeGlobal {table i} (known : i < names table) :
    InScope names scopes .st (scopes.length + table.depth) (i + 1)

variable {names names' : Table → Nat} {scopes : List Frame} {o : Opcode} {d i : Nat}

theorem InScope.mono (inScope : InScope names scopes o d i) (le : ∀ table, names table ≤ names' table) :
    InScope names' scopes o d i := by
  cases inScope with
  | load around formal => exact .load around formal
  | store around formal => exact .store around formal
  | rest around formal => exact .rest around formal
  | loadGlobal known => exact .loadGlobal (Nat.lt_of_lt_of_le known (le _))
  | storeGlobal known => exact .storeGlobal (Nat.lt_of_lt_of_le known (le _))

theorem InScope.positive (inScope : InScope names scopes o d i) : 0 < d ∧ 0 < i := by
  have depth (table : Table) : 0 < table.depth := by cases table <;> decide
  cases inScope with
  | loadGlobal => exact ⟨Nat.lt_of_lt_of_le (depth _) (Nat.le_add_left ..), Nat.succ_pos _⟩
  | storeGlobal => exact ⟨Nat.lt_of_lt_of_le (depth _) (Nat.le_add_left ..), Nat.succ_pos _⟩
  | _ => exact ⟨Nat.succ_pos _, Nat.succ_pos _⟩

/-- The terms of a heap and its tables. An operand is a pair of positive integers that are in scope. -/
def terms (h : Heap) (g : Globals) : Terms where
  halves v car cdr := ∃ a, v = .pair a ∧ a < h.size ∧ h.cell a = ⟨car, cdr⟩
  operand scopes o v := ∃ a, ∃ d i : Int64, v = .pair a ∧ a < h.size ∧
    h.cell a = ⟨.int d, .int i⟩ ∧ 0 < d ∧ 0 < i ∧
    InScope (fun table => (g.table table).length) scopes o d.toInt.toNat i.toInt.toNat

namespace World

/-- The terms of a compilation that goes on. A slot of a table has a word if the table is not too
long in the end. -/
def terms (w : World) : Terms where
  halves := w.Has
  operand scopes o v := ∃ d i : Nat, w.Has v (.int (Int64.ofNat d)) (.int (Int64.ofNat i)) ∧
    d < 2 ^ 63 ∧ (i < 2 ^ 63 ∨ ∃ table, i ≤ (w.names table).length) ∧
    InScope (fun table => (w.names table).length) scopes o d i

variable {w w' : World} {u v k K : Value} {words : List Value} {spot : Spot} {due : Pending}
  {shape : Shape}

theorem spells_terms : w.terms.Spells words k v ↔ w.Spells words k v := by
  induction words generalizing v with
  | nil => exact Iff.rfl
  | cons word words ih => exact exists_congr fun u => and_congr_right fun _ => ih

theorem operand_mono (le : w.Le w') (operand : w.terms.operand scopes o v) :
    w'.terms.operand scopes o v := by
  obtain ⟨d, i, has, depth, index, inScope⟩ := operand
  have short : i < 2 ^ 63 ∨ ∃ table, i ≤ (w'.names table).length :=
    index.imp_right fun ⟨table, within⟩ => ⟨table, Nat.le_trans within (le.names table).length_le⟩
  exact ⟨d, i, has.mono le, depth, short, inScope.mono fun table => (le.names table).length_le⟩

theorem code_mono (le : w.Le w') (code : w.terms.Code scopes v k) : w'.terms.Code scopes v k :=
  code.mono (fun _ _ _ has => has.mono le) fun _ _ _ => operand_mono le

/-- An operand for every instruction that may have that spot as its operand. -/
def Serves (w : World) (scopes : List Frame) (spot : Spot) (v : Value) : Prop :=
  (∀ o, spot.Loads o → spot ≠ .global .macros → w.terms.operand scopes o v) ∧
    (spot.Assigns → w.terms.operand scopes .st v)

/-- A value is the code that something leads up to; `K` is the code that is given. -/
def Stops (w : World) (K : Value) : Pending → Value → Prop
  | .nothing, m => w.terms.Spells [.op .halt] .nil m
  | .call, m => w.terms.Spells [.op .rtn] .nil m
  | .join _ _ _, m => w.terms.Spells [.op .join] .nil m
  | .given, m => m = K
  | .recursion frame scopes _ rest, m => ∃ c r u n, w.terms.Spells [.op .ldf, c, .op .rap] u m ∧
    w.terms.Code (frame :: scopes) c r ∧ w.terms.Spells [.op .rtn] .nil r ∧
    w.terms.Code scopes u n ∧ Stops w K rest n

/-- Code of that shape, as far as the grammar goes. -/
def Parsed (w : World) (K : Value) (shape : Shape) (v : Value) : Prop :=
  ∃ m, w.terms.Code shape.scopes v m ∧ w.Stops K shape.due m

theorem Stops.mono (le : w.Le w') (stops : w.Stops K due v) : w'.Stops K due v := by
  have spells {words k v} (spells : w.terms.Spells words k v) : w'.terms.Spells words k v :=
    spells.mono fun _ _ _ has => has.mono le
  induction due generalizing v with
  | given => exact stops
  | recursion frame scopes _ rest ih =>
    obtain ⟨c, r, u, n, call, body, last, next, stops⟩ := stops
    exact ⟨c, r, u, n, spells call, code_mono le body, spells last, code_mono le next, ih stops⟩
  | _ => exact spells stops

theorem Parsed.mono (le : w.Le w') (parsed : w.Parsed K shape v) : w'.Parsed K shape v := by
  obtain ⟨m, code, stops⟩ := parsed
  exact ⟨m, code_mono le code, stops.mono le⟩

theorem parsed_phrase {before after : Shape}
    (phrase : Compile.Phrase (w.Parsed K) w.Serves (fun _ => True) words before after)
    (next : w.Parsed K after k) (words : w.terms.Spells words k v) : w.Parsed K before v := by
  obtain ⟨m, code, stops⟩ := next
  cases phrase with
  | nil => exact ⟨m, .bare .nil words code, stops⟩
  | cons => exact ⟨m, .bare .cons words code, stops⟩
  | ap => exact ⟨m, .bare .ap words code, stops⟩
  | builtin b => exact ⟨m, .bare (.builtin b) words code, stops⟩
  | ldc => exact ⟨m, .ldc words code, stops⟩
  | load loads value place =>
    exact ⟨m, .address (by cases loads <;> simp) (place.1 _ loads value) words code, stops⟩
  | st assigns place => exact ⟨m, .address (by simp) (place.2 assigns) words code, stops⟩
  | sel first second =>
    obtain ⟨i, first, firstEnd⟩ := first
    obtain ⟨j, second, secondEnd⟩ := second
    exact ⟨m, .sel words first firstEnd second secondEnd code, stops⟩
  | ldf body =>
    obtain ⟨r, body, last⟩ := body
    exact ⟨m, .ldf words body last code, stops⟩
  | binding body =>
    obtain ⟨r, body, last⟩ := body
    obtain ⟨_, ldf, _, operand, call⟩ := words
    exact ⟨m, .ldf ⟨_, ldf, _, operand, rfl⟩ body last (.bare .ap call code), stops⟩
  | definition body assigns place =>
    obtain ⟨r, body, last⟩ := body
    obtain ⟨_, ldf, _, operand, store⟩ := words
    exact ⟨m, .ldf ⟨_, ldf, _, operand, rfl⟩ body last
      (.address (by simp) (place.2 assigns) store code), stops⟩
  | rap body =>
    obtain ⟨r, body, last⟩ := body
    exact ⟨v, .done, _, r, k, m, words, body, last, code, stops⟩
  | dum =>
    -- The values lead up to the closure, and what follows it follows the whole binding.
    obtain ⟨c, r, u, n, call, body, last, next, stops⟩ := stops
    exact ⟨n, .recursion words code call body last next, stops⟩

end World

variable {ω : Type} {w : World} {K k v : Value} {distinct : Prop}

theorem keeps_parsed {words : List Value} {shape : Shape}
    (parsed : ∀ w' v, w.Le w' → w'.terms.Spells words k v → w'.Parsed K shape v) :
    (linking distinct).Keeps w (fun w v => w.Parsed K shape v) (emit words k : CompileM ω Value) :=
  keeps_onHeap ((keeps_words words).mono fun store v le spells =>
    parsed (w.onto store) v (World.le_onto le) (World.spells_terms.mpr spells))

theorem keeps_serves {depth index : Nat} {spot : Spot} (few : depth < 2 ^ 63)
    (short : index < 2 ^ 63 ∨ ∃ table, index ≤ (w.names table).length)
    (loads : ∀ o, spot.Loads o → spot ≠ .global .macros →
      InScope (fun table => (w.names table).length) scopes o depth index)
    (stores : spot.Assigns →
      InScope (fun table => (w.names table).length) scopes .st depth index) :
    (linking distinct).Keeps w (fun w v => w.Serves scopes spot v)
      (address depth index : CompileM ω Value) :=
  keeps_onHeap ((keeps_seal _ _).mono fun _ _ _ has =>
    ⟨fun o fits value => ⟨depth, index, has, few, short, loads o fits value⟩,
      fun fits => ⟨depth, index, has, few, short, stores fits⟩⟩)

theorem keeps_servesGlobal {table : Table} {slot : Nat} (spelled : Spelled scopes)
    (known : 0 < slot ∧ slot ≤ (w.names table).length) :
    (linking distinct).Keeps w (fun w v => w.Serves scopes (.global table) v)
      (address (scopes.length + table.depth) slot : CompileM ω Value) := by
  obtain ⟨i, rfl⟩ := Nat.exists_eq_succ_of_ne_zero (Nat.pos_iff_ne_zero.mp known.1)
  have two : table.depth ≤ 2 := by cases table <;> decide
  refine keeps_serves (by have := spelled.depth; omega) (.inr ⟨table, known.2⟩) ?_ ?_
  · intro o loads value
    cases loads
    cases table with
    | functions => exact .loadGlobal known.2
    | macros => exact (value rfl).elim
  · exact fun _ => .storeGlobal known.2

theorem keeps_servesOwn {name : Symbol} {place : Place} (spelled : Spelled scopes)
    (found : Frame.locate? scopes name = some place) :
    (linking distinct).Keeps w (fun w v => w.Serves scopes (.own place) v)
      (address place.depth place.index : CompileM ω Value) := by
  obtain ⟨depth, index, formal⟩ := place
  obtain ⟨⟨first, le⟩, second, _⟩ := locate?_bounds found
  obtain ⟨frame, around, here⟩ := locate?_frame found
  have lawful := spelled.frames frame (List.mem_of_getElem? around)
  have within := (find?_bounds here).2
  obtain ⟨d, rfl⟩ := Nat.exists_eq_succ_of_ne_zero (Nat.pos_iff_ne_zero.mp first)
  obtain ⟨i, rfl⟩ := Nat.exists_eq_succ_of_ne_zero (Nat.pos_iff_ne_zero.mp second)
  have at_index : frame[i]? = some formal := find?_formal here
  refine keeps_serves (by have := spelled.depth; omega)
    (.inl (Nat.lt_of_le_of_lt within lawful.few)) ?_ ?_
  · intro o loads _
    cases loads with
    | plain => exact .load around at_index
    | rest => exact .rest around at_index
  · intro assigns
    cases assigns
    exact .store around at_index

/-- Compiling gives code of the grammar, whatever it is compiled for. -/
theorem takes_grammar (distinct : Prop) (K : Value) (recorder : Recorder ω) :
    Compile.Takes (linking distinct) recorder Data (fun w shape v => w.Parsed K shape v)
      (fun w scopes spot v => w.Serves scopes spot v)
      fun w table slot => 0 < slot ∧ slot ≤ (w.names table).length where
  later le known := known.mono le.store
  laterCode le parsed := parsed.mono le
  laterSlot {_ _ table _} le known :=
    ⟨known.1, Nat.le_trans known.2 (le.names table).length_le⟩
  refuse _ _ := trivial
  nil _ := Store.open_of_isPair rfl
  halves holds known := holds.1.1 ▸ holds.1.2.halves known
  event _ := keeps_report
  slot {_ _ table _ _} holds found := (holds.2.2 table).1 ▸ Globals.slotIn?_bounds found
  own := keeps_servesOwn
  global := keeps_servesGlobal
  naming table _ spelled _ := (keeps_define table _).bind fun w' slot _ known =>
    keeps_servesGlobal spelled known
  phrase phrase rest := keeps_parsed fun w' v le words => by
    refine World.parsed_phrase (phrase.mono (fun _ _ => World.Parsed.mono le) ?_ fun _ _ => trivial)
      (rest.mono le) words
    exact fun _ _ _ serves => ⟨fun o loads value => World.operand_mono le (serves.1 o loads value),
      fun assigns => World.operand_mono le (serves.2 assigns)⟩
  ending last := keeps_parsed fun w' v _ words => ⟨v, .done, by cases last <;> exact words⟩
  call _ _ := keeps_callMacro _
  reset := (takes_compiling recorder).reset

def World.first (h : Heap) (g : Globals) : World := ⟨⟨h, fun _ => False⟩, g.table⟩

theorem holds_first {s : State ω} (closed : s.heap.Closed) (env : s.heap.Owns s.globals.env) :
    (linking False).holds (World.first s.heap s.globals) s := by
  have opened {v : Value} (owns : s.heap.Owns v) : Data (World.first s.heap s.globals) v :=
    fun a eq => ⟨owns a eq, id⟩
  exact ⟨⟨rfl, fun _ => False.elim, fun a _ _ => ⟨opened (closed a).1, opened (closed a).2⟩⟩,
    opened env, fun table => ⟨rfl, False.elim⟩⟩

theorem World.code_terms {h : Heap} {g : Globals} (heap : h = w.store.heap)
    (tables : ∀ table, g.table table = w.names table)
    (few : ∀ table, (g.table table).length < 2 ^ 63) (code : w.terms.Code scopes v k) :
    (Linking.terms h g).Code scopes v k := by
  subst heap
  refine code.mono (fun v car cdr => ?_) fun scopes o v => ?_
  · rintro ⟨a, rfl, lt, _, cell⟩
    exact ⟨a, rfl, lt, cell⟩
  · rintro ⟨d, i, ⟨a, rfl, lt, _, cell⟩, depth, index, inScope⟩
    have short : i < 2 ^ 63 := by
      rcases index with index | ⟨table, within⟩
      · exact index
      · exact Nat.lt_of_le_of_lt (tables table ▸ within) (few table)
    obtain ⟨first, second⟩ := inScope.positive
    obtain ⟨firstPositive, depth⟩ := positive_ofNat first depth
    obtain ⟨secondPositive, index⟩ := positive_ofNat second short
    refine ⟨a, _, _, rfl, lt, cell, firstPositive, secondPositive, ?_⟩
    rw [depth, index]
    exact inScope.mono fun table => Nat.le_of_eq (congrArg List.length (tables table).symm)

/-- Compiled code is well formed, and every address in it is in scope. In whatever frames an
expression is compiled, and for whatever code, what compiling it gives is code of the grammar in
front of that code; and a top-level form gives code that ends in HALT. Names that got their slots
meanwhile count, and so does code that macros expand to. -/
theorem compiled_in_scope {s : State ω} {expr : Value} (closed : s.heap.Closed)
    (env : s.heap.Owns s.globals.env) (known : s.heap.Owns expr) :
    (∀ room ctx k code t, Takes.Fine ctx.recorder room ctx →
      expression room ctx expr k s = .ok code t →
      (∀ table, (t.globals.table table).length < 2 ^ 63) →
      (terms t.heap t.globals).Code ctx.scopes code k) ∧
    ∀ recorder symbols steps code t, toplevel recorder symbols steps expr s = .ok code t →
      (∀ table, (t.globals.table table).length < 2 ^ 63) →
      ∃ last, (terms t.heap t.globals).Code [] code last ∧
        (terms t.heap t.globals).Spells [.op .halt] .nil last := by
  have first := holds_first closed env
  have data : Data (World.first s.heap s.globals) expr := fun a eq => ⟨known a eq, id⟩
  refine ⟨fun room ctx k code t fine run few => ?_, fun recorder symbols steps code t run few => ?_⟩
  · have keeps := (takes_grammar False k ctx.recorder).keeps_expression room _ ctx expr k [] .given
      fine data ⟨k, .done, rfl⟩
    obtain ⟨w, _, ⟨⟨heap, _⟩, _, tables⟩, m, parsed, rfl⟩ := (keeps s first).of_eq_ok run
    exact World.code_terms heap (fun table => (tables table).1) few parsed
  · have keeps := (takes_grammar False .nil recorder).keeps_toplevel symbols steps data
    obtain ⟨w, _, ⟨⟨heap, _⟩, _, tables⟩, m, parsed, stops⟩ := (keeps s first).of_eq_ok run
    have here := World.code_terms heap (fun table => (tables table).1) few parsed
    have last : w.terms.Spells [.op .halt] .nil m := stops
    refine ⟨m, here, last.mono ?_⟩
    rintro v car cdr ⟨a, rfl, lt, _, cell⟩
    exact ⟨a, rfl, heap ▸ lt, heap ▸ cell⟩

section Example

open Session

/-- What the compiler of a session works on. -/
def state (s : Session) : State Log := ⟨s.heap, s.globals, s.log⟩

theorem closed_state {s : Session} (inRange : s.InRange) : (state s).heap.Closed := inRange.closed

theorem owns_state {s : Session} (inRange : s.InRange) : (state s).heap.Owns (state s).globals.env :=
  inRange.env.owns

/-- A session with a macro, which is about to compile a recursive binding that calls it. -/
def recursive : Session :=
  [.read "(defm m (x) x)", .eval 20 (.pair 6),
    .read "(set g (letrec (f) ((fn (a &rest r) (if a (m (f r)) g))) f))"].foldl
    (fun s op => (perform op s).1)
    ⟨⟨fresh.heap.cells, 512, by decide, by decide⟩, .initial, fresh.globals, .empty .quiet⟩

theorem inRange_recursive : recursive.InRange := by
  have made : create 512 .quiet = .ok ⟨⟨fresh.heap.cells, 512, by decide, by decide⟩, .initial,
    fresh.globals, .empty .quiet⟩ := rfl
  have first : Arises (fun _ => False) _ := .performed (.read "(defm m (x) x)") (.created made) trivial
  have second := first.performed (.eval 20 (.pair 6)) (by decide +kernel : Knows _ (.pair 6))
  exact inRange_of_arises (second.performed (.read _) trivial)

/-- A context where `a` and `r` are the parameters of a function around the form. -/
def around : Context Log :=
  ⟨recursive.symbols, 20, Log.recorder, [[.plain 28, .rest 29]], 0⟩

/-- What compiling the form leaves, in the function and for the global environment. -/
def within : State Log := left (expression 20 around (.pair 42) (.int 7)) (state recursive)

def outside : State Log :=
  left (toplevel Log.recorder recursive.symbols 20 (.pair 42)) (state recursive)

theorem recursive_in_scope : recursive.InRange ∧
    (terms within.heap within.globals).Code around.scopes (.pair 94) (.int 7) ∧
    ∃ last, (terms outside.heap outside.globals).Code [] (.pair 95) last ∧
      (terms outside.heap outside.globals).Spells [.op .halt] .nil last := by
  have known : (state recursive).heap.Owns (.pair 42) := by
    have lt : 42 < (state recursive).heap.size := by decide +kernel
    exact fun a eq => Value.pair.inj eq ▸ lt
  obtain ⟨inner, outer⟩ :=
    compiled_in_scope (closed_state inRange_recursive) (owns_state inRange_recursive) known
  have lawful : ∀ frame ∈ [[.plain 28, .rest 29]], Lawful frame := by
    intro frame mem
    obtain rfl := List.mem_singleton.mp mem
    exact ⟨by decide, .inl rfl, .inr rfl, trivial⟩
  have fine : Takes.Fine Log.recorder 20 around := ⟨rfl, by decide, lawful⟩
  have first : expression 20 around (.pair 42) (.int 7) (state recursive) = .ok (.pair 94) within :=
    eq_ok_of_value? (by decide +kernel)
  have second : toplevel Log.recorder recursive.symbols 20 (.pair 42) (state recursive) =
      .ok (.pair 95) outside := eq_ok_of_value? (by decide +kernel)
  have few : ∀ table, (within.globals.table table).length < 2 ^ 63 := by
    rintro (_ | _) <;> decide +kernel
  have few' : ∀ table, (outside.globals.table table).length < 2 ^ 63 := by
    rintro (_ | _) <;> decide +kernel
  exact ⟨inRange_recursive, inner 20 around _ _ _ fine first few,
    outer Log.recorder _ 20 _ _ second few'⟩

end Example

end Linking

end SecdLisp
