import SecdLisp.Proofs.Discipline.Sight

/-!
# What is shown stays

In a world that describes the heap, every pair that an honest history has shown has a role in which it
never changes.
-/

namespace SecdLisp

namespace Discipline

open Compile Machine

namespace World

variable {w w' : World} {shape : Shape} {r : Registers} {u v k car cdr : Value} {role : Role}
  {a : Addr} {c : Cell}

/-- A cell that never changes, and what it holds. -/
def Holds (w : World) (a : Addr) (c : Cell) : Prop :=
  a < w.heap.size ∧ (w.role a).Fixed ∧ w.heap.cell a = c

theorem Holds.mono (holds : w.Holds a c) (le : w.Le w') : w'.Holds a c := by
  obtain ⟨lt, fixed, cell⟩ := holds
  obtain ⟨same, kept⟩ := le.fixed lt fixed
  exact ⟨Nat.lt_of_lt_of_le lt le.size, same ▸ fixed, kept.trans cell⟩

def Keeps (w : World) (v : Value) : Prop := ∀ a, v = .pair a → w.Holds a (w.heap.cell a)

theorem Has.keeps (has : w.Has role v car cdr) (fixed : role.Fixed) : w.Keeps v := by
  obtain ⟨a, rfl, lt, rfl, _⟩ := has
  rintro _ ⟨⟩
  exact ⟨lt, fixed, rfl⟩

theorem Has.head (has : w.Has role v car cdr) : Linking.head w.heap v = car := by
  rw [Linking.head, has.carOf?]
  rfl

theorem Has.tail (has : w.Has role v car cdr) : Linking.tail w.heap v = cdr := by
  rw [Linking.tail, has.cdrOf?]
  rfl

/-- What code is walked through: checked code, its end, and what is entered in a way of its own. -/
inductive Coded (w : World) : Value → Prop where
  | done : Coded w .nil
  | checked {shape : Shape} {v : Value} (code : w.Code shape v) : Coded w v
  | binding {shape : Shape} {k v : Value} (words : w.Spells [.op .rap] k v) (next : w.Code shape k) :
    Coded w v
  | calling {shape : Shape} {u list k v : Value} (first : w.Has .hidden v (.op .ldc) u)
    (second : w.Has .hidden u list k) (next : w.Code shape k) : Coded w v

theorem Ready.coded (ready : w.Ready r) : w.Coded r.code := by
  cases ready with
  | running _ code => exact .checked code
  | binding _ _ _ _ next words => exact .binding words next
  | calling _ first second _ next => exact .calling first second next

theorem Code.head_ne_rap (code : w.Code shape v) : Linking.head w.heap v ≠ .op .rap := by
  cases code with
  | load loads _ _ words =>
    obtain ⟨_, has, _⟩ := words
    cases loads <;> simp [has.head]
  | nil _ words | ldc _ _ words | st _ _ _ words | cons _ words | builtin _ _ words
  | sel _ _ _ words | join words | ldf _ _ words | ap _ words | rtn words | dum _ words
  | rap _ _ words | halt words =>
    obtain ⟨_, has, _⟩ := words
    simp [has.head]

theorem Code.keeps (code : w.Code shape v) : w.Keeps v := by
  cases code <;> next words => exact words.choose_spec.1.keeps trivial

theorem Code.cells (code : w.Code shape v) :
    ∀ a ∈ Linking.instructionCells w.heap v, w.Holds a (w.heap.cell a) := by
  have listed {vs : List Value} (keeps : ∀ v ∈ vs, w.Keeps v) :
      ∀ a ∈ vs.filterMap Value.addr?, w.Holds a (w.heap.cell a) := by
    intro a mem
    obtain ⟨v, mem', eq⟩ := List.mem_filterMap.mp mem
    cases v <;> cases eq
    exact keeps _ mem' a rfl
  cases code with
  | ldc _ _ words =>
    obtain ⟨_, has, _, has', _⟩ := words
    simp only [Linking.instructionCells, has.head, has.tail]
    exact listed (by simp [has.keeps trivial, has'.keeps trivial])
  | load loads _ place words =>
    obtain ⟨_, has, _, has', _⟩ := words
    obtain ⟨_, _, address, _⟩ := place
    cases loads <;>
    · simp only [Linking.instructionCells, has.head, has.tail, has'.head]
      exact listed (by simp [has.keeps trivial, has'.keeps trivial, address.keeps trivial])
  | st _ _ place words =>
    obtain ⟨_, has, _, has', _⟩ := words
    obtain ⟨_, _, address, _⟩ := place
    simp only [Linking.instructionCells, has.head, has.tail, has'.head]
    exact listed (by simp [has.keeps trivial, has'.keeps trivial, address.keeps trivial])
  | sel _ _ _ words =>
    obtain ⟨_, has, _, has', _, has'', _⟩ := words
    simp only [Linking.instructionCells, has.head, has.tail, has'.tail]
    exact listed (by simp [has.keeps trivial, has'.keeps trivial, has''.keeps trivial])
  | ldf _ next words =>
    obtain ⟨_, has, _, has', rfl⟩ := words
    simp only [Linking.instructionCells, has.head, has.tail, has'.tail]
    exact listed (by simp [has.keeps trivial, has'.keeps trivial, next.keeps])
  | rap _ _ words =>
    obtain ⟨_, has, _, has', _, has'', _⟩ := words
    simp only [Linking.instructionCells, has.head, has.tail, has'.tail]
    exact listed (by simp [has.keeps trivial, has'.keeps trivial, has''.keeps trivial])
  | nil _ words | cons _ words | builtin _ _ words | join words | ap _ words | rtn words
  | dum _ words | halt words =>
    obtain ⟨_, has, _⟩ := words
    simp only [Linking.instructionCells, has.head]
    exact listed (by simp [has.keeps trivial])

theorem Coded.cells (coded : w.Coded v) :
    ∀ a ∈ Linking.instructionCells w.heap v, w.Holds a (w.heap.cell a) := by
  cases coded with
  | done => simp [Linking.instructionCells, Linking.head, Heap.carOf?, Value.addr?]
  | checked code => exact code.cells
  | binding words _ =>
    obtain ⟨_, has, _⟩ := words
    obtain ⟨a, rfl, _⟩ := id has
    simp only [Linking.instructionCells, has.head]
    simpa [Value.addr?] using has.keeps trivial a rfl
  | calling first second _ =>
    obtain ⟨a, rfl, _⟩ := id first
    obtain ⟨b, rfl, _⟩ := id second
    simp only [Linking.instructionCells, first.head, first.tail]
    simpa [Value.addr?] using ⟨first.keeps trivial a rfl, second.keeps trivial b rfl⟩

theorem Coded.parts (coded : w.Coded v) {n : Nat} :
    ∀ d ∈ Linking.parts w.heap (n, v), w.Coded d.2 := by
  have nil : w.Coded .nil := .done
  cases coded with
  | done =>
    have same : Linking.parts w.heap (n, .nil) = [(n, .nil)] := rfl
    simp [same, nil]
  | binding words next =>
    obtain ⟨_, has, rfl⟩ := words
    have next := Coded.checked next
    simp [Linking.parts, has.head, has.tail, next]
  | calling first second next =>
    have next := Coded.checked next
    simp [Linking.parts, first.head, first.tail, second.tail, next]
  | checked code =>
    cases code with
    | ldc next _ words =>
      obtain ⟨_, has, _, has', rfl⟩ := words
      simp [Linking.parts, has.head, has.tail, has'.tail, Coded.checked next]
    | load loads next _ words =>
      obtain ⟨_, has, _, has', rfl⟩ := words
      cases loads <;> simp [Linking.parts, has.head, has.tail, has'.tail, Coded.checked next]
    | st _ next _ words =>
      obtain ⟨_, has, _, has', rfl⟩ := words
      simp [Linking.parts, has.head, has.tail, has'.tail, Coded.checked next]
    | sel first second next words =>
      obtain ⟨_, has, _, has', _, has'', rfl⟩ := words
      simp [Linking.parts, has.head, has.tail, has'.head, has'.tail, has''.head, has''.tail,
        Coded.checked first, Coded.checked second, Coded.checked next]
    | ldf body next words =>
      obtain ⟨_, has, _, has', rfl⟩ := words
      simp [Linking.parts, has.head, has.tail, has'.head, has'.tail, next.head_ne_rap,
        Coded.checked body, Coded.checked next]
    | rap body next words =>
      obtain ⟨_, has, _, has', _, has'', rfl⟩ := words
      simp [Linking.parts, has.head, has.tail, has'.head, has'.tail, has''.head, has''.tail,
        Coded.checked body, Coded.checked next]
    | nil next words | cons next words | builtin _ next words | ap next words | dum next words =>
      obtain ⟨_, has, rfl⟩ := words
      simp [Linking.parts, has.head, has.tail, Coded.checked next]
    | join words | rtn words | halt words =>
      obtain ⟨_, has, rfl⟩ := words
      simp [Linking.parts, has.head, has.tail, nil]

theorem Coded.leads {c d : Nat × Value} (coded : w.Coded c.2) (leads : Linking.Leads w.heap c d) :
    w.Coded d.2 := by
  induction leads with
  | refl => exact coded
  | tail _ step ih => exact ih.parts _ step

theorem Coded.codeCell (coded : w.Coded v) (inside : Linking.CodeCell w.heap v a) :
    w.Holds a (w.heap.cell a) := by
  obtain ⟨n, n', u, leads, mem⟩ := inside
  have there : w.Coded u := Coded.leads (c := (n, v)) coded leads
  exact there.cells a mem

theorem Ready.operand (ready : w.Ready r) {o : Opcode}
    (fetched : w.heap.carOf? r.code = some (.op o))
    (works : o ∈ [.cons, .sel, .st, .ap, .rtn, .halt]) :
    ∃ sc ops due, w.Meets [] ⟨sc, .value :: ops, due⟩ r := by
  have same {o' : Opcode} (here : w.heap.carOf? r.code = some (.op o')) : o' = o :=
    Value.op.inj (Option.some.inj (here.symm.trans fetched))
  cases ready with
  | running meets code =>
    cases code with
    | cons _ words | sel _ _ _ words | st _ _ _ words | ap _ words | rtn words | halt words =>
      exact ⟨_, _, _, meets⟩
    | builtin _ _ words => cases words.carOf?.symm.trans fetched
    | load loads _ _ words =>
      obtain rfl := same words.carOf?
      cases loads <;> simp at works
    | nil _ words | ldc _ _ words | join words | ldf _ _ words | dum _ words | rap _ _ words =>
      obtain rfl := same words.carOf?
      simp at works
  | binding _ _ _ _ _ words =>
    obtain rfl := same words.carOf?
    simp at works
  | calling _ first =>
    obtain rfl := same first.carOf?
    simp at works

theorem Ready.builtin (ready : w.Ready r) {b : Builtin}
    (fetched : w.heap.carOf? r.code = some (.ident b.symbol)) :
    ∃ sc ops due, w.Meets [] ⟨sc, List.replicate b.arity .value ++ ops, due⟩ r := by
  have other {o : Opcode} (here : w.heap.carOf? r.code = some (.op o)) : False := by
    cases here.symm.trans fetched
  cases ready with
  | running meets code =>
    cases code with
    | builtin b' _ words =>
      have same := Value.ident.inj (Option.some.inj (words.carOf?.symm.trans fetched))
      obtain rfl : b' = b := by simpa using congrArg Builtin.ofSymbol? same
      exact ⟨_, _, _, meets⟩
    | cons _ words | sel _ _ _ words | st _ _ _ words | ap _ words | rtn words | halt words
    | load _ _ _ words | nil _ words | ldc _ _ words | join words | ldf _ _ words | dum _ words
    | rap _ _ words => exact (other words.carOf?).elim
  | binding _ _ _ _ _ words => exact (other words.carOf?).elim
  | calling _ first => exact (other first.carOf?).elim

theorem Ready.takes {symbols : SymbolTable} (ready : w.Ready r)
    (takes : (Moment.mk symbols r w.heap).Takes v) : w.Visible v := by
  have top {sc : List Frame} {ops : List Compile.Slot} {due : Pending}
      (meets : w.Meets [] ⟨sc, .value :: ops, due⟩ r) (here : w.heap.carOf? r.stack = some v) :
      w.Visible v := by
    obtain ⟨u, stack, has, visible, _⟩ := meets.pop_value
    exact Option.some.inj (has.carOf?.symm.trans here) ▸ visible
  cases takes with
  | operand instruction works here =>
    obtain ⟨sc, ops, due, meets⟩ := ready.operand instruction works
    exact top meets here
  | @first b instruction here =>
    obtain ⟨sc, ops, due, meets⟩ := ready.builtin instruction
    cases b <;> exact top meets here
  | second instruction two below =>
    obtain ⟨sc, ops, due, meets⟩ := ready.builtin instruction
    rw [two] at meets
    obtain ⟨x, stack, has, _, meets⟩ := meets.pop_value
    obtain ⟨y, _, has', visible, _⟩ := meets.pop_value
    have here : second? w.heap r = some y := by
      rw [second?, has.cdrOf?]
      exact has'.carOf?
    exact Option.some.inj (here.symm.trans below) ▸ visible

theorem Typed.visible_inList (typed : w.Typed) (visible : w.Visible v) (inside : w.heap.InList v a) :
    w.Visible (.pair a) := inside.along (fun _ here => (typed.halves here).2) visible

theorem Typed.holds_inList (typed : w.Typed) (framed : w.Framed (some 0) v)
    (inside : w.heap.InList v a) : w.Holds a (w.heap.cell a) := by
  have framed : w.Framed (some 0) (.pair a) :=
    inside.along (fun _ here => (typed.frame here.inFrame).2) framed
  have inFrame := framed.inFrame
  refine ⟨inFrame.1, ?_, rfl⟩
  rw [inFrame.2]
  trivial

/-- Before an instruction of the past, an earlier world described the machine. -/
def Past (w : World) (m : Moment) : Prop :=
  ∃ w₀ : World, w₀.Le w ∧ w₀.heap = m.heap ∧ w₀.Typed ∧ w₀.Ready m.registers

theorem Past.mono {m : Moment} (past : w.Past m) (le : w.Le w') : w'.Past m := by
  obtain ⟨w₀, le₀, rest⟩ := past
  exact ⟨w₀, le₀.trans le, rest⟩

/-- What cells held then they still hold, apart from those that may be assigned. -/
theorem Past.cell {m : Moment} (past : w.Past m) (a : Addr) (lt : a < m.heap.size)
    (kept : (w.role a).Kept) : w.heap.cell a = m.heap.cell a := by
  obtain ⟨w₀, le, heap, _⟩ := past
  exact heap ▸ le.cell a (heap ▸ lt) kept

/-- Closures that were made are there, lists are no frames before a call has taken them, and what the
history has shown stays. -/
structure Recalls (w : World) (history : List Moment) : Prop where
  made : ∀ m ∈ history, ∀ a ∈ m.made?, w.Made a
  linked : ∀ m ∈ history, ∀ a, m.Links a → w.Linked a ∨ ∃ d ∈ history, d.Calls a
  showed : ∀ a c, Showed history a c → w.Holds a c
  past : ∀ m ∈ history, w.Past m

theorem recalls_nil (w : World) : w.Recalls [] where
  made := by simp
  linked := by simp
  showed := by simp [Showed]
  past := by simp

theorem Linked.mono (linked : w.Linked a) (moves : w.Moves (fun _ _ => False) w') : w'.Linked a := by
  obtain ⟨lt, pending | done⟩ := linked
  · exact ⟨Nat.lt_of_lt_of_le lt moves.le.size, .inl (moves.kept lt pending)⟩
  · have same := moves.le.role a lt (by rw [done]; nofun)
    exact ⟨Nat.lt_of_lt_of_le lt moves.le.size, .inr (same.trans done)⟩

/-- Work that leaves argument lists alone forgets nothing. -/
theorem Recalls.later {history : List Moment} (recalls : w.Recalls history)
    (moves : w.Moves (fun _ _ => False) w') : w'.Recalls history where
  made m mem a makes := (recalls.made m mem a makes).mono moves.le
  linked m mem a links := (recalls.linked m mem a links).imp_left (·.mono moves)
  showed a c showed := (recalls.showed a c showed).mono moves.le
  past m mem := (recalls.past m mem).mono moves.le

end World

end Discipline

end SecdLisp
