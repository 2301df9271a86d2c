import SecdLisp.Proofs.Discipline.Registers
import SecdLisp.Proofs.Instruction

/-!
# Instructions keep to the discipline

Where registers are ready for checked code, the next instruction finds what it takes, and leaves
registers that are ready for the rest. A call needs that the closure was made to be called: what a
program can see is no closure of a recursive binding. The call turns its argument list into a frame of
the closure's own extent; a list that is a value becomes a frame without cells to assign.
-/

namespace SecdLisp

namespace Discipline

open Contract Compile Machine

variable {turns : Addr → Role → Prop} {w w' : World} {shape : Shape} {scopes : List Frame}
  {ops : List Compile.Slot} {own : List Addr} {due : Pending} {s : Compile.Slot} {spot : Spot}
  {u v k : Value} {role : Role} {r : Registers} {α : Type} {p : World → α → Prop}

theorem keeps_integers (b : Builtin) (x y : Value) :
    keeping.Keeps w (fun _ _ => True) (b.integers x y) := by
  unfold Builtin.integers
  split
  · exact keeps_pure trivial
  · exact keeps_fault trivial
  · exact keeps_fault trivial

theorem keeps_word (b : Builtin) (i : Int) : keeping.Keeps w World.Visible (b.word i) := by
  unfold Builtin.word
  split
  · exact keeps_pure (World.visible_of_isPair rfl)
  · exact keeps_fault trivial

theorem keeps_arithmetic (b : Builtin) (f : Int → Int → Int) (x y : Value) :
    keeping.Keeps w World.Visible (b.arithmetic f x y) :=
  (keeps_integers b x y).bind fun _ _ _ _ => keeps_word b _

theorem visible_ofBool (b : Bool) : w.Visible (.ofBool b) := by
  cases b <;> exact World.visible_of_isPair rfl

theorem keeps_comparison (b : Builtin) (f : Int64 → Int64 → Bool) (x y : Value) :
    keeping.Keeps w World.Visible (b.comparison f x y) :=
  (keeps_integers b x y).bind fun _ _ _ _ => keeps_pure (visible_ofBool _)

theorem keeps_half (b : Builtin) {f : Heap → Value → Option Value} {x : Value}
    (finds : ∀ v, w.Typed → f w.heap x = some v → w.Visible v) :
    keeping.Keeps w World.Visible (b.half f x) := by
  refine keeps_look_bind rfl fun typed => ?_
  dsimp only
  cases found : f w.heap x with
  | none => exact keeps_fault trivial
  | some v => exact keeps_pure (finds v typed found)

/-- A result is a value of the program, and a pair that was made is data. -/
def Results (b : Builtin) (w : World) (v : Value) : Prop :=
  w.Visible v ∧ (b = .cons → ∀ a, v = .pair a → a < w.heap.size ∧ w.role a = .plain)

theorem keeps_builtin (b : Builtin) {x y : Value} (first : w.Visible x) (second : w.Visible y) :
    keeping.Keeps w (Results b) (b.apply x y) := by
  have visible (other : b ≠ .cons) {work : HeapM Value}
      (keeps : keeping.Keeps w World.Visible work) : keeping.Keeps w (Results b) work :=
    keeps.mono fun _ _ _ visible => ⟨visible, fun eq => (other eq).elim⟩
  cases b with
  | add | sub | mul => exact visible (by decide) (keeps_arithmetic _ _ x y)
  | div =>
    refine visible (by decide) ((keeps_integers .div x y).bind fun w' p _ _ => ?_)
    obtain ⟨i, j⟩ := p
    dsimp only
    split
    · exact keeps_fault trivial
    · exact keeps_word .div _
  | car =>
    refine visible (by decide) (keeps_half .car fun v typed found => ?_)
    obtain ⟨a, eq, rfl⟩ := Option.map_eq_some_iff.mp found
    cases x <;> cases eq
    exact (typed.halves first).1
  | cdr =>
    refine visible (by decide) (keeps_half .cdr fun v typed found => ?_)
    obtain ⟨a, eq, rfl⟩ := Option.map_eq_some_iff.mp found
    cases x <;> cases eq
    exact (typed.halves first).2
  | cons =>
    refine (keeps_cons .plain fun _ => ⟨first, second⟩).mono fun _ _ _ has => ⟨has.visible trivial, ?_⟩
    intro _ a eq
    obtain ⟨_, rfl, lt, role, _⟩ := has
    cases eq
    exact ⟨lt, role⟩
  | eq => exact visible (by decide) (keeps_pure (visible_ofBool _))
  | lt => exact visible (by decide) (keeps_comparison .lt (fun m n => m < n) x y)
  | gt => exact visible (by decide) (keeps_comparison .gt (fun m n => n < m) x y)
  | le => exact visible (by decide) (keeps_comparison .le (fun m n => m ≤ n) x y)
  | ge => exact visible (by decide) (keeps_comparison .ge (fun m n => n ≤ m) x y)

namespace World

/-- A cell that an instruction put in front of a list: of arguments, or of a list that is done. -/
def Linked (w : World) (a : Addr) : Prop :=
  a < w.heap.size ∧ (w.role a = .pending ∨ w.role a = .frame (some 0))

/-- What is known of the value that an instruction leaves on top of the stack. -/
def Leaves (w : World) : (instruction v : Value) → Prop
  | .op .ldf, .pair a => w.Made a
  | .op .cons, .pair a => w.Linked a
  | .op .ldr, v => w.Framed (some 0) v
  | .ident name, .pair a => name = Builtin.cons.symbol → a < w.heap.size ∧ w.role a = .plain
  | _, _ => True

/-- What an instruction leaves: registers that are ready, and a value on the stack. -/
def Left (w : World) (instruction : Value) : Outcome → Prop
  | .running r => w.Ready r ∧ ∀ v, w.heap.carOf? r.stack = some v → w.Leaves instruction v
  | .halted r => ∃ own, w.Stack [.value] own r.stack

/-- What the next instruction may make of a cell of an argument list. -/
def Turns (w : World) (r : Registers) (a : Addr) (role : Role) : Prop :=
  role = .frame (some 0) ∨ ∃ list ∈ arguments? w.heap r, w.heap.InList list a

end World

theorem keeps_load {find : Heap → Value → Nat → Nat → Option Value} {q : World → Value → Prop}
    {code : Value} (meets : w.Meets [] ⟨scopes, ops, due⟩ r) (place : w.Address scopes spot v)
    (has : w.Has .plain r.code v code) (next : w.Code ⟨scopes, .value :: ops, due⟩ code)
    (later : ∀ w' u, w.Le w' → q w u → q w' u) (visible : ∀ u, q w u → w.Visible u)
    (finds : ∀ depth index u, w.Typed → depth ≤ scopes.length + 2 →
      World.Reaches (Extent.ofDepth scopes depth) index spot →
      find w.heap r.env depth index = some u → q w u) :
    keeping.Keeps w (fun w' r' => w'.Ready r' ∧ ∃ u, w'.heap.carOf? r'.stack = some u ∧ q w' u)
      (load find r) := by
  obtain ⟨depth, index, _, le, reaches, taken⟩ := addressOperand_eq place has
  refine keeps_look_bind taken fun typed => keeps_look_bind rfl fun _ => ?_
  dsimp only
  cases found : find w.heap r.env depth index with
  | none => exact keeps_fault trivial
  | some u =>
    have known : q w u := finds depth index u typed le reaches found
    exact (keeps_value (meets.withCode code) (visible u known) next).mono
      fun w' r' moves ⟨ready, top⟩ => ⟨ready, u, top, later w' u moves.le known⟩

theorem keeps_lookup {code : Value} (meets : w.Meets [] ⟨scopes, ops, due⟩ r)
    (place : w.Address scopes spot v) (has : w.Has .plain r.code v code)
    (next : w.Code ⟨scopes, .value :: ops, due⟩ code) :
    keeping.Keeps w (fun w' r' => w'.Ready r') (load Heap.lookup? r) := by
  have value : keeping.Keeps w (fun w' r' => w'.Ready r' ∧
      ∃ u, w'.heap.carOf? r'.stack = some u ∧ w'.Visible u) (load Heap.lookup? r) :=
    keeps_load meets place has next (fun _ _ le visible => visible.mono le) (fun _ => id)
      fun _ _ _ typed le _ found => World.visible_lookup? typed meets.frames le found
  exact value.mono fun _ _ _ => And.left

theorem keeps_lookupRest {code : Value} {depth index : Nat} {name : Symbol}
    (meets : w.Meets [] ⟨scopes, ops, due⟩ r)
    (place : w.Address scopes (.own ⟨depth, index, .rest name⟩) v)
    (has : w.Has .plain r.code v code) (next : w.Code ⟨scopes, .value :: ops, due⟩ code) :
    keeping.Keeps w (fun w' r' => w'.Ready r' ∧
      ∀ v, w'.heap.carOf? r'.stack = some v → w'.Leaves (.op .ldr) v) (execute r .ldr) := by
  have list : keeping.Keeps w (fun w' r' => w'.Ready r' ∧
      ∃ u, w'.heap.carOf? r'.stack = some u ∧ w'.Framed (some 0) u) (load Heap.lookupRest? r) :=
    keeps_load meets place has next (fun _ _ le framed => framed.mono le)
      (fun _ framed => framed.visible) fun _ _ _ typed le reaches found =>
        World.framed_lookupRest? typed meets.frames le reaches found
  refine list.mono ?_
  rintro w' r' _ ⟨ready, u, top, framed⟩
  refine ⟨ready, fun v here => ?_⟩
  obtain rfl : u = v := Option.some.inj (top.symm.trans here)
  exact framed

theorem keeps_machineStore {code : Value} (meets : w.Meets [] ⟨scopes, .value :: ops, due⟩ r)
    (assigns : spot.Assigns) (place : w.Address scopes spot v) (has : w.Has .plain r.code v code)
    (next : w.Code ⟨scopes, .value :: ops, due⟩ code) :
    keeping.Keeps w (fun w' r' => w'.Ready r') (Machine.store r) := by
  obtain ⟨depth, index, positive, le, reaches, taken⟩ := addressOperand_eq place has
  have within : ∀ n ∈ Extent.ofDepth scopes depth, index ≤ n := by
    cases assigns <;> exact reaches
  obtain ⟨u, stack, top, visible, _⟩ := meets.pop_value
  refine keeps_look_bind taken fun typed => keeps_look_bind (split_eq top _) fun _ => ?_
  refine (keeps_store meets.frames positive le within visible).bind fun w₁ stored moves done => ?_
  subst done
  exact keeps_pure (.running ((meets.later moves).withCode code) (next.mono moves.le))

/-- A list that is still put together becomes longer; one that is a value is done now. -/
theorem keeps_cons_op (meets : w.Meets [] ⟨scopes, .value :: .list :: ops, due⟩ r)
    (next : w.Code ⟨scopes, s :: ops, due⟩ r.code)
    (may : ∀ a, turns a (.frame (some 0))) :
    (typing turns).Keeps w (fun w' r' => w'.Ready r' ∧
        ∀ v, w'.heap.carOf? r'.stack = some v → w'.Leaves (.op .cons) v) (execute r .cons) := by
  obtain ⟨x, stack, top, visible, meets⟩ := meets.pop_value
  obtain ⟨own, y, stack', top', listed, meets⟩ := meets.pop
  refine keeps_look_bind (pop_eq top) fun typed => keeps_look_bind (pop_eq top') fun _ => ?_
  have leaves {w' : World} {r' : Registers} {a : Addr} (linked : w'.Linked a)
      (top : w'.heap.carOf? r'.stack = some (.pair a)) (v : Value)
      (here : w'.heap.carOf? r'.stack = some v) : w'.Leaves (.op .cons) v := by
    obtain rfl : v = .pair a := Option.some.inj (here.symm.trans top)
    exact linked
  cases s with
  | list =>
    refine keeps_of_keeping ((keeps_element meets visible listed).bind fun w₁ v moves longer => ?_)
    obtain ⟨a, rfl, listed, meets⟩ := longer
    refine (keeps_result (s := .list) meets listed (next.mono moves.le)).mono ?_
    intro w₂ r₂ moves₂ both
    have pending := (listed.later moves₂).pending a (List.mem_cons_self ..)
    exact ⟨both.1, leaves ⟨pending.1, .inl pending.2⟩ both.2⟩
  | value =>
    obtain ⟨w₁, turned, framed⟩ := w.exists_turned typed listed meets.nodup 0
    refine keeps_of_turned turned (fun a mem => ?_) ?_
    · obtain ⟨m, le, role⟩ := turned.cells a mem
      obtain rfl : m = 0 := Nat.le_zero.mp le
      exact role ▸ may a
    have admits : w₁.Admits (.frame (some 0)) ⟨x, y⟩ := ⟨visible.mono turned.le, framed⟩
    refine (keeps_cons (.frame (some 0)) fun _ => admits).bind fun w₂ v moves has => ?_
    obtain ⟨a, rfl, lt, role, cell⟩ := has
    have shown : w₂.Visible (.pair a) := by
      rintro _ ⟨⟩
      exact ⟨lt, role ▸ trivial⟩
    have meets := (meets.turned turned).later moves
    refine (keeps_value meets shown (next.mono (turned.le.trans moves.le))).mono ?_
    intro w₃ r₃ moves₃ both
    have inFrame : w₃.InFrame a (some 0) := World.InFrame.mono ⟨lt, role⟩ moves₃.le
    exact ⟨both.1, leaves ⟨inFrame.1, .inr inFrame.2⟩ both.2⟩

theorem keeps_select {c d code : Value} (meets : w.Meets [] ⟨scopes, .value :: ops, due⟩ r)
    (words : w.Spells [c, d] code r.code)
    (first : w.Code ⟨scopes, ops, .join scopes (.value :: ops) due⟩ c)
    (second : w.Code ⟨scopes, ops, .join scopes (.value :: ops) due⟩ d)
    (next : w.Code ⟨scopes, .value :: ops, due⟩ code) :
    keeping.Keeps w (fun w' r' => w'.Ready r') (select r) := by
  obtain ⟨x, stack, top, _, meets⟩ := meets.pop_value
  obtain ⟨_, firstWord, _, secondWord, rfl⟩ := words
  refine keeps_look_bind (pop_eq top) fun _ => ?_
  refine keeps_look_bind (operand_eq (r := { r with stack }) firstWord) fun _ => ?_
  refine keeps_look_bind (operand_eq (r := { r with stack, code := _ }) secondWord) fun _ => ?_
  refine (keeps_cons .hidden fun _ => trivial).bind fun w₁ saved moves has => keeps_pure ?_
  obtain ⟨frames, own, below, operands, dump, nodup⟩ := meets.later moves
  have dump : w₁.Dump (.join scopes (.value :: ops) due) below saved :=
    .join has (next.mono moves.le) dump
  have meets : w₁.Meets [] ⟨scopes, ops, .join scopes (.value :: ops) due⟩
      { r with stack, code := if x.isTruthy then c else d, dump := saved } :=
    ⟨frames, own, below, operands, dump, nodup⟩
  refine .running meets ?_
  dsimp only
  split
  · exact first.mono moves.le
  · exact second.mono moves.le

/-- The branch goes on with the code that the choice left on the dump. -/
theorem keeps_join (meets : w.Meets [] ⟨scopes, ops, .join scopes ops due⟩ r) :
    keeping.Keeps w (fun w' r' => w'.Ready r') (execute r .join) := by
  obtain ⟨frames, own, below, operands, dump, nodup⟩ := meets
  cases dump with
  | @join _ _ _ _ code saved _ first next rest =>
    refine keeps_look_bind (popDump_eq first) fun _ => ?_
    have meets : w.Meets [] ⟨scopes, ops, due⟩ { r with code, dump := saved } :=
      ⟨frames, own, below, operands, rest, nodup⟩
    exact keeps_pure (.running meets next)

theorem keeps_dum {frame : Frame} (meets : w.Meets [] ⟨scopes, ops, due⟩ r)
    (next : w.Code ⟨frame :: scopes, ops, .recursion frame scopes ops due⟩ r.code) :
    keeping.Keeps w (fun w' r' => w'.Ready r') (execute r .dum) := by
  have admits (typed : w.Typed) : w.Admits (.holder (some frame.extent)) ⟨.nil, r.env⟩ :=
    ⟨.inl rfl, typed.visible_env meets.frames⟩
  refine (keeps_cons (.holder (some frame.extent)) admits).bind fun w₁ env moves has =>
    keeps_pure ?_
  obtain ⟨outer, own, below, operands, dump, nodup⟩ := meets.later moves
  obtain ⟨a, rfl, lt, role, cell⟩ := has
  have inner : w₁.Env (frame :: scopes) (.pair a) := by
    refine ⟨a, rfl, lt, role, ?_⟩
    rw [Heap.cdr, cell]
    exact outer
  have meets : w₁.Meets [] ⟨frame :: scopes, ops, .recursion frame scopes ops due⟩
      { r with env := .pair a } := ⟨inner, own, below, operands, .recursion dump, nodup⟩
  exact .running meets (next.mono moves.le)

/-- A call enters the closure in a frame that the argument list turns into. -/
theorem keeps_apply (meets : w.Meets [] ⟨scopes, .value :: .list :: ops, due⟩ r)
    (next : w.Code ⟨scopes, .value :: ops, due⟩ r.code)
    (made : ∀ a, w.heap.carOf? r.stack = some (.pair a) → w.Made a)
    (may : ∀ list a role, second? w.heap r = some list → w.heap.InList list a → turns a role) :
    (typing turns).Keeps w (fun w' r' => w'.Ready r') (Machine.apply r) := by
  obtain ⟨f, stack, top, visible, meets⟩ := meets.pop_value
  obtain ⟨own, arguments, stack', top', listed, meets⟩ := meets.pop
  have second : second? w.heap r = some arguments := by
    rw [second?, top.cdrOf?]
    exact top'.carOf?
  unfold Machine.apply popClosure
  rw [bind_assoc]
  refine keeps_look_bind (pop_eq top) fun typed => ?_
  cases f with
  | pair a =>
    obtain ⟨frame, outer, env, body⟩ := typed.closure visible (made a top.carOf?)
    have opened : split (.pair a) (.notClosure Kind.pair) w.heap =
        .ok (w.heap.car a, w.heap.cdr a) w.heap := rfl
    rw [bind_assoc]
    refine keeps_look_bind opened fun _ => ?_
    simp only [body.isPair, if_true, pure_bind]
    refine keeps_look_bind (pop_eq (r := { r with stack }) top') fun _ => ?_
    obtain ⟨w₁, turned, framed⟩ := w.exists_turned typed listed meets.nodup frame.extent
    refine keeps_of_turned turned (fun b mem => may _ b _ second (listed.inList b mem)) ?_
    refine (keeps_enter (meets.turned turned) (next.mono turned.le)).bind
      fun w₂ r₂ moves entered => ?_
    obtain ⟨saved, rfl, below, called, nodup⟩ := entered
    have le := turned.le.trans moves.le
    have admits : w₂.Typed → w₂.Admits (.holder (some frame.extent)) ⟨arguments, w.heap.cdr a⟩ :=
      fun typed₂ => ⟨framed.mono moves.le, typed₂.visible_env (env.mono le)⟩
    refine (keeps_cons (.holder (some frame.extent)) admits).bind fun w₃ holder moves₃ has =>
      keeps_pure ?_
    have le := le.trans moves₃.le
    obtain ⟨b, rfl, lt, role, cell⟩ := has
    have inner : w₃.Env (frame :: outer) (.pair b) := by
      refine ⟨b, rfl, lt, role, ?_⟩
      rw [Heap.cdr, cell]
      exact env.mono le
    have meets : w₃.Meets [] ⟨frame :: outer, [], .call⟩ ⟨.nil, .pair b, w.heap.car a, saved⟩ :=
      ⟨inner, [], below, .nil, called.mono moves₃.le (moves₃.allKept called.pending), nodup⟩
    exact .running meets (body.mono le)
  | _ => exact keeps_fault trivial

theorem keeps_leave (meets : w.Meets [] ⟨scopes, [.value], .call⟩ r) :
    keeping.Keeps w (fun w' r' => w'.Ready r') (leave r) := by
  obtain ⟨result, stack, top, visible, meets⟩ := meets.pop_value
  obtain ⟨_, own, below, operands, dump, nodup⟩ := meets
  cases operands
  cases dump with
  | @call _ _ _ others outer _ _ _ _ _ _ _ first second third operands frames next rest =>
    refine keeps_look_bind (pop_eq top) fun _ => ?_
    refine keeps_look_bind (popDump_eq (r := { r with stack := _ }) first) fun _ => ?_
    refine keeps_look_bind (popDump_eq (r := { r with stack := _, dump := _ }) second) fun _ => ?_
    refine keeps_look_bind (popDump_eq (r := { r with stack := _, dump := _ }) third) fun _ => ?_
    exact (keeps_value (r := ⟨_, _, _, _⟩) ⟨frames, others, outer, operands, rest, nodup⟩ visible
      next).mono fun _ _ _ => And.left

theorem keeps_applyRecursive {frame : Frame} {f body stack : Value}
    (top : w.Has .hidden r.stack f stack) (closure : w.Has .hidden f body r.env)
    (meets : w.Meets [] ⟨frame :: scopes, .list :: ops, due⟩ { r with stack })
    (checked : w.Code ⟨frame :: scopes, [], .call⟩ body)
    (next : w.Code ⟨scopes, .value :: ops, due⟩ r.code)
    (may : ∀ list a role, second? w.heap r = some list → w.heap.InList list a → turns a role) :
    (typing turns).Keeps w (fun w' r' => w'.Ready r') (applyRecursive r) := by
  obtain ⟨own, arguments, stack', top', listed, meets⟩ := meets.pop
  have second : second? w.heap r = some arguments := by
    rw [second?, top.cdrOf?]
    exact top'.carOf?
  unfold applyRecursive popClosure
  rw [bind_assoc]
  refine keeps_look_bind (pop_eq top) fun typed => ?_
  rw [bind_assoc]
  refine keeps_look_bind (split_eq closure _) fun _ => ?_
  simp only [checked.isPair, if_true, pure_bind]
  refine keeps_look_bind (pop_eq (r := { r with stack }) top') fun _ => ?_
  obtain ⟨w₁, turned, framed⟩ := w.exists_turned typed listed meets.nodup frame.extent
  refine keeps_of_turned turned (fun b mem => may _ b _ second (listed.inList b mem)) ?_
  have meets := meets.turned turned
  obtain ⟨a, env, lt, role, _⟩ := meets.frames
  obtain env : r.env = .pair a := env
  rw [env]
  refine (keeps_setFrame ⟨lt, role⟩ framed).bind fun w₂ _ moves₂ _ => ?_
  refine keeps_look_bind rfl fun _ => ?_
  -- The caller goes on in the environment without the frame of the binding.
  have meets := meets.later moves₂
  obtain ⟨b, eq, _, _, outer⟩ := meets.frames
  cases env.symm.trans eq
  have inner : w₂.Env (frame :: scopes) (.pair a) := env ▸ meets.frames
  obtain ⟨_, others, below, operands, dump, nodup⟩ := meets
  have caller : w₂.Meets [] ⟨scopes, ops, due⟩ { r with stack := stack', env := w₂.heap.cdr a } :=
    ⟨outer, others, below, operands, dump, nodup⟩
  have le := turned.le.trans moves₂.le
  refine (keeps_enter caller (next.mono le)).mono ?_
  rintro w₃ r₃ moves₃ ⟨saved, rfl, below, called, nodup⟩
  have meets : w₃.Meets [] ⟨frame :: scopes, [], .call⟩ ⟨.nil, .pair a, body, saved⟩ :=
    ⟨inner.mono moves₃.le, [], below, .nil, called, nodup⟩
  exact .running meets (checked.mono (le.trans moves₃.le))

theorem keeps_applyBuiltin (symbols : SymbolTable) (b : Builtin)
    (meets : w.Meets [] ⟨scopes, List.replicate b.arity .value ++ ops, due⟩ r)
    (next : w.Code ⟨scopes, .value :: ops, due⟩ r.code) :
    keeping.Keeps w (fun w' r' => w'.Ready r' ∧
      ∀ v, w'.heap.carOf? r'.stack = some v → w'.Leaves (.ident b.symbol) v)
      (applyBuiltin symbols b.symbol r) := by
  have finish (x y : Value) (stack : Value) (first : w.Visible x) (second : w.Visible y)
      (meets : w.Meets [] ⟨scopes, ops, due⟩ { r with stack }) :
      keeping.Keeps w (fun w' r' => w'.Ready r' ∧
        ∀ v, w'.heap.carOf? r'.stack = some v → w'.Leaves (.ident b.symbol) v)
        (do push (← b.apply x y) { r with stack }) := by
    refine (keeps_builtin b first second).bind fun w₁ v moves ⟨visible, made⟩ => ?_
    refine (keeps_value (meets.later moves) visible (next.mono moves.le)).mono ?_
    rintro w₂ r₂ moves₂ ⟨ready, top⟩
    refine ⟨ready, fun u here => ?_⟩
    obtain rfl : u = v := Option.some.inj (here.symm.trans top)
    cases u with
    | pair a =>
      intro eq
      have same : b = .cons := by
        have both := congrArg Builtin.ofSymbol? eq
        simpa using both
      obtain ⟨lt, role⟩ := made same a rfl
      exact ⟨Nat.lt_of_lt_of_le lt moves₂.le.size,
        (moves₂.le.role a lt (by rw [role]; nofun)).trans role⟩
    | _ => trivial
  have none : w.Visible .nil := World.visible_of_isPair rfl
  unfold applyBuiltin
  rw [Builtin.ofSymbol?_symbol]
  dsimp only
  by_cases two : b.arity = 2
  · rw [two] at meets
    obtain ⟨x, stack, top, first, meets⟩ := meets.pop_value
    obtain ⟨y, stack', top', second, meets⟩ := meets.pop_value
    refine keeps_look_bind (pop_eq top) fun _ => ?_
    simp only [two, if_true]
    exact keeps_look_bind (pop_eq (r := { r with stack }) top') fun _ =>
      finish x y stack' first second meets
  · have one : b.arity = 1 := by cases b <;> first | rfl | exact (two rfl).elim
    rw [one] at meets
    obtain ⟨x, stack, top, first, meets⟩ := meets.pop_value
    refine keeps_look_bind (pop_eq top) fun _ => ?_
    simp only [two, if_false, pure_bind]
    exact finish x .nil stack first none meets

theorem Error.Ordinary.withRegisters {e : Error} (ordinary : e.Ordinary) (r : Registers) :
    (e.withRegisters r).Ordinary := by
  cases e <;> exact ordinary

theorem keeps_fetched (symbols : SymbolTable) {i : Value} (fetched : w.Has role r.code i u)
    (next : (typing turns).Keeps w (fun w' o => w'.Left i o)
      (dispatch symbols { r with code := u } i)) :
    w.heap.carOf? r.code = some i ∧
      (typing turns).Keeps w (fun w' o => w'.Left i o) (step symbols r) := by
  refine ⟨fetched.carOf?, ?_⟩
  have work : (typing turns).Keeps w (fun w' o => w'.Left i o)
      (operand r >>= fun p => dispatch symbols p.2 p.1) :=
    keeps_look_bind (operand_eq fetched) fun _ => next
  intro h holds
  refine ends_step.mpr ((work h holds).mono (fun _ _ => id) ?_)
  rintro e h' ⟨w', le, holds', ordinary⟩
  exact ⟨w', le, holds', Error.Ordinary.withRegisters ordinary r⟩

theorem keeps_executed (symbols : SymbolTable) {o : Opcode} (goes : o ≠ .halt)
    (work : (typing turns).Keeps w (fun w' r' => w'.Ready r' ∧
      ∀ v, w'.heap.carOf? r'.stack = some v → w'.Leaves (.op o) v) (execute r o)) :
    (typing turns).Keeps w (fun w' o' => w'.Left (.op o) o') (dispatch symbols r (.op o)) := by
  have run : (typing turns).Keeps w (fun w' o' => w'.Left (.op o) o')
      (do return .running (← execute r o)) :=
    work.bind fun _ _ _ left => keeps_pure left
  cases o with
  | halt => exact (goes rfl).elim
  | _ => exact run

theorem keeps_running (symbols : SymbolTable) {o : Opcode}
    (goes : o ≠ .halt ∧ o ≠ .ldf ∧ o ≠ .cons ∧ o ≠ .ldr)
    (work : (typing turns).Keeps w (fun w' r' => w'.Ready r') (execute r o)) :
    (typing turns).Keeps w (fun w' o' => w'.Left (.op o) o') (dispatch symbols r (.op o)) := by
  refine keeps_executed symbols goes.1 (work.mono fun w' r' _ ready => ⟨ready, fun v _ => ?_⟩)
  cases o with
  | ldf => exact (goes.2.1 rfl).elim
  | cons => exact (goes.2.2.1 rfl).elim
  | ldr => exact (goes.2.2.2 rfl).elim
  | _ => trivial

/-- The closure that an instruction makes is on top of the stack that it leaves. -/
theorem keeps_closure (symbols : SymbolTable) {code : Value} (role : Role)
    (closure : role = .closure ∨ role = .hidden) (word : w.Spells [v] code r.code)
    (admits : w.Typed → w.Admits role ⟨v, r.env⟩)
    (ready : ∀ w' f, w.Moves (fun _ _ => False) w' → w'.Has role f v r.env →
      keeping.Keeps w' (fun w' r' => w'.Ready r' ∧ w'.heap.carOf? r'.stack = some f)
        (push f { r with code })) :
    keeping.Keeps w (fun w' o => w'.Left (.op .ldf) o) (dispatch symbols r (.op .ldf)) := by
  obtain ⟨_, has, rfl⟩ := word
  refine keeps_executed symbols (by decide) ?_
  refine keeps_look_bind (operand_eq has) fun _ => ?_
  refine (keeps_cons role admits).bind fun w₁ f moves₁ made => ?_
  refine (ready w₁ f moves₁ made).mono fun w₂ r₂ moves₂ both => ⟨both.1, fun v top => ?_⟩
  obtain rfl : f = v := Option.some.inj (both.2.symm.trans top)
  cases f with
  | pair a => exact (made.made closure rfl).mono moves₂.le
  | _ => trivial

theorem keeps_single (symbols : SymbolTable) {o : Opcode} {k : Value}
    (goes : o ≠ .halt ∧ o ≠ .ldf ∧ o ≠ .cons ∧ o ≠ .ldr) (words : w.Spells [.op o] k r.code)
    (work : (typing turns).Keeps w (fun w' r' => w'.Ready r') (execute { r with code := k } o)) :
    ∃ i, w.heap.carOf? r.code = some i ∧
      (typing turns).Keeps w (fun w' o => w'.Left i o) (step symbols r) := by
  obtain ⟨_, has, rfl⟩ := words
  exact ⟨_, keeps_fetched symbols has (keeps_running symbols goes work)⟩

/-- A call may turn the cells of the argument list that is under the function. -/
theorem World.turns_of_call {o : Opcode} (fetched : w.heap.carOf? r.code = some (.op o))
    (call : o = .ap ∨ o = .rap) (list : Value) (a : Addr) (role : Role)
    (second : second? w.heap r = some list) (inside : w.heap.InList list a) :
    w.Turns r a role := by
  refine .inr ⟨list, ?_, inside⟩
  rw [arguments?, fetched]
  rcases call with rfl | rfl <;> exact second

/-- Checked code does its next instruction. -/
theorem keeps_checked (symbols : SymbolTable) {shape : Shape} (meets : w.Meets [] shape r)
    (code : w.Code shape r.code)
    (made : w.heap.carOf? r.code = some (.op .ap) →
      ∀ a, w.heap.carOf? r.stack = some (.pair a) → w.Made a) :
    ∃ i, w.heap.carOf? r.code = some i ∧
      (typing (w.Turns r)).Keeps w (fun w' o => w'.Left i o) (step symbols r) := by
  cases code with
  | @nil _ s _ _ _ _ next words =>
    have fits : w.Fits s [] .nil := by
      cases s with
      | value => exact ⟨rfl, World.visible_of_isPair rfl⟩
      | list => exact rfl
    exact keeps_single symbols (by decide) words (keeps_of_keeping
      ((keeps_result (meets.withCode _) fits next).mono fun _ _ _ => And.left))
  | ldc next visible words =>
    obtain ⟨u, has, _, has', rfl⟩ := words
    refine ⟨_, keeps_fetched symbols has (keeps_running symbols (by decide) ?_)⟩
    refine keeps_look_bind (operand_eq (r := { r with code := u }) has') fun _ => ?_
    exact keeps_of_keeping ((keeps_value (meets.withCode _) visible next).mono
      fun _ _ _ => And.left)
  | load loads next place words =>
    obtain ⟨u, has, _, has', rfl⟩ := words
    cases loads with
    | plain | global =>
      exact ⟨_, keeps_fetched symbols has (keeps_running symbols (by decide)
        (keeps_of_keeping (keeps_lookup (meets.withCode u) place has' next)))⟩
    | rest =>
      exact ⟨_, keeps_fetched symbols has (keeps_executed symbols (by decide)
        (keeps_of_keeping (keeps_lookupRest (meets.withCode u) place has' next)))⟩
  | st assigns next place words =>
    obtain ⟨u, has, _, has', rfl⟩ := words
    refine ⟨_, keeps_fetched symbols has (keeps_running symbols (by decide) ?_)⟩
    exact keeps_of_keeping
      (keeps_machineStore (meets.withCode u) assigns place has' next)
  | cons next words =>
    obtain ⟨u, has, rfl⟩ := words
    refine ⟨_, keeps_fetched symbols has (keeps_executed symbols (by decide) ?_)⟩
    exact keeps_cons_op (meets.withCode _) next fun _ => .inl rfl
  | builtin b next words =>
    obtain ⟨u, has, rfl⟩ := words
    refine ⟨_, keeps_fetched symbols has ?_⟩
    exact keeps_of_keeping ((keeps_applyBuiltin symbols b (meets.withCode _) next).bind
      fun _ _ _ left => keeps_pure left)
  | sel first second next words =>
    obtain ⟨u, has, rest⟩ := words
    refine ⟨_, keeps_fetched symbols has (keeps_running symbols (by decide) ?_)⟩
    exact keeps_of_keeping
      (keeps_select (meets.withCode u) rest first second next)
  | join words =>
    exact keeps_single symbols (by decide) words (keeps_of_keeping (keeps_join (meets.withCode _)))
  | @ldf sc frame _ _ _ _ _ body next words =>
    obtain ⟨u, has, rest⟩ := words
    refine ⟨_, keeps_fetched symbols has ?_⟩
    have admits (typed : w.Typed) : w.Admits .closure ⟨_, r.env⟩ :=
      ⟨body.visible, typed.visible_env meets.frames, frame, sc, meets.frames, body⟩
    refine keeps_of_keeping (keeps_closure (r := { r with code := u }) symbols .closure (.inl rfl)
      rest admits fun w₁ f moves made => ?_)
    exact keeps_value ((meets.later moves).withCode _) (made.visible trivial)
      (next.mono moves.le)
  | ap next words =>
    have fetched := words.carOf?
    exact keeps_single symbols (by decide) words (keeps_apply (meets.withCode _) next (made fetched)
      (World.turns_of_call (r := r) fetched (.inl rfl)))
  | rtn words =>
    exact keeps_single symbols (by decide) words (keeps_of_keeping (keeps_leave (meets.withCode _)))
  | dum next words =>
    exact keeps_single symbols (by decide) words
      (keeps_of_keeping (keeps_dum (meets.withCode _) next))
  | rap body next words =>
    obtain ⟨u, has, _, has', rest⟩ := words
    refine ⟨_, keeps_fetched symbols has ?_⟩
    refine keeps_of_keeping (keeps_closure (r := { r with code := u }) symbols .hidden (.inr rfl)
      ⟨_, has', rfl⟩ (fun _ => trivial) fun w₁ f moves made => ?_)
    refine (keeps_push f _).mono ?_
    rintro w₂ r₂ moves₂ ⟨stack, rfl, top⟩
    have moves := moves.trans moves₂
    have meets := (meets.later moves).bound
    exact ⟨.binding top (made.mono moves₂.le trivial) (meets.withCode _) (body.mono moves.le)
      (next.mono moves.le) (rest.mono moves.le), top.carOf?⟩
  | halt words =>
    obtain ⟨u, has, rfl⟩ := words
    obtain ⟨_, own, _, operands, _⟩ := meets
    exact ⟨_, keeps_fetched symbols has (keeps_pure ⟨own, operands⟩)⟩

/-- An instruction of checked code only runs into ordinary failures, if it applies no other pair
than a closure. -/
theorem keeps_step (symbols : SymbolTable) (ready : w.Ready r)
    (made : w.heap.carOf? r.code = some (.op .ap) →
      ∀ a, w.heap.carOf? r.stack = some (.pair a) → w.Made a) :
    ∃ i, w.heap.carOf? r.code = some i ∧
      (typing (w.Turns r)).Keeps w (fun w' o => w'.Left i o) (step symbols r) := by
  cases ready with
  | running meets code => exact keeps_checked symbols meets code made
  | binding top closure meets checked next words =>
    exact keeps_single symbols (by decide) words (keeps_applyRecursive
      (r := { r with code := _ }) top closure (meets.withCode _) checked next
      (World.turns_of_call (r := r) words.carOf? (.inr rfl)))
  | calling meets first second listed next =>
    refine ⟨_, keeps_fetched symbols first (keeps_running symbols (by decide) ?_)⟩
    refine keeps_look_bind (operand_eq (r := { r with code := _ }) second) fun _ => ?_
    exact keeps_of_keeping ((keeps_result (s := .list) (meets.withCode _) listed
      next).mono fun _ _ _ => And.left)

/-- Where checked code halts, the stack has one value, the dump is empty, and the environment is
the global one. -/
theorem World.Ready.halts (ready : w.Ready r) (halt : w.heap.carOf? r.code = some (.op .halt)) :
    (∃ a v, r.stack = .pair a ∧ w.heap.cell a = ⟨v, .nil⟩) ∧ r.dump = .nil ∧ r.env = w.root := by
  have other {i : Value} {words : List Value} {k : Value} (spelled : w.Spells (i :: words) k r.code)
      (ne : i ≠ .op .halt) : False :=
    ne (Option.some.inj (spelled.carOf?.symm.trans halt))
  obtain ⟨stack, env, code, dump⟩ := r
  cases ready with
  | running meets code =>
    cases code with
    | halt words =>
      obtain ⟨frames, own, below, operands, dump, _⟩ := meets
      cases operands with
      | cons top _ rest =>
        obtain ⟨a, eq, _, _, cell⟩ := top
        cases rest
        cases dump
        exact ⟨⟨a, _, eq, cell⟩, rfl, frames⟩
    | load loads _ _ words => exact (other words (by cases loads <;> nofun)).elim
    | nil _ words | ldc _ _ words | st _ _ _ words | cons _ words | builtin _ _ words
    | sel _ _ _ words | join words | ldf _ _ words | ap _ words | rtn words | dum _ words
    | rap _ _ words => exact (other words nofun).elim
  | binding _ _ _ _ _ words => exact (other words nofun).elim
  | calling _ first =>
    have eq := first.carOf?.symm.trans halt
    cases eq

end Discipline

end SecdLisp
