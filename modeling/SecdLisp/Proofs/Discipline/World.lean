import SecdLisp.Builtin
import SecdLisp.Proofs.Compiling
import SecdLisp.Proofs.Graph

/-!
# What the cells of a heap are for

Each cell has a role that it keeps, except that the cells of an argument list become those of a frame
once the list is put together. Data, code and closures never change, and neither do the cells of
stacks and dumps. Of a frame, as many cells are assigned to as there are names for single values; the
rest of it never changes. A cell of an environment may be given another frame. What a program can see
never leads to a stack, to a dump, or to a list that is not put together yet. With the roles, code can
be checked: which operands it takes, which frames are around it, and what it expects on the dump.
-/

namespace SecdLisp

namespace Discipline

open Compile

/-- How many cells of a frame can be assigned; there is no limit to a global frame. -/
abbrev Extent := Option Nat

/-- What is left of it behind that many cells. -/
def Extent.behind (k : Extent) (n : Nat) : Extent := k.map (· - n)

def Extent.ofDepth (scopes : List Frame) (depth : Nat) : Extent :=
  (scopes[depth - 1]?).map Frame.extent

inductive Role where
  /-- Data, or code. -/
  | plain
  /-- A closure, to be applied to its arguments. -/
  | closure
  /-- A cell of a stack or of a dump, the closure of a recursive binding, or the start of a call to a
  macro. -/
  | hidden
  /-- A cell of an argument list that is put together. -/
  | pending
  /-- A cell of a frame, and how many can be assigned from it on. -/
  | frame (extent : Extent)
  /-- A cell of an environment, and the extent of its frame. -/
  | holder (extent : Extent)
  deriving DecidableEq

/-- Cells with that role never change. -/
def Role.Fixed : Role → Prop
  | .plain | .closure | .hidden | .frame (some 0) => True
  | _ => False

/-- Cells with that role hold what they held from the start. -/
def Role.Kept (role : Role) : Prop := role.Fixed ∨ role = .pending

/-- A program may come across cells with that role. -/
def Role.Shown : Role → Prop
  | .hidden | .pending => False
  | _ => True

/-- A heap, the global environment in it, and the roles of its cells. -/
structure World where
  heap : Heap
  root : Value
  role : Addr → Role

namespace World

def Has (w : World) (role : Role) (v car cdr : Value) : Prop :=
  ∃ a, v = .pair a ∧ a < w.heap.size ∧ w.role a = role ∧ w.heap.cell a = ⟨car, cdr⟩

/-- A value that a program may come across. -/
def Visible (w : World) (v : Value) : Prop :=
  ∀ a, v = .pair a → a < w.heap.size ∧ (w.role a).Shown

def Framed (w : World) (k : Extent) (v : Value) : Prop :=
  v = .nil ∨ ∃ a, v = .pair a ∧ a < w.heap.size ∧ w.role a = .frame k

/-- An argument list that is put together, and its cells. -/
def Listed (w : World) : List Addr → Value → Prop
  | [], v => v = .nil
  | a :: own, v => v = .pair a ∧ a < w.heap.size ∧ w.role a = .pending ∧ w.Listed own (w.heap.cdr a)

/-- An operand, and the cells that nothing else leads to. -/
def Fits (w : World) : Compile.Slot → List Addr → Value → Prop
  | .value, own, v => own = [] ∧ w.Visible v
  | .list, own, v => w.Listed own v

/-- Frames with these names on top of the global environment. -/
def Env (w : World) : List Frame → Value → Prop
  | [], v => v = w.root
  | frame :: scopes, v => ∃ a, v = .pair a ∧ a < w.heap.size ∧
    w.role a = .holder (some frame.extent) ∧ w.Env scopes (w.heap.cdr a)

/-- Words in front of other code. -/
def Spells (w : World) : (words : List Value) → (rest code : Value) → Prop
  | [], k, v => v = k
  | word :: words, k, v => ∃ u, w.Has .plain v word u ∧ w.Spells words k u

/-- An index may be used with a frame of that extent: a rest parameter comes right behind the cells
that can be assigned. -/
def Reaches (k : Extent) (index : Nat) : Spot → Prop
  | .own ⟨_, _, .rest _⟩ => k = some (index - 1)
  | _ => ∀ n ∈ k, index ≤ n

def Address (w : World) (scopes : List Frame) (spot : Spot) (v : Value) : Prop :=
  ∃ depth index : Nat, w.Has .plain v (.int (Int64.ofNat depth)) (.int (Int64.ofNat index)) ∧
    (0 < depth ∧ 0 < index) ∧ (depth < 2 ^ 63 ∧ index < 2 ^ 63) ∧ depth ≤ scopes.length + 2 ∧
    Reaches (Extent.ofDepth scopes depth) index spot

/-- Code that keeps to the discipline where it finds what its shape says. -/
inductive Code (w : World) : Shape → Value → Prop where
  | nil {sc s ops due v k} (next : Code w ⟨sc, s :: ops, due⟩ k) (words : w.Spells [.op .nil] k v) :
    Code w ⟨sc, ops, due⟩ v
  | ldc {sc ops due u v k} (next : Code w ⟨sc, .value :: ops, due⟩ k) (visible : w.Visible u)
    (words : w.Spells [.op .ldc, u] k v) : Code w ⟨sc, ops, due⟩ v
  | load {sc ops due u v k} {spot : Spot} {o : Opcode} (loads : spot.Loads o)
    (next : Code w ⟨sc, .value :: ops, due⟩ k) (place : w.Address sc spot u)
    (words : w.Spells [.op o, u] k v) : Code w ⟨sc, ops, due⟩ v
  | st {sc ops due u v k} {spot : Spot} (assigns : spot.Assigns)
    (next : Code w ⟨sc, .value :: ops, due⟩ k) (place : w.Address sc spot u)
    (words : w.Spells [.op .st, u] k v) : Code w ⟨sc, .value :: ops, due⟩ v
  | cons {sc ops due s v k} (next : Code w ⟨sc, s :: ops, due⟩ k)
    (words : w.Spells [.op .cons] k v) : Code w ⟨sc, .value :: .list :: ops, due⟩ v
  | builtin {sc ops due v k} (b : Builtin) (next : Code w ⟨sc, .value :: ops, due⟩ k)
    (words : w.Spells [.ident b.symbol] k v) :
    Code w ⟨sc, List.replicate b.arity .value ++ ops, due⟩ v
  | sel {sc ops due c d v k} (first : Code w ⟨sc, ops, .join sc (.value :: ops) due⟩ c)
    (second : Code w ⟨sc, ops, .join sc (.value :: ops) due⟩ d)
    (next : Code w ⟨sc, .value :: ops, due⟩ k) (words : w.Spells [.op .sel, c, d] k v) :
    Code w ⟨sc, .value :: ops, due⟩ v
  | join {sc ops due v} (words : w.Spells [.op .join] .nil v) : Code w ⟨sc, ops, .join sc ops due⟩ v
  | ldf {sc frame ops due u v k} (body : Code w ⟨frame :: sc, [], .call⟩ u)
    (next : Code w ⟨sc, .value :: ops, due⟩ k) (words : w.Spells [.op .ldf, u] k v) :
    Code w ⟨sc, ops, due⟩ v
  | ap {sc ops due v k} (next : Code w ⟨sc, .value :: ops, due⟩ k) (words : w.Spells [.op .ap] k v) :
    Code w ⟨sc, .value :: .list :: ops, due⟩ v
  | rtn {sc v} (words : w.Spells [.op .rtn] .nil v) : Code w ⟨sc, [.value], .call⟩ v
  | dum {sc frame ops due v k} (next : Code w ⟨frame :: sc, ops, .recursion frame sc ops due⟩ k)
    (words : w.Spells [.op .dum] k v) : Code w ⟨sc, ops, due⟩ v
  /-- A recursive binding enters its body in the environment that its values were made in. -/
  | rap {sc frame ops due u v k} (body : Code w ⟨frame :: sc, [], .call⟩ u)
    (next : Code w ⟨sc, .value :: ops, due⟩ k) (words : w.Spells [.op .ldf, u, .op .rap] k v) :
    Code w ⟨frame :: sc, .list :: ops, .recursion frame sc ops due⟩ v
  | halt {v} (words : w.Spells [.op .halt] .nil v) : Code w ⟨[], [.value], .nothing⟩ v

/-- The operands that a stack holds, the top one first, and their own cells. -/
inductive Stack (w : World) : List Compile.Slot → List Addr → Value → Prop where
  | nil : Stack w [] [] .nil
  | cons {s ops own below u rest v} (top : w.Has .hidden v u rest) (fits : w.Fits s own u)
    (others : Stack w ops below rest) : Stack w (s :: ops) (own ++ below) v

/-- A dump with what is expected on it. Each caller left its stack, environment and code. -/
inductive Dump (w : World) : Pending → List Addr → Value → Prop where
  | nothing : Dump w .nothing [] .nil
  | call {sc ops due own below stack env code dump v u t} (first : w.Has .hidden v stack u)
    (second : w.Has .hidden u env t) (third : w.Has .hidden t code dump)
    (operands : w.Stack ops own stack) (frames : w.Env sc env)
    (next : w.Code ⟨sc, .value :: ops, due⟩ code) (rest : Dump w due below dump) :
    Dump w .call (own ++ below) v
  | join {sc ops due below code dump v} (first : w.Has .hidden v code dump)
    (next : w.Code ⟨sc, ops, due⟩ code) (rest : Dump w due below dump) :
    Dump w (.join sc ops due) below v
  | recursion {frame sc ops due below v} (rest : Dump w due below v) :
    Dump w (.recursion frame sc ops due) below v

/-- What a cell with that role may hold. -/
def Admits (w : World) : Role → Cell → Prop
  | .plain, c => w.Visible c.car ∧ w.Visible c.cdr
  | .closure, c => w.Visible c.car ∧ w.Visible c.cdr ∧
    ∃ frame scopes, w.Env scopes c.cdr ∧ w.Code ⟨frame :: scopes, [], .call⟩ c.car
  | .hidden, _ => True
  | .pending, c => w.Visible c.car
  | .frame k, c => w.Visible c.car ∧ w.Framed (k.behind 1) c.cdr
  | .holder k, c => w.Framed k c.car ∧ w.Visible c.cdr

/-- Every cell holds what its role admits, and the global environment has its two frames. -/
structure Typed (w : World) : Prop where
  cells : ∀ a < w.heap.size, w.Admits (w.role a) (w.heap.cell a)
  root : ∃ a b, w.root = .pair a ∧ (a < w.heap.size ∧ w.role a = .holder none) ∧
    w.heap.cdr a = .pair b ∧ b < w.heap.size ∧ w.role b = .holder none

variable {w w' w'' : World} {scopes : List Frame} {shape : Shape} {ops : List Compile.Slot}
  {own : List Addr} {due : Pending} {s : Compile.Slot} {spot : Spot} {extent : Extent}
  {u v k : Value} {role : Role}

/-- Cells were added, frames changed, environments given other frames, and argument lists turned into
frames. -/
structure Le (w w' : World) : Prop where
  size : w.heap.size ≤ w'.heap.size
  capacity : w'.heap.capacity = w.heap.capacity
  root : w'.root = w.root
  role : ∀ a < w.heap.size, w.role a ≠ .pending → w'.role a = w.role a
  cdr : ∀ a < w.heap.size, ∀ k, w.role a = .holder k → w'.heap.cdr a = w.heap.cdr a
  cell : ∀ a < w.heap.size, (w'.role a).Kept → w'.heap.cell a = w.heap.cell a

theorem Le.refl (w : World) : w.Le w :=
  ⟨Nat.le_refl _, rfl, rfl, fun _ _ _ => rfl, fun _ _ _ _ => rfl, fun _ _ _ => rfl⟩

theorem ne_pending_of_fixed (fixed : role.Fixed) : role ≠ .pending := by
  rintro rfl
  exact fixed

theorem Le.kept (le : w.Le w') {a : Addr} (lt : a < w.heap.size) (kept : (w'.role a).Kept) :
    (w.role a).Kept := by
  by_cases pending : w.role a = .pending
  · exact .inr pending
  · exact le.role a lt pending ▸ kept

theorem Le.trans (first : w.Le w') (second : w'.Le w'') : w.Le w'' where
  size := Nat.le_trans first.size second.size
  capacity := second.capacity.trans first.capacity
  root := second.root.trans first.root
  role a lt kept := by
    have same := first.role a lt kept
    rw [second.role a (Nat.lt_of_lt_of_le lt first.size) (same ▸ kept), same]
  cdr a lt k holder := by
    have same := first.role a lt (by rw [holder]; nofun)
    rw [second.cdr a (Nat.lt_of_lt_of_le lt first.size) k (same.trans holder),
      first.cdr a lt k holder]
  cell a lt kept := by
    have lt' := Nat.lt_of_lt_of_le lt first.size
    rw [second.cell a lt' kept, first.cell a lt (second.kept lt' kept)]

theorem Le.fixed (le : w.Le w') {a : Addr} (lt : a < w.heap.size) (fixed : (w.role a).Fixed) :
    w'.role a = w.role a ∧ w'.heap.cell a = w.heap.cell a := by
  have same := le.role a lt (ne_pending_of_fixed fixed)
  exact ⟨same, le.cell a lt (.inl (same ▸ fixed))⟩

theorem Has.mono {car cdr : Value} (has : w.Has role v car cdr) (le : w.Le w')
    (fixed : role.Fixed) : w'.Has role v car cdr := by
  obtain ⟨a, rfl, lt, rfl, cell⟩ := has
  obtain ⟨same, kept⟩ := le.fixed lt fixed
  exact ⟨a, rfl, Nat.lt_of_lt_of_le lt le.size, same, kept.trans cell⟩

theorem Visible.mono (visible : w.Visible v) (le : w.Le w') : w'.Visible v := by
  intro a eq
  obtain ⟨lt, shown⟩ := visible a eq
  have kept : w.role a ≠ .pending := fun pending => by rw [pending] at shown; exact shown
  exact ⟨Nat.lt_of_lt_of_le lt le.size, le.role a lt kept ▸ shown⟩

theorem Framed.mono (framed : w.Framed extent v) (le : w.Le w') : w'.Framed extent v := by
  rcases framed with rfl | ⟨a, rfl, lt, role⟩
  · exact .inl rfl
  · exact .inr ⟨a, rfl, Nat.lt_of_lt_of_le lt le.size,
      (le.role a lt (by rw [role]; nofun)).trans role⟩

theorem Listed.mono (listed : w.Listed own v) (le : w.Le w')
    (kept : ∀ a ∈ own, w'.role a = .pending) : w'.Listed own v := by
  induction own generalizing v with
  | nil => exact listed
  | cons a own ih =>
    obtain ⟨rfl, lt, _, rest⟩ := listed
    rw [List.forall_mem_cons] at kept
    have same : w'.heap.cdr a = w.heap.cdr a :=
      congrArg Cell.cdr (le.cell a lt (.inr kept.1))
    exact ⟨rfl, Nat.lt_of_lt_of_le lt le.size, kept.1, same ▸ ih rest kept.2⟩

theorem Fits.mono (fits : w.Fits s own v) (le : w.Le w') (kept : ∀ a ∈ own, w'.role a = .pending) :
    w'.Fits s own v := by
  cases s with
  | value => exact ⟨fits.1, fits.2.mono le⟩
  | list => exact Listed.mono fits le kept

theorem Env.mono (env : w.Env scopes v) (le : w.Le w') : w'.Env scopes v := by
  induction scopes generalizing v with
  | nil => exact env.trans le.root.symm
  | cons frame scopes ih =>
    obtain ⟨a, rfl, lt, role, rest⟩ := env
    refine ⟨a, rfl, Nat.lt_of_lt_of_le lt le.size, ?_, ?_⟩
    · exact (le.role a lt (by rw [role]; nofun)).trans role
    · rw [le.cdr a lt _ role]
      exact ih rest

theorem Spells.mono {words : List Value} (spells : w.Spells words k v) (le : w.Le w') :
    w'.Spells words k v := by
  induction words generalizing v with
  | nil => exact spells
  | cons word words ih =>
    obtain ⟨u, here, rest⟩ := spells
    exact ⟨u, here.mono le trivial, ih rest⟩

theorem Address.mono (place : w.Address scopes spot v) (le : w.Le w') : w'.Address scopes spot v := by
  obtain ⟨depth, index, has, bounds⟩ := place
  exact ⟨depth, index, has.mono le trivial, bounds⟩

theorem Code.mono (code : w.Code shape v) (le : w.Le w') : w'.Code shape v := by
  induction code with
  | nil _ words next => exact .nil next (words.mono le)
  | ldc _ visible words next => exact .ldc next (visible.mono le) (words.mono le)
  | load loads _ place words next => exact .load loads next (place.mono le) (words.mono le)
  | st assigns _ place words next => exact .st assigns next (place.mono le) (words.mono le)
  | cons _ words next => exact .cons next (words.mono le)
  | builtin b _ words next => exact .builtin b next (words.mono le)
  | sel _ _ _ words first second next => exact .sel first second next (words.mono le)
  | join words => exact .join (words.mono le)
  | ldf _ _ words body next => exact .ldf body next (words.mono le)
  | ap _ words next => exact .ap next (words.mono le)
  | rtn words => exact .rtn (words.mono le)
  | dum _ words next => exact .dum next (words.mono le)
  | rap _ _ words body next => exact .rap body next (words.mono le)
  | halt words => exact .halt (words.mono le)

theorem Stack.mono (stack : w.Stack ops own v) (le : w.Le w')
    (kept : ∀ a ∈ own, w'.role a = .pending) : w'.Stack ops own v := by
  induction stack with
  | nil => exact .nil
  | cons top fits _ ih =>
    rw [List.forall_mem_append] at kept
    exact .cons (top.mono le trivial) (fits.mono le kept.1) (ih kept.2)

theorem Dump.mono (dump : w.Dump due own v) (le : w.Le w')
    (kept : ∀ a ∈ own, w'.role a = .pending) : w'.Dump due own v := by
  induction dump with
  | nothing => exact .nothing
  | call first second third operands frames next _ ih =>
    rw [List.forall_mem_append] at kept
    exact .call (first.mono le trivial) (second.mono le trivial) (third.mono le trivial)
      (operands.mono le kept.1) (frames.mono le) (next.mono le) (ih kept.2)
  | join first next _ ih => exact .join (first.mono le trivial) (next.mono le) (ih kept)
  | recursion _ ih => exact .recursion (ih kept)

theorem Admits.mono {c : Cell} (admits : w.Admits role c) (le : w.Le w') : w'.Admits role c := by
  cases role with
  | plain => exact ⟨admits.1.mono le, admits.2.mono le⟩
  | closure =>
    obtain ⟨car, cdr, frame, scopes, env, body⟩ := admits
    exact ⟨car.mono le, cdr.mono le, frame, scopes, env.mono le, body.mono le⟩
  | hidden => exact trivial
  | pending => exact Visible.mono admits le
  | frame => exact ⟨admits.1.mono le, admits.2.mono le⟩
  | holder => exact ⟨admits.1.mono le, admits.2.mono le⟩

theorem visible_of_isPair (atom : v.isPair = false) : w.Visible v := by
  rintro a rfl
  cases atom

theorem Framed.visible (framed : w.Framed extent v) : w.Visible v := by
  rcases framed with rfl | ⟨a, rfl, lt, role⟩
  · exact visible_of_isPair rfl
  · intro b eq
    cases eq
    exact ⟨lt, by rw [role]; trivial⟩

theorem Has.visible {car cdr : Value} (has : w.Has role v car cdr) (shown : role.Shown) :
    w.Visible v := by
  obtain ⟨a, rfl, lt, rfl, _⟩ := has
  intro b eq
  cases eq
  exact ⟨lt, shown⟩

theorem Spells.visible {words : List Value} (spells : w.Spells words k v) (rest : w.Visible k) :
    w.Visible v := by
  cases words with
  | nil => exact spells ▸ rest
  | cons => exact spells.choose_spec.1.visible trivial

theorem Address.visible (place : w.Address scopes spot v) : w.Visible v := by
  obtain ⟨_, _, has, _⟩ := place
  exact has.visible trivial

theorem Code.visible (code : w.Code shape v) : w.Visible v := by
  cases code <;> next words => exact words.choose_spec.1.visible trivial

theorem Code.isPair (code : w.Code shape v) : v.isPair = true := by
  cases code <;>
    next words =>
      obtain ⟨_, ⟨_, rfl, _⟩, _⟩ := words
      rfl

/-- What a program can see leads only to what it can see. -/
theorem Typed.halves (typed : w.Typed) {a : Addr} (visible : w.Visible (.pair a)) :
    w.Visible (w.heap.car a) ∧ w.Visible (w.heap.cdr a) := by
  obtain ⟨lt, shown⟩ := visible a rfl
  have cell := typed.cells a lt
  cases role : w.role a with
  | hidden | pending =>
    rw [role] at shown
    exact shown.elim
  | plain =>
    rw [role] at cell
    exact cell
  | closure =>
    rw [role] at cell
    exact ⟨cell.1, cell.2.1⟩
  | frame =>
    rw [role] at cell
    exact ⟨cell.1, cell.2.visible⟩
  | holder =>
    rw [role] at cell
    exact ⟨cell.1.visible, cell.2⟩

theorem Typed.visible_root (typed : w.Typed) : w.Visible w.root := by
  obtain ⟨a, b, eq, ⟨lt, role⟩, _⟩ := typed.root
  intro c eq'
  obtain rfl : a = c := Value.pair.inj (eq.symm.trans eq')
  exact ⟨lt, by rw [role]; trivial⟩

theorem Typed.visible_env (typed : w.Typed) (env : w.Env scopes v) : w.Visible v := by
  cases scopes with
  | nil => exact env ▸ typed.visible_root
  | cons frame scopes =>
    obtain ⟨a, rfl, lt, role, _⟩ := env
    intro b eq
    cases eq
    exact ⟨lt, by rw [role]; trivial⟩

end World

end Discipline

end SecdLisp
