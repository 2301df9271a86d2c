import SecdLisp.Machine.Run
import SecdLisp.Proofs.Discipline.Heap

/-!
# Registers for checked code

Registers meet a shape if they hold what code of that shape finds. The argument lists on the stack and
in the dump have no cell in common, so one of them can become a frame while the others stay what they
are.
-/

namespace SecdLisp

namespace Machine

def second? (h : Heap) (r : Registers) : Option Value := (h.cdrOf? r.stack).bind h.carOf?

def arguments? (h : Heap) (r : Registers) : Option Value :=
  match h.carOf? r.code with
  | some (.op .ap) | some (.op .rap) => second? h r
  | _ => none

end Machine

namespace Discipline

open Contract Compile Machine

namespace World

variable {w w' : World} {shape : Shape} {scopes : List Frame} {ops : List Compile.Slot}
  {own apart : List Addr} {due : Pending} {s : Compile.Slot} {u v k car cdr : Value} {role : Role}
  {r : Registers}

theorem Listed.pending (listed : w.Listed own v) :
    ∀ a ∈ own, a < w.heap.size ∧ w.role a = .pending := by
  induction own generalizing v with
  | nil => simp
  | cons a own ih =>
    obtain ⟨rfl, lt, role, rest⟩ := listed
    exact List.forall_mem_cons.mpr ⟨⟨lt, role⟩, ih rest⟩

theorem Fits.pending (fits : w.Fits s own v) : ∀ a ∈ own, a < w.heap.size ∧ w.role a = .pending := by
  cases s with
  | value =>
    obtain ⟨rfl, _⟩ := fits
    simp
  | list => exact Listed.pending fits

theorem Stack.pending (stack : w.Stack ops own v) :
    ∀ a ∈ own, a < w.heap.size ∧ w.role a = .pending := by
  induction stack with
  | nil => simp
  | cons _ fits _ ih => exact List.forall_mem_append.mpr ⟨fits.pending, ih⟩

theorem Dump.pending (dump : w.Dump due own v) :
    ∀ a ∈ own, a < w.heap.size ∧ w.role a = .pending := by
  induction dump with
  | nothing => simp
  | call _ _ _ operands _ _ _ ih => exact List.forall_mem_append.mpr ⟨operands.pending, ih⟩
  | join _ _ _ ih => exact ih
  | recursion _ ih => exact ih

theorem Moves.allKept (moves : w.Moves (fun _ _ => False) w')
    (pending : ∀ a ∈ own, a < w.heap.size ∧ w.role a = .pending) : ∀ a ∈ own, w'.role a = .pending :=
  fun a mem => moves.kept (pending a mem).1 (pending a mem).2

theorem Listed.later (listed : w.Listed own v) (moves : w.Moves (fun _ _ => False) w') :
    w'.Listed own v := listed.mono moves.le (moves.allKept listed.pending)

theorem Fits.later (fits : w.Fits s own v) (moves : w.Moves (fun _ _ => False) w') :
    w'.Fits s own v := fits.mono moves.le (moves.allKept fits.pending)

theorem Listed.inList (listed : w.Listed own v) : ∀ a ∈ own, w.heap.InList v a := by
  induction own generalizing v with
  | nil => simp
  | cons a own ih =>
    obtain ⟨rfl, _, _, rest⟩ := listed
    refine List.forall_mem_cons.mpr ⟨.head, fun b mem => ?_⟩
    exact (ih rest b mem).tail

/-- Registers in which code of that shape finds what it needs, while nothing there leads to the cells
that are apart. -/
structure Meets (w : World) (apart : List Addr) (shape : Shape) (r : Registers) : Prop where
  frames : w.Env shape.scopes r.env
  operands : ∃ own below, w.Stack shape.operands own r.stack ∧ w.Dump shape.due below r.dump ∧
    (apart ++ (own ++ below)).Nodup

theorem Meets.later (meets : w.Meets apart shape r) (moves : w.Moves (fun _ _ => False) w') :
    w'.Meets apart shape r := by
  obtain ⟨frames, own, below, stack, dump, nodup⟩ := meets
  exact ⟨frames.mono moves.le, own, below, stack.mono moves.le (moves.allKept stack.pending),
    dump.mono moves.le (moves.allKept dump.pending), nodup⟩

theorem Meets.withCode (meets : w.Meets apart shape r) (code : Value) :
    w.Meets apart shape { r with code } := ⟨meets.frames, meets.operands⟩

/-- A recursive binding leaves nothing on the dump. -/
theorem Meets.bound {frame : Frame} {scopes outer : List Frame} {ops below : List Compile.Slot}
    (meets : w.Meets apart ⟨scopes, ops, .recursion frame outer below due⟩ r) :
    w.Meets apart ⟨scopes, ops, due⟩ r := by
  obtain ⟨frames, own, below, operands, dump, nodup⟩ := meets
  cases dump with
  | recursion dump => exact ⟨frames, own, below, operands, dump, nodup⟩

theorem Meets.nodup (meets : w.Meets apart shape r) : apart.Nodup := by
  obtain ⟨_, own, below, _, _, nodup⟩ := meets
  exact nodup.of_append_left

theorem Meets.turned {n : Nat} (meets : w.Meets apart shape r) (turned : w.Turned apart n w') :
    w'.Meets [] shape r := by
  obtain ⟨frames, own, below, stack, dump, nodup⟩ := meets
  have distinct := List.disjoint_of_nodup_append nodup
  have kept {cells : List Addr} (sub : ∀ a ∈ cells, a ∈ own ++ below)
      (pending : ∀ a ∈ cells, a < w.heap.size ∧ w.role a = .pending) (a : Addr) (mem : a ∈ cells) :
      w'.role a = .pending :=
    (turned.apart a fun other => distinct other (sub a mem)).trans (pending a mem).2
  refine ⟨frames.mono turned.le, own, below, stack.mono turned.le (kept ?_ stack.pending),
    dump.mono turned.le (kept ?_ dump.pending), nodup.of_append_right⟩
  · exact fun a mem => List.mem_append_left below mem
  · exact fun a mem => List.mem_append_right own mem

theorem Meets.pop (meets : w.Meets [] ⟨scopes, s :: ops, due⟩ r) :
    ∃ own u stack, w.Has .hidden r.stack u stack ∧ w.Fits s own u ∧
      w.Meets own ⟨scopes, ops, due⟩ { r with stack } := by
  obtain ⟨frames, _, below, operands, dump, nodup⟩ := meets
  cases operands with
  | @cons _ _ own others u stack _ top fits rest =>
    refine ⟨own, u, stack, top, fits, frames, others, below, rest, dump, ?_⟩
    rwa [List.nil_append, List.append_assoc] at nodup

theorem Meets.pop_value (meets : w.Meets [] ⟨scopes, .value :: ops, due⟩ r) :
    ∃ u stack, w.Has .hidden r.stack u stack ∧ w.Visible u ∧
      w.Meets [] ⟨scopes, ops, due⟩ { r with stack } := by
  obtain ⟨own, u, stack, top, ⟨rfl, visible⟩, rest⟩ := meets.pop
  exact ⟨u, stack, top, visible, rest⟩

theorem Meets.push {stack : Value} (meets : w.Meets own ⟨scopes, ops, due⟩ r)
    (top : w.Has .hidden stack v r.stack) (fits : w.Fits s own v) :
    w.Meets [] ⟨scopes, s :: ops, due⟩ { r with stack } := by
  obtain ⟨frames, others, below, operands, dump, nodup⟩ := meets
  refine ⟨frames, own ++ others, below, .cons top fits operands, dump, ?_⟩
  rwa [List.nil_append, List.append_assoc]

/-- Registers that are ready to run checked code. A recursive binding has made its closure just
before it enters it; and a macro is called on an argument list that nothing else leads to. -/
inductive Ready (w : World) (r : Registers) : Prop where
  | running {shape : Shape} (meets : w.Meets [] shape r) (code : w.Code shape r.code)
  | binding {sc : List Frame} {frame : Frame} {ops : List Compile.Slot} {due : Pending}
    {f body stack k : Value} (top : w.Has .hidden r.stack f stack)
    (closure : w.Has .hidden f body r.env)
    (meets : w.Meets [] ⟨frame :: sc, .list :: ops, due⟩ { r with stack })
    (checked : w.Code ⟨frame :: sc, [], .call⟩ body) (next : w.Code ⟨sc, .value :: ops, due⟩ k)
    (words : w.Spells [.op .rap] k r.code)
  | calling {own : List Addr} {u list k : Value} (meets : w.Meets own ⟨[], [], .nothing⟩ r)
    (first : w.Has .hidden r.code (.op .ldc) u) (second : w.Has .hidden u list k)
    (listed : w.Listed own list) (next : w.Code ⟨[], [.list], .nothing⟩ k)

def Made (w : World) (a : Addr) : Prop :=
  a < w.heap.size ∧ (w.role a = .closure ∨ w.role a = .hidden)

theorem Made.mono {a : Addr} (made : w.Made a) (le : w.Le w') : w'.Made a := by
  refine ⟨Nat.lt_of_lt_of_le made.1 le.size, ?_⟩
  rw [le.role a made.1 (by rcases made.2 with role | role <;> rw [role] <;> nofun)]
  exact made.2

theorem Has.made (has : w.Has role v car cdr) (closure : role = .closure ∨ role = .hidden) {a : Addr}
    (eq : v = .pair a) : w.Made a := by
  obtain ⟨b, rfl, lt, rfl, _⟩ := has
  cases eq
  exact ⟨lt, closure⟩

theorem Typed.closure (typed : w.Typed) {a : Addr} (visible : w.Visible (.pair a))
    (made : w.Made a) : ∃ frame scopes, w.Env scopes (w.heap.cdr a) ∧
      w.Code ⟨frame :: scopes, [], .call⟩ (w.heap.car a) := by
  have closure : w.role a = .closure := by
    refine made.2.resolve_right fun hidden => ?_
    have shown := (visible a rfl).2
    rw [hidden] at shown
    exact shown
  have cell := typed.cells a made.1
  rw [closure] at cell
  exact cell.2.2

theorem Has.carOf? (has : w.Has role v u k) : w.heap.carOf? v = some u := by
  obtain ⟨a, rfl, _, _, cell⟩ := has
  simp [Heap.carOf?, Value.addr?, Heap.car, cell]

theorem Has.cdrOf? (has : w.Has role v u k) : w.heap.cdrOf? v = some k := by
  obtain ⟨a, rfl, _, _, cell⟩ := has
  simp [Heap.cdrOf?, Value.addr?, Heap.cdr, cell]

theorem Spells.carOf? {i : Value} {words : List Value} (spelled : w.Spells (i :: words) k v) :
    w.heap.carOf? v = some i := by
  obtain ⟨_, has, _⟩ := spelled
  exact has.carOf?

end World

variable {turns : Addr → Role → Prop} {w w' : World} {shape : Shape} {scopes : List Frame}
  {ops : List Compile.Slot} {own : List Addr} {due : Pending} {s : Compile.Slot} {spot : Spot}
  {u v k : Value} {role : Role} {r : Registers} {α : Type} {p : World → α → Prop}

theorem keeps_fault {f : Fault} (ordinary : f.Ordinary) :
    (typing turns).Keeps w p (throw (.fault f) : HeapM α) := keeps_throw ordinary

theorem split_eq (has : w.Has role v u k) (fault : Fault) :
    split v fault w.heap = .ok (u, k) w.heap := by
  obtain ⟨a, rfl, _, _, cell⟩ := has
  show EStateM.Result.ok ((w.heap.cell a).car, (w.heap.cell a).cdr) w.heap = _
  rw [cell]

theorem pop_eq (has : w.Has role r.stack v u) :
    pop r w.heap = .ok (v, { r with stack := u }) w.heap := by
  unfold pop
  rw [bind_eq_ok]
  exact ⟨_, _, split_eq has _, rfl⟩

theorem popDump_eq (has : w.Has role r.dump v u) :
    popDump r w.heap = .ok (v, { r with dump := u }) w.heap := by
  unfold popDump
  rw [bind_eq_ok]
  exact ⟨_, _, split_eq has _, rfl⟩

theorem operand_eq (has : w.Has role r.code v u) :
    operand r w.heap = .ok (v, { r with code := u }) w.heap := by
  unfold operand fetch
  rw [bind_eq_ok]
  exact ⟨_, _, split_eq has _, rfl⟩

theorem addressOperand_eq {code : Value} (place : w.Address scopes spot v)
    (has : w.Has role r.code v code) : ∃ depth index, (0 < depth ∧ 0 < index) ∧
      depth ≤ scopes.length + 2 ∧ World.Reaches (Extent.ofDepth scopes depth) index spot ∧
      addressOperand r w.heap = .ok ((depth, index), { r with code }) w.heap := by
  obtain ⟨depth, index, ⟨a, rfl, _, _, cell⟩, positive, few, le, reaches⟩ := place
  refine ⟨depth, index, positive, le, reaches, ?_⟩
  have spelled := address?_of_cell cell positive few
  unfold addressOperand
  rw [bind_eq_ok]
  refine ⟨_, _, operand_eq has, ?_⟩
  rw [bind_eq_ok]
  refine ⟨_, _, rfl, ?_⟩
  dsimp only
  rw [spelled]
  rfl

theorem keeps_push (v : Value) (r : Registers) :
    keeping.Keeps w (fun w' r' => ∃ stack, r' = { r with stack } ∧ w'.Has .hidden stack v r.stack)
      (push v r) :=
  (keeps_cons .hidden fun _ => trivial).bind fun _ stack _ has => keeps_pure ⟨stack, rfl, has⟩

theorem keeps_result (meets : w.Meets own ⟨scopes, ops, due⟩ r) (fits : w.Fits s own v)
    (code : w.Code ⟨scopes, s :: ops, due⟩ r.code) :
    keeping.Keeps w (fun w' r' => w'.Ready r' ∧ w'.heap.carOf? r'.stack = some v) (push v r) := by
  refine (keeps_push v r).mono ?_
  rintro w' r' moves ⟨stack, rfl, top⟩
  exact ⟨.running ((meets.later moves).push top (fits.later moves)) (code.mono moves.le), top.carOf?⟩

theorem keeps_value (meets : w.Meets [] ⟨scopes, ops, due⟩ r) (visible : w.Visible v)
    (code : w.Code ⟨scopes, .value :: ops, due⟩ r.code) :
    keeping.Keeps w (fun w' r' => w'.Ready r' ∧ w'.heap.carOf? r'.stack = some v) (push v r) :=
  keeps_result (s := .value) meets ⟨rfl, visible⟩ code

theorem keeps_enter {body env : Value} (meets : w.Meets [] ⟨scopes, ops, due⟩ r)
    (next : w.Code ⟨scopes, .value :: ops, due⟩ r.code) :
    keeping.Keeps w (fun w' r' => ∃ dump, r' = ⟨.nil, env, body, dump⟩ ∧
      ∃ below, w'.Dump .call below dump ∧ below.Nodup) (enter body env r.env r) := by
  unfold enter Heap.listWithTail
  simp only [List.foldrM_cons, List.foldrM_nil, pure_bind, bind_assoc]
  refine (keeps_cons .hidden fun _ => trivial).bind fun w₁ third moves₁ thirdHas => ?_
  refine (keeps_cons .hidden fun _ => trivial).bind fun w₂ second moves₂ secondHas => ?_
  refine (keeps_cons .hidden fun _ => trivial).bind fun w₃ first moves₃ firstHas => ?_
  have moves := (moves₁.trans moves₂).trans moves₃
  obtain ⟨frames, own, below, stack, dump, nodup⟩ := meets.later moves
  exact keeps_pure ⟨first, rfl, own ++ below, .call firstHas (secondHas.mono moves₃.le trivial)
    (thirdHas.mono (moves₂.trans moves₃).le trivial) stack frames (next.mono moves.le) dump, nodup⟩

theorem keeps_element (meets : w.Meets own shape r) (visible : w.Visible u)
    (listed : w.Listed own v) :
    keeping.Keeps w (fun w' v => ∃ a, v = .pair a ∧ w'.Listed (a :: own) v ∧
      w'.Meets (a :: own) shape r) (Heap.cons u v) := by
  refine (keeps_alloc .pending fun _ => visible).bind fun w' a moves ⟨fresh, has⟩ => keeps_pure ?_
  obtain ⟨_, eq, lt, role, cell⟩ := has
  cases eq
  have next : w'.heap.cdr a = v := congrArg Cell.cdr cell
  obtain ⟨frames, others, below, stack, dump, nodup⟩ := meets
  have new : a ∉ own ++ (others ++ below) := by
    intro mem
    refine Nat.not_lt.mpr fresh ?_
    rcases List.mem_append.mp mem with mem | mem
    · exact (listed.pending a mem).1
    rcases List.mem_append.mp mem with mem | mem
    · exact (stack.pending a mem).1
    · exact (dump.pending a mem).1
  refine ⟨a, rfl, ⟨rfl, lt, role, next ▸ listed.later moves⟩, frames.mono moves.le, others, below,
    stack.mono moves.le (moves.allKept stack.pending),
    dump.mono moves.le (moves.allKept dump.pending), List.nodup_cons.mpr ⟨new, nodup⟩⟩

end Discipline

end SecdLisp
