import SecdLisp.Proofs.Compiling
import SecdLisp.Proofs.Linking.Store

/-!
# What code refers to

A code list is walked through with the number of lexical frames that are around each instruction. An
address that lies deeper than these leads to a slot of a global frame. In linked code each of these
slots is one that a name has.
-/

namespace SecdLisp

namespace Linking

open Heap Contract Compile Machine

/-- The first half of a pair; nil if it is none. -/
def head (h : Heap) (v : Value) : Value := (h.carOf? v).getD .nil

def tail (h : Heap) (v : Value) : Value := (h.cdrOf? v).getD .nil

/-- The code that an instruction leads to: what follows it, and the lists that it takes. The code of a
closure has one more frame around it; the closure of a recursive binding shares the frame that was
put on before. -/
def parts (h : Heap) : Nat × Value → List (Nat × Value)
  | (frames, code) =>
    let rest := tail h code
    match head h code with
    | .op .ldc | .op .ld | .op .ldr | .op .st => [(frames, tail h rest)]
    | .op .sel =>
      [(frames, head h rest), (frames, head h (tail h rest)), (frames, tail h (tail h rest))]
    | .op .ldf =>
      if head h (tail h rest) = .op .rap then
        [(frames, head h rest), (frames - 1, tail h (tail h rest))]
      else [(frames + 1, head h rest), (frames, tail h rest)]
    | .op .dum => [(frames + 1, rest)]
    | _ => [(frames, rest)]

/-- One walks from some code to other code. -/
abbrev Leads (h : Heap) : Nat × Value → Nat × Value → Prop :=
  Relation.ReflTransGen fun c d => d ∈ parts h c

/-- Code for the global environment has the address of a slot of a global frame in it. -/
def Refers (h : Heap) (code : Value) (table : Table) (slot : Nat) : Prop :=
  ∃ frames v, Leads h (0, code) (frames, v) ∧
    (head h v = .op .ld ∨ head h v = .op .ldr ∨ head h v = .op .st) ∧
    address? h (head h (tail h v)) = some (frames + table.depth, slot)

/-- What a compilation has come to: its heap, and the names that have slots. -/
structure World where
  store : Store
  names : Table → List Symbol

namespace World

def Has (w : World) (v car cdr : Value) : Prop :=
  ∃ a, v = .pair a ∧ a < w.store.heap.size ∧ w.store.sealed a ∧ w.store.heap.cell a = ⟨car, cdr⟩

def Spells (w : World) : (words : List Value) → (rest code : Value) → Prop
  | [], k, v => v = k
  | word :: words, k, v => ∃ u, w.Has v word u ∧ w.Spells words k u

def Address (w : World) (frames : Nat) (v : Value) : Prop :=
  ∃ depth index : Nat, w.Has v (.int (Int64.ofNat depth)) (.int (Int64.ofNat index)) ∧
    depth < 2 ^ 63 ∧ (depth ≤ frames ∨
      ∃ table : Table, depth = frames + table.depth ∧ index ≤ (w.names table).length)

/-- An instruction without an operand, which leads to the code after it. -/
def Plain : Value → Prop
  | .op .nil | .op .cons | .op .ap | .ident _ => True
  | _ => False

/-- Code with that many lexical frames around it, whose global slots all belong to names. -/
inductive Linked (w : World) : Nat → Value → Prop where
  | last {n o v} (ends : o = .rtn ∨ o = .join ∨ o = .halt) (words : w.Spells [.op o] .nil v) :
    Linked w n v
  | plain {n i k v} (one : Plain i) (next : Linked w n k) (words : w.Spells [i] k v) : Linked w n v
  | ldc {n u k v} (next : Linked w n k) (words : w.Spells [.op .ldc, u] k v) : Linked w n v
  | address {n o u k v} (takes : o = .ld ∨ o = .ldr ∨ o = .st) (place : w.Address n u)
    (next : Linked w n k) (words : w.Spells [.op o, u] k v) : Linked w n v
  | sel {n c d k v} (first : Linked w n c) (second : Linked w n d) (next : Linked w n k)
    (words : w.Spells [.op .sel, c, d] k v) : Linked w n v
  | ldf {n c k v} (body : Linked w (n + 1) c) (next : Linked w n k)
    (words : w.Spells [.op .ldf, c] k v) : Linked w n v
  | dum {n k v} (next : Linked w (n + 1) k) (words : w.Spells [.op .dum] k v) : Linked w n v
  | rap {n c k v} (body : Linked w (n + 1) c) (next : Linked w n k)
    (words : w.Spells [.op .ldf, c, .op .rap] k v) : Linked w (n + 1) v

structure Le (w w' : World) : Prop where
  store : w.store.Le w'.store
  names : ∀ table, w.names table <+: w'.names table

variable {w w' : World} {n : Nat} {u v k car cdr : Value}

theorem Has.mono (has : w.Has v car cdr) (le : w.Le w') : w'.Has v car cdr := by
  obtain ⟨a, rfl, lt, sealed, cell⟩ := has
  exact ⟨a, rfl, Nat.lt_of_lt_of_le lt le.store.size, (le.store.sealed a lt).mpr sealed,
    (le.store.cell a lt sealed).trans cell⟩

theorem Spells.mono {words : List Value} (spells : w.Spells words k v) (le : w.Le w') :
    w'.Spells words k v := by
  induction words generalizing v with
  | nil => exact spells
  | cons word words ih =>
    obtain ⟨u, here, rest⟩ := spells
    exact ⟨u, here.mono le, ih rest⟩

theorem Address.mono (place : w.Address n v) (le : w.Le w') : w'.Address n v := by
  obtain ⟨depth, index, has, few, own | ⟨table, eq, known⟩⟩ := place
  · exact ⟨depth, index, has.mono le, few, .inl own⟩
  · exact ⟨depth, index, has.mono le, few,
      .inr ⟨table, eq, Nat.le_trans known (le.names table).length_le⟩⟩

theorem Linked.mono (linked : w.Linked n v) (le : w.Le w') : w'.Linked n v := by
  induction linked with
  | last ends words => exact .last ends (words.mono le)
  | plain one _ words next => exact .plain one next (words.mono le)
  | ldc _ words next => exact .ldc next (words.mono le)
  | address takes place _ words next =>
    exact .address takes (place.mono le) next (words.mono le)
  | sel _ _ _ words first second next => exact .sel first second next (words.mono le)
  | ldf _ _ words body next => exact .ldf body next (words.mono le)
  | dum _ words next => exact .dum next (words.mono le)
  | rap _ _ words body next => exact .rap body next (words.mono le)

theorem Has.head (has : w.Has v car cdr) : head w.store.heap v = car := by
  obtain ⟨a, rfl, _, _, cell⟩ := has
  show (w.store.heap.cell a).car = car
  rw [cell]

theorem Has.tail (has : w.Has v car cdr) : tail w.store.heap v = cdr := by
  obtain ⟨a, rfl, _, _, cell⟩ := has
  show (w.store.heap.cell a).cdr = cdr
  rw [cell]

theorem Linked.head_ne_rap (linked : w.Linked n v) : Linking.head w.store.heap v ≠ .op .rap := by
  cases linked with
  | last ends words =>
    obtain ⟨_, has, _⟩ := words
    rcases ends with rfl | rfl | rfl <;> simp [has.head]
  | plain one _ words =>
    obtain ⟨_, has, _⟩ := words
    rw [has.head]
    rintro rfl
    exact one
  | address takes _ _ words =>
    obtain ⟨_, has, _⟩ := words
    rcases takes with rfl | rfl | rfl <;> simp [has.head]
  | ldc _ words | sel _ _ _ words | ldf _ _ words | dum _ words | rap _ _ words =>
    obtain ⟨_, has, _⟩ := words
    simp [has.head]

theorem Linked.parts (linked : w.Linked n v) :
    ∀ c ∈ parts w.store.heap (n, v), c.2 = .nil ∨ w.Linked c.1 c.2 := by
  cases linked with
  | last ends words =>
    obtain ⟨_, has, rfl⟩ := words
    rcases ends with rfl | rfl | rfl <;> simp [Linking.parts, has.head, has.tail]
  | @plain _ i k _ one next words =>
    obtain ⟨u, has, eq⟩ := words
    obtain rfl : u = k := eq
    have same : Linking.parts w.store.heap (n, v) = [(n, u)] := by
      cases i with
      | op o => cases o <;> first | exact one.elim | simp [Linking.parts, has.head, has.tail]
      | ident name => simp [Linking.parts, has.head, has.tail]
      | _ => exact one.elim
    simp [same, next]
  | ldc next words =>
    obtain ⟨_, has, _, operand, rfl⟩ := words
    simp [Linking.parts, has.head, has.tail, operand.tail, next]
  | address takes _ next words =>
    obtain ⟨_, has, _, operand, rfl⟩ := words
    rcases takes with rfl | rfl | rfl <;>
      simp [Linking.parts, has.head, has.tail, operand.tail, next]
  | sel first second next words =>
    obtain ⟨_, has, _, one, _, two, rfl⟩ := words
    simp [Linking.parts, has.head, has.tail, one.head, one.tail, two.head, two.tail, first, second,
      next]
  | ldf body next words =>
    obtain ⟨_, has, _, operand, rfl⟩ := words
    simp [Linking.parts, has.head, has.tail, operand.head, operand.tail, next.head_ne_rap, body, next]
  | dum next words =>
    obtain ⟨_, has, rfl⟩ := words
    simp [Linking.parts, has.head, has.tail, next]
  | rap body next words =>
    obtain ⟨_, has, _, operand, _, rap, rfl⟩ := words
    simp [Linking.parts, has.head, has.tail, operand.head, operand.tail, rap.head, rap.tail, body, next]

theorem Linked.leads {c d : Nat × Value} (linked : c.2 = .nil ∨ w.Linked c.1 c.2)
    (leads : Leads w.store.heap c d) : d.2 = .nil ∨ w.Linked d.1 d.2 := by
  induction leads with
  | refl => exact linked
  | @tail c d _ step ih =>
    obtain ⟨n, v⟩ := c
    rcases ih with rfl | linked
    · have same : Linking.parts w.store.heap (n, .nil) = [(n, .nil)] := rfl
      rw [same, List.mem_singleton] at step
      exact .inl (step ▸ rfl)
    · exact linked.parts d step

theorem toNat_toInt_ofNat_le (i : Nat) : (Int64.ofNat i).toInt.toNat ≤ i := by
  have size : Int64.size = 2 ^ 64 := rfl
  rw [Int64.toInt_ofNat', Int.bmod_def, size]
  split <;> omega

theorem Address.slot {slot : Nat} {table : Table} (place : w.Address n v)
    (spelled : address? w.store.heap v = some (n + table.depth, slot)) :
    0 < slot ∧ slot ≤ (w.names table).length := by
  obtain ⟨depth, index, ⟨a, rfl, _, _, cell⟩, few, known⟩ := place
  simp only [address?, Heap.carOf?, Heap.cdrOf?, Value.addr?, Option.map_some, Heap.car, Heap.cdr,
    cell] at spelled
  split at spelled
  next positive =>
    obtain ⟨sameDepth, sameSlot⟩ := Prod.mk.inj (Option.some.inj spelled)
    rw [Int64.toInt_ofNat_of_lt few, Int.toNat_natCast] at sameDepth
    have small := toNat_toInt_ofNat_le index
    have first := Int64.lt_iff_toInt_lt.mp positive.2
    rw [sameSlot] at small
    have deep : 0 < table.depth := by cases table <;> decide
    rcases known with own | ⟨table', eq, within⟩
    · omega
    · have same : table' = table := by
        have depths : table'.depth = table.depth := by omega
        cases table <;> cases table' <;> first | rfl | cases depths
      subst same
      refine ⟨?_, Nat.le_trans small within⟩
      rw [Int64.toInt_zero] at first
      omega
  next => cases spelled

/-- The slots that linked code refers to are slots that names have. -/
theorem Linked.slot {slot : Nat} {table : Table} (linked : w.Linked n v)
    (takes : Linking.head w.store.heap v = .op .ld ∨ Linking.head w.store.heap v = .op .ldr ∨
      Linking.head w.store.heap v = .op .st)
    (spelled : address? w.store.heap (Linking.head w.store.heap (Linking.tail w.store.heap v)) =
      some (n + table.depth, slot)) :
    0 < slot ∧ slot ≤ (w.names table).length := by
  cases linked with
  | address _ place _ words =>
    obtain ⟨_, has, _, operand, _⟩ := words
    rw [has.tail, operand.head] at spelled
    exact place.slot spelled
  | last ends words =>
    obtain ⟨_, has, _⟩ := words
    rcases ends with rfl | rfl | rfl <;> simp [has.head] at takes
  | plain one _ words =>
    obtain ⟨_, has, _⟩ := words
    rw [has.head] at takes
    rcases takes with rfl | rfl | rfl <;> exact one.elim
  | ldc _ words | sel _ _ _ words | ldf _ _ words | dum _ words | rap _ _ words =>
    obtain ⟨_, has, _⟩ := words
    simp [has.head] at takes

theorem Linked.refers {slot : Nat} {table : Table} (linked : w.Linked 0 v)
    (refers : Refers w.store.heap v table slot) : 0 < slot ∧ slot ≤ (w.names table).length := by
  obtain ⟨frames, u, leads, takes, spelled⟩ := refers
  rcases Linked.leads (.inr linked) leads with rfl | linked
  · rcases takes with eq | eq | eq <;> cases eq
  · exact linked.slot takes spelled

end World

end Linking

end SecdLisp
