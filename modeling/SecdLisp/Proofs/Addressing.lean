import SecdLisp.Compile.Formals
import SecdLisp.Machine.Step
import SecdLisp.Proofs.Graph

/-!
# Addresses of variables

Slots and depths count from one, and a word spells each of them that is not too large. No frame is
longer than the list that it was read from, and no list is longer than the heap. A rest parameter
comes after all parameters that can be assigned.
-/

namespace SecdLisp

def Formal.isPlain : Formal → Bool
  | plain _ => true
  | rest _ => false

/-- How many parameters of a frame can be assigned. -/
def Frame.extent (frame : Frame) : Nat := frame.countP Formal.isPlain

/-- Nothing follows a rest parameter. -/
def Frame.RestLast : Frame → Prop
  | [] => True
  | f :: fs => (f.isPlain = true ∨ fs = []) ∧ RestLast fs

section Frames

variable {α β : Type} {h : Heap} {symbols : SymbolTable} {form : String} {items : List Value}
  {frame : Frame}

theorem except_bind_eq_ok {x : Except CompileError α} {f : α → Except CompileError β} {b : β} :
    x >>= f = .ok b ↔ ∃ a, x = .ok a ∧ f a = .ok b := by
  cases x <;> simp [bind, Except.bind]

theorem ofItems_cons_eq_ok {item : Value}
    (taken : Frame.ofItems h symbols form (item :: items) = .ok frame) :
    (∃ name, frame = [.rest name]) ∨
      ∃ name rest, Frame.ofItems h symbols form items = .ok rest ∧ frame = .plain name :: rest := by
  cases item with
  | ident name =>
    unfold Frame.ofItems at taken
    split at taken
    · split at taken <;> cases taken
      exact .inl ⟨_, rfl⟩
    · obtain ⟨rest, others, eq⟩ := except_bind_eq_ok.mp taken
      cases eq
      exact .inr ⟨name, rest, others, rfl⟩
  | pair a =>
    unfold Frame.ofItems at taken
    obtain ⟨name, _, eq⟩ := except_bind_eq_ok.mp taken
    split at eq <;> cases eq
    exact .inl ⟨name, rfl⟩
  | _ => cases taken

theorem ofNames_cons_eq_ok {item : Value}
    (taken : Frame.ofNames form (item :: items) = .ok frame) :
    ∃ name rest, Frame.ofNames form items = .ok rest ∧ frame = .plain name :: rest := by
  cases item with
  | ident name =>
    obtain ⟨rest, others, eq⟩ := except_bind_eq_ok.mp taken
    cases eq
    exact ⟨name, rest, others, rfl⟩
  | _ => cases taken

theorem length_ofItems_le (taken : Frame.ofItems h symbols form items = .ok frame) :
    frame.length ≤ items.length := by
  induction items generalizing frame with
  | nil =>
    cases taken
    exact Nat.le_refl _
  | cons item items ih =>
    obtain ⟨name, rfl⟩ | ⟨name, rest, others, rfl⟩ := ofItems_cons_eq_ok taken
    · simp
    · exact Nat.succ_le_succ (ih others)

theorem length_ofParameters_le {parameters : Value}
    (taken : Frame.ofParameters h symbols form parameters = .ok frame) :
    frame.length ≤ h.size := by
  unfold Frame.ofParameters at taken
  split at taken
  next items found => exact Nat.le_trans (length_ofItems_le taken) (Heap.length_toList?_le found)
  next => cases taken

theorem length_ofNames (taken : Frame.ofNames form items = .ok frame) :
    frame.length = items.length := by
  induction items generalizing frame with
  | nil =>
    cases taken
    rfl
  | cons item items ih =>
    obtain ⟨name, rest, others, rfl⟩ := ofNames_cons_eq_ok taken
    exact congrArg Nat.succ (ih others)

theorem restLast_ofItems (taken : Frame.ofItems h symbols form items = .ok frame) :
    frame.RestLast := by
  induction items generalizing frame with
  | nil =>
    cases taken
    trivial
  | cons item items ih =>
    obtain ⟨name, rfl⟩ | ⟨name, rest, others, rfl⟩ := ofItems_cons_eq_ok taken
    · exact ⟨.inr rfl, trivial⟩
    · exact ⟨.inl rfl, ih others⟩

theorem restLast_ofParameters {parameters : Value}
    (taken : Frame.ofParameters h symbols form parameters = .ok frame) : frame.RestLast := by
  unfold Frame.ofParameters at taken
  split at taken
  · exact restLast_ofItems taken
  · cases taken

theorem restLast_ofNames (taken : Frame.ofNames form items = .ok frame) : frame.RestLast := by
  induction items generalizing frame with
  | nil =>
    cases taken
    trivial
  | cons item items ih =>
    obtain ⟨name, rest, others, rfl⟩ := ofNames_cons_eq_ok taken
    exact ⟨.inl rfl, ih others⟩

theorem ofBindings_parts {values : List Value} {body : Value}
    (taken : Frame.ofBindings h form items = .ok (frame, values, body)) :
    body ∈ items ∧ (∃ list ∈ items, h.toList? list = some values) ∧ frame.length ≤ h.size ∧
      frame.RestLast := by
  unfold Frame.ofBindings at taken
  split at taken
  next bound list expr =>
    cases names? : h.toList? bound with
    | none => simp [names?, Frame.malformed] at taken
    | some names =>
      cases values? : h.toList? list with
      | none => simp [names?, values?, Frame.malformed] at taken
      | some vs =>
        simp only [names?, values?, bind, Except.bind, pure, Except.pure] at taken
        split at taken
        · cases taken
        · cases ofNames : Frame.ofNames form names with
          | error e => simp [ofNames] at taken
          | ok f =>
            simp only [ofNames] at taken
            cases taken
            refine ⟨by simp, ⟨list, by simp, values?⟩, ?_, restLast_ofNames ofNames⟩
            exact length_ofNames ofNames ▸ Heap.length_toList?_le names?
  next => cases taken

end Frames

theorem find?_bounds {params : Frame} {name : Symbol} {index : Nat} {formal : Formal}
    (found : params.find? name = some (index, formal)) : 0 < index ∧ index ≤ params.length := by
  induction params generalizing index with
  | nil => cases found
  | cons p params ih =>
    rw [Frame.find?] at found
    split at found
    · cases found
      exact ⟨Nat.one_pos, by simp⟩
    · obtain ⟨⟨i, q⟩, inner, eq⟩ := Option.map_eq_some_iff.mp found
      cases eq
      exact ⟨Nat.succ_pos i, Nat.succ_le_succ (ih inner).2⟩

theorem find?_formal {params : Frame} {name : Symbol} {index : Nat} {formal : Formal}
    (found : params.find? name = some (index, formal)) : params[index - 1]? = some formal := by
  induction params generalizing index with
  | nil => cases found
  | cons p params ih =>
    rw [Frame.find?] at found
    split at found
    · cases found
      rfl
    · obtain ⟨⟨i, q⟩, inner, eq⟩ := Option.map_eq_some_iff.mp found
      cases eq
      obtain ⟨n, rfl⟩ := Nat.exists_eq_succ_of_ne_zero (Nat.pos_iff_ne_zero.mp (find?_bounds inner).1)
      exact ih inner

/-- Parameters that can be assigned come first, and a rest parameter is right behind them. -/
theorem find?_extent {params : Frame} {name : Symbol} {index : Nat} {formal : Formal}
    (last : params.RestLast) (found : params.find? name = some (index, formal)) :
    if formal.isPlain then index ≤ params.extent else index = params.extent + 1 := by
  induction params generalizing index with
  | nil => cases found
  | cons p params ih =>
    obtain ⟨here, last⟩ := last
    rw [Frame.find?] at found
    split at found
    · cases found
      rcases here with plain | rfl
      · simp [plain, Frame.extent]
      · cases formal <;> simp [Frame.extent, Formal.isPlain]
    · obtain ⟨⟨i, q⟩, inner, eq⟩ := Option.map_eq_some_iff.mp found
      cases eq
      have plain : p.isPlain = true := by
        rcases here with plain | rfl
        · exact plain
        · cases inner
      have more : Frame.extent (p :: params) = Frame.extent params + 1 :=
        List.countP_cons_of_pos plain
      have within := ih last inner
      split at within
      next assignable => rw [if_pos assignable, more]; omega
      next rest => rw [if_neg rest, more, ← within]

/-- A name is located within its scopes, and within its frame. -/
theorem locate?_bounds {scopes : List Frame} {name : Symbol} {place : Place}
    (found : Frame.locate? scopes name = some place) :
    (0 < place.depth ∧ place.depth ≤ scopes.length) ∧
      0 < place.index ∧ ∃ frame ∈ scopes, place.index ≤ frame.length := by
  induction scopes generalizing place with
  | nil => cases found
  | cons frame scopes ih =>
    rw [Frame.locate?] at found
    split at found
    next index formal here =>
      cases found
      obtain ⟨positive, le⟩ := find?_bounds here
      exact ⟨⟨Nat.one_pos, Nat.le_add_left ..⟩, positive, frame, List.mem_cons_self .., le⟩
    next =>
      obtain ⟨inner, located, rfl⟩ := Option.map_eq_some_iff.mp found
      obtain ⟨⟨_, le⟩, positive, frame', mem, le'⟩ := ih located
      exact ⟨⟨Nat.succ_pos _, Nat.succ_le_succ le⟩, positive, frame',
        List.mem_cons_of_mem _ mem, le'⟩

theorem locate?_frame {scopes : List Frame} {name : Symbol} {place : Place}
    (found : Frame.locate? scopes name = some place) :
    ∃ frame, scopes[place.depth - 1]? = some frame ∧
      frame.find? name = some (place.index, place.formal) := by
  induction scopes generalizing place with
  | nil => cases found
  | cons frame scopes ih =>
    rw [Frame.locate?] at found
    split at found
    next index formal here =>
      cases found
      exact ⟨frame, rfl, here⟩
    next =>
      obtain ⟨inner, located, rfl⟩ := Option.map_eq_some_iff.mp found
      obtain ⟨d, eq⟩ := Nat.exists_eq_succ_of_ne_zero (Nat.ne_of_gt (locate?_bounds located).1.1)
      obtain ⟨frame', there, here⟩ := ih located
      exact ⟨frame', by simpa [eq] using there, here⟩

theorem frameHolder?_next {h : Heap} {a : Addr} {next : Value} (link : h.cdr a = next) {depth : Nat}
    (positive : 0 < depth) {b : Addr} (found : h.frameHolder? next depth = some b) :
    h.frameHolder? (.pair a) (depth + 1) = some b := by
  obtain ⟨i, rfl⟩ : ∃ i, depth = i + 1 := ⟨depth - 1, by omega⟩
  subst link
  show Heap.cellAfter? h (i + 1) a = some b
  rw [Heap.cellAfter?]
  cases eq : h.cdr a <;> rw [eq] at found <;> first | cases found | exact found

theorem positive_ofNat {n : Nat} (positive : 0 < n) (few : n < 2 ^ 63) :
    0 < Int64.ofNat n ∧ (Int64.ofNat n).toInt.toNat = n := by
  have same := Int64.toInt_ofNat_of_lt few
  refine ⟨?_, by rw [same]; rfl⟩
  rw [Int64.lt_iff_toInt_lt, same]
  simpa using positive

theorem Machine.address?_of_cell {h : Heap} {a : Addr} {depth index : Nat}
    (cell : h.cell a = ⟨.int (Int64.ofNat depth), .int (Int64.ofNat index)⟩)
    (positive : 0 < depth ∧ 0 < index) (few : depth < 2 ^ 63 ∧ index < 2 ^ 63) :
    address? h (.pair a) = some (depth, index) := by
  obtain ⟨first, depth_eq⟩ := positive_ofNat positive.1 few.1
  obtain ⟨second, index_eq⟩ := positive_ofNat positive.2 few.2
  simp only [address?, Heap.carOf?, Heap.cdrOf?, Value.addr?, Option.map_some, Heap.car, Heap.cdr,
    cell, if_pos (And.intro first second), depth_eq, index_eq]

end SecdLisp
