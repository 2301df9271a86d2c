import SecdLisp.Environment
import SecdLisp.Proofs.Graph

/-!
# Work that pays no heed to the room

The same work is done twice, on heaps with the same cells, of which the second has at least as much
room. Work is heedless if it comes to the same on both, unless the first heap is full by then.
Where the room is the same, it always comes to the same, and an error for want of room means that
the heap is full.
-/

namespace SecdLisp

namespace Heap

/-- The same cells, with at least as much room for more of them; in an exact comparison, with as
much room. -/
structure Alike (exact : Prop) (h h' : Heap) : Prop where
  cells : h.cells = h'.cells
  room : h.capacity ≤ h'.capacity
  exact : exact → h.capacity = h'.capacity

/-- Every cell is in use. -/
def Full (h : Heap) : Prop := h.size = h.capacity

/-- No cell is given up, and the room stays what it is. -/
structure Lasts (h h' : Heap) : Prop where
  size : h.size ≤ h'.size
  capacity : h'.capacity = h.capacity

theorem Lasts.refl (h : Heap) : h.Lasts h := ⟨Nat.le_refl _, rfl⟩

theorem Lasts.trans {h h' h'' : Heap} (first : h.Lasts h') (second : h'.Lasts h'') :
    h.Lasts h'' :=
  ⟨Nat.le_trans first.size second.size, second.capacity.trans first.capacity⟩

theorem Full.lasts {h h' : Heap} (full : h.Full) (lasts : h.Lasts h') : h'.Full := by
  refine Nat.le_antisymm h'.size_le_capacity ?_
  rw [lasts.capacity, ← full]
  exact lasts.size

theorem Alike.refl (exact : Prop) (h : Heap) : h.Alike exact h := ⟨rfl, Nat.le_refl _, fun _ => rfl⟩

theorem Alike.eq {exact : Prop} {h h' : Heap} (alike : h.Alike exact h') (same : exact) :
    h = h' := by
  obtain ⟨cells, capacity, _, _⟩ := h
  obtain ⟨cells', capacity', _, _⟩ := h'
  obtain rfl : cells = cells' := alike.cells
  obtain rfl : capacity = capacity' := alike.exact same
  rfl

end Heap

/-- What a kind of work is done on: a heap, and what else has to be the same on both sides. Records
are left out, as no work looks at them. -/
structure Bench (σ : Type) where
  heap : σ → Heap
  same : σ → σ → Prop

namespace Bench

variable {σ τ α β γ : Type} {B : Bench σ} {C : Bench τ} {exact : Prop}

structure Alike (B : Bench σ) (exact : Prop) (s t : σ) : Prop where
  heap : (B.heap s).Alike exact (B.heap t)
  same : B.same s t

/-- What the work comes to on both sides, from a heap `h` on the first. -/
inductive Matches (B : Bench σ) (exact : Prop) (h : Heap) :
    EStateM.Result Error σ α → EStateM.Result Error σ α → Prop where
  | ok {a : α} {s t : σ} (alike : B.Alike exact s t) (lasts : h.Lasts (B.heap s)) :
    Matches B exact h (.ok a s) (.ok a t)
  | error {e : Error} {s t : σ} (alike : B.Alike exact s t) (lasts : h.Lasts (B.heap s))
    (full : e = .heapFull → (B.heap s).Full) : Matches B exact h (.error e s) (.error e t)
  | full {s : σ} {r : EStateM.Result Error σ α} (uneven : ¬exact) (lasts : h.Lasts (B.heap s))
    (full : (B.heap s).Full) : Matches B exact h (.error .heapFull s) r

/-- Only the room for more cells makes a difference to the work. -/
def Heedless (B : Bench σ) (exact : Prop) (x : EStateM Error σ α) : Prop :=
  ∀ s t, B.Alike exact s t → B.Matches exact (B.heap s) (x s) (x t)

theorem Matches.lasts {h h' : Heap} {r r' : EStateM.Result Error σ α}
    (matched : B.Matches exact h' r r') (lasts : h.Lasts h') : B.Matches exact h r r' := by
  cases matched with
  | ok alike later => exact .ok alike (lasts.trans later)
  | error alike later full => exact .error alike (lasts.trans later) full
  | full uneven later full => exact .full uneven (lasts.trans later) full

theorem heedless_pure (a : α) : B.Heedless exact (pure a) := fun s _ alike =>
  .ok alike (.refl (B.heap s))

theorem heedless_throw {e : Error} (other : e ≠ .heapFull) :
    B.Heedless exact (throw e : EStateM Error σ α) := fun s _ alike =>
  .error alike (.refl (B.heap s)) fun eq => (other eq).elim

theorem Heedless.bind {x : EStateM Error σ α} {f : α → EStateM Error σ β}
    (first : B.Heedless exact x) (next : ∀ a, B.Heedless exact (f a)) :
    B.Heedless exact (x >>= f) := by
  intro s t alike
  show B.Matches exact _ (EStateM.bind x f s) (EStateM.bind x f t)
  unfold EStateM.bind
  have matched := first s t alike
  generalize x s = r at matched ⊢
  generalize x t = r' at matched ⊢
  cases matched with
  | ok alike lasts => exact (next _ _ _ alike).lasts lasts
  | error alike lasts full => exact .error alike lasts full
  | full uneven lasts full => exact .full uneven lasts full

theorem heedless_foldlM {f : β → α → EStateM Error σ β} {xs : List α}
    (body : ∀ b, ∀ x ∈ xs, B.Heedless exact (f b x)) (b : β) :
    B.Heedless exact (xs.foldlM f b) := by
  induction xs generalizing b with
  | nil => exact heedless_pure b
  | cons x xs ih =>
    rw [List.foldlM_cons]
    refine (body b x List.mem_cons_self).bind fun b => ih (fun b y mem => ?_) b
    exact body b y (List.mem_cons_of_mem x mem)

theorem heedless_foldrM {f : α → β → EStateM Error σ β} {xs : List α}
    (body : ∀ x ∈ xs, ∀ b, B.Heedless exact (f x b)) (b : β) :
    B.Heedless exact (xs.foldrM f b) := by
  induction xs with
  | nil => exact heedless_pure b
  | cons x xs ih =>
    rw [List.foldrM_cons]
    refine (ih fun y mem => body y (List.mem_cons_of_mem x mem)).bind fun b => ?_
    exact body x List.mem_cons_self b

structure Lens (B : Bench σ) (C : Bench τ) where
  get : τ → σ
  put : τ → σ → τ
  heap_get : ∀ t, B.heap (get t) = C.heap t
  heap_put : ∀ t s, C.heap (put t s) = B.heap s
  same_get : ∀ {t t'}, C.same t t' → B.same (get t) (get t')
  same_put : ∀ {t t' s s'}, C.same t t' → B.same s s' → C.same (put t s) (put t' s')

theorem Heedless.lift (lens : B.Lens C) {x : τ → EStateM Error σ α} {y : EStateM Error τ β}
    (out : α → σ → β) (work : ∀ t, B.Heedless exact (x t))
    (eq : ∀ t, y t = match x t (lens.get t) with
      | .ok a s => .ok (out a s) (lens.put t s)
      | .error e s => .error e (lens.put t s))
    (same : ∀ {t t'}, C.same t t' → x t = x t')
    (outs : ∀ {s s'} a, B.same s s' → out a s = out a s') : C.Heedless exact y := by
  intro t t' alike
  have start : B.Alike exact (lens.get t) (lens.get t') :=
    ⟨by rw [lens.heap_get, lens.heap_get]; exact alike.heap, lens.same_get alike.same⟩
  have whole {s s' : σ} (parts : B.Alike exact s s') :
      C.Alike exact (lens.put t s) (lens.put t' s') :=
    ⟨by rw [lens.heap_put, lens.heap_put]; exact parts.heap, lens.same_put alike.same parts.same⟩
  have matched := work t _ _ start
  rw [eq, eq, ← same alike.same]
  rw [lens.heap_get] at matched
  generalize x t (lens.get t) = r at matched ⊢
  generalize x t (lens.get t') = r' at matched ⊢
  cases matched with
  | ok parts lasts =>
    dsimp only
    rw [outs _ parts.same]
    exact .ok (whole parts) (by rw [lens.heap_put]; exact lasts)
  | error parts lasts full =>
    exact .error (whole parts) (by rw [lens.heap_put]; exact lasts)
      (by rw [lens.heap_put]; exact full)
  | full uneven lasts full =>
    exact .full uneven (by rw [lens.heap_put]; exact lasts) (by rw [lens.heap_put]; exact full)

end Bench

namespace Heap

open Bench

def bench : Bench Heap := ⟨id, fun _ _ => True⟩

variable {α : Type} {exact : Prop} {h h' : Heap}

/-- The heap shows nothing but its cells by this. -/
def Shows (f : Heap → α) : Prop := ∀ h h' : Heap, h.cells = h'.cells → f h = f h'

theorem size_eq (cells : h.cells = h'.cells) : h.size = h'.size := by rw [size, size, cells]

theorem cell_eq (cells : h.cells = h'.cells) : h.cell = h'.cell := by
  funext a
  rw [cell, cell, cells]

theorem car_eq (cells : h.cells = h'.cells) : h.car = h'.car := by
  funext a
  rw [car, car, cell_eq cells]

theorem cdr_eq (cells : h.cells = h'.cells) : h.cdr = h'.cdr := by
  funext a
  rw [cdr, cdr, cell_eq cells]

theorem shows_carOf? (v : Value) : Shows (·.carOf? v) := by
  intro h h' cells
  dsimp only
  rw [carOf?, carOf?, car_eq cells]

theorem shows_cdrOf? (v : Value) : Shows (·.cdrOf? v) := by
  intro h h' cells
  dsimp only
  rw [cdrOf?, cdrOf?, cdr_eq cells]

theorem collect_eq (cells : h.cells = h'.cells) (fuel : Nat) (v : Value) (acc : List Value) :
    h.collect fuel v acc = h'.collect fuel v acc := by
  induction fuel generalizing v acc with
  | zero => cases v <;> rfl
  | succ fuel ih =>
    cases v with
    | pair a => rw [collect, collect, ih, car_eq cells, cdr_eq cells]
    | _ => rfl

theorem shows_toList? (v : Value) : Shows (·.toList? v) := by
  intro h h' cells
  dsimp only
  rw [toList?, toList?, collect_eq cells, size_eq cells]

theorem cellAfter?_eq (cells : h.cells = h'.cells) (steps : Nat) (a : Addr) :
    h.cellAfter? steps a = h'.cellAfter? steps a := by
  induction steps generalizing a with
  | zero => rfl
  | succ steps ih =>
    rw [cellAfter?, cellAfter?, cdr_eq cells]
    split
    · exact ih _
    · rfl

theorem nthCell?_eq (cells : h.cells = h'.cells) (list : Value) (n : Nat) :
    h.nthCell? list n = h'.nthCell? list n := by
  rw [nthCell?, nthCell?, funext (cellAfter?_eq cells (n - 1))]

theorem shows_frameHolder? (env : Value) (depth : Nat) : Shows (·.frameHolder? env depth) := by
  intro h h' cells
  dsimp only
  rw [frameHolder?, frameHolder?, nthCell?_eq cells]

theorem shows_lookup? (env : Value) (depth index : Nat) : Shows (·.lookup? env depth index) := by
  intro h h' cells
  have holder := shows_frameHolder? env depth h h' cells
  dsimp only at holder ⊢
  unfold lookup?
  simp only [holder, nthCell?_eq cells, car_eq cells]

theorem dropCells?_eq (cells : h.cells = h'.cells) (steps : Nat) (v : Value) :
    h.dropCells? steps v = h'.dropCells? steps v := by
  induction steps generalizing v with
  | zero => rfl
  | succ steps ih =>
    cases v with
    | pair a => rw [dropCells?, dropCells?, ih, cdr_eq cells]
    | _ => rfl

theorem shows_lookupRest? (env : Value) (depth index : Nat) :
    Shows (·.lookupRest? env depth index) := by
  intro h h' cells
  have holder := shows_frameHolder? env depth h h' cells
  dsimp only at holder ⊢
  unfold lookupRest?
  simp only [holder, dropCells?_eq cells, car_eq cells]

theorem heedless_read {f : Heap → α} (shows' : Shows f) : bench.Heedless exact (read f) := by
  intro h h' alike
  unfold read
  rw [shows' h h' alike.heap.cells]
  exact .ok alike (.refl h)

theorem heedless_alloc (car cdr : Value) : bench.Heedless exact (alloc car cdr) := by
  intro h h' alike
  have cells : h.cells = h'.cells := alike.heap.cells
  have le : h.capacity ≤ h'.capacity := alike.heap.room
  have size : h.size = h'.size := size_eq cells
  have level : exact → h.capacity = h'.capacity := alike.heap.exact
  rw [alloc_eq, alloc_eq]
  by_cases room : h.size < h.capacity
  · have room' : h'.size < h'.capacity := by omega
    rw [dif_pos room, dif_pos room', ← size]
    refine .ok ⟨⟨?_, le, level⟩, trivial⟩ ⟨?_, rfl⟩
    · show h.cells.push _ = h'.cells.push _
      rw [cells]
    · show h.size ≤ (h.grown _ room).size
      rw [size_grown]
      exact Nat.le_succ _
  · have full : h.Full := Nat.le_antisymm h.size_le_capacity (Nat.le_of_not_lt room)
    rw [dif_neg room]
    by_cases same : exact
    · rw [dif_neg (by rw [← size, ← level same]; exact room)]
      exact .error alike (.refl h) fun _ => full
    · exact .full same (.refl h) full

theorem heedless_cons (car cdr : Value) : bench.Heedless exact (cons car cdr) :=
  (heedless_alloc car cdr).bind fun _ => heedless_pure _

theorem heedless_update (a : Addr) (f : Cell → Cell) : bench.Heedless exact (update a f) := by
  intro h h' alike
  have cells : h.cells = h'.cells := alike.heap.cells
  rw [update_eq, update_eq]
  refine .ok ⟨⟨?_, alike.heap.room, alike.heap.exact⟩, trivial⟩ ⟨?_, rfl⟩
  · show h.cells.modify a f = h'.cells.modify a f
    rw [cells]
  · exact Nat.le_of_eq (size_updated h a f).symm

theorem heedless_setCar (a : Addr) (v : Value) : bench.Heedless exact (setCar a v) :=
  heedless_update a _

theorem heedless_setCdr (a : Addr) (v : Value) : bench.Heedless exact (setCdr a v) :=
  heedless_update a _

theorem heedless_listWithTail (vs : List Value) (tail : Value) :
    bench.Heedless exact (listWithTail vs tail) :=
  heedless_foldrM (fun v _ tail => heedless_cons v tail) tail

theorem heedless_list (vs : List Value) : bench.Heedless exact (list vs) :=
  heedless_listWithTail vs .nil

theorem heedless_follow {relink : Value → HeapM Unit}
    (links : ∀ v, bench.Heedless exact (relink v)) (link : Value) :
    bench.Heedless exact (follow link relink) := by
  cases link with
  | pair a => exact heedless_pure _
  | nil =>
    exact (heedless_alloc .nil .nil).bind fun a => (links (.pair a)).bind fun _ => heedless_pure _
  | _ => exact heedless_pure _

theorem heedless_extendTo (steps : Nat) (a : Addr) : bench.Heedless exact (extendTo steps a) := by
  induction steps generalizing a with
  | zero => exact heedless_pure _
  | succ steps ih =>
    refine (heedless_read fun _ _ cells => congrFun (cdr_eq cells) a).bind fun link => ?_
    refine (heedless_follow (heedless_setCdr a) link).bind fun next => ?_
    cases next with
    | some b => exact ih b
    | none => exact heedless_pure _

theorem heedless_store (env : Value) (depth index : Nat) (v : Value) :
    bench.Heedless exact (store env depth index v) := by
  unfold store
  split
  · exact heedless_pure _
  · refine (heedless_read (shows_frameHolder? env depth)).bind fun holder => ?_
    cases holder with
    | none => exact heedless_pure _
    | some holder =>
      refine (heedless_read fun _ _ cells => congrFun (car_eq cells) holder).bind fun link => ?_
      refine (heedless_follow (heedless_setCar holder) link).bind fun first => ?_
      cases first with
      | none => exact heedless_pure _
      | some first =>
        refine (heedless_extendTo (index - 1) first).bind fun target => ?_
        cases target with
        | none => exact heedless_pure _
        | some target => exact (heedless_setCar target v).bind fun _ => heedless_pure _

end Heap

end SecdLisp
