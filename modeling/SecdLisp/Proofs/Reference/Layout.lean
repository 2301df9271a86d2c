import SecdLisp.Proofs.Reference.Code

/-!
# How the store lies on the heap

Every object of the store has a cell, every frame has the environment cell that holds it, and
every slot has a cell of the frame's list. A cell has at most one such role. Cells without a role
belong to the machine: its stack, its dump, and argument lists that are not yet frames.
-/

namespace SecdLisp

namespace Reference

/-- What a cell is for: contents that never change, holding a frame in front of an environment,
or a slot of a frame. -/
inductive Role where
  | fixed (c : Cell)
  | holder (frame : Nat) (next : Value)
  | slot (frame index : Nat)

structure Layout where
  role : Addr → Option Role
  /-- The cells of the objects, by number. -/
  objects : List Addr
  /-- The cells that hold the frames, by number. -/
  frames : List Addr

/-- The cells that are passed along cdr from one value to another. -/
inductive Path (h : Heap) : Value → List Addr → Value → Prop where
  | nil {v : Value} : Path h v [] v
  | cons {a : Addr} {as : List Addr} {w : Value} (rest : Path h (h.cdr a) as w) :
    Path h (.pair a) (a :: as) w

namespace Path

variable {h h' : Heap} {v w : Value} {as : List Addr}

theorem eq_of_nil (path : Path h v [] w) : v = w := by
  cases path
  rfl

theorem uncons {a : Addr} (path : Path h v (a :: as) w) :
    v = .pair a ∧ Path h (h.cdr a) as w := by
  cases path with
  | cons rest => exact ⟨rfl, rest⟩

theorem congr (path : Path h v as w) (same : ∀ a ∈ as, h'.cdr a = h.cdr a) : Path h' v as w := by
  induction path with
  | nil => exact .nil
  | @cons a as w rest ih =>
    refine .cons ?_
    rw [same a (List.mem_cons_self ..)]
    exact ih fun b hb => same b (List.mem_cons_of_mem _ hb)

theorem after (path : Path h v as w) {i : Nat} {c : Addr} (here : as[i]? = some c) :
    Path h (h.cdr c) (as.drop (i + 1)) w := by
  induction path generalizing i with
  | nil => cases here
  | cons rest ih =>
    cases i with
    | zero =>
      cases here
      exact rest
    | succ i => exact ih here

theorem chain (path : Path h v as w) (atom : w.isPair = false) : h.Chain v as w := by
  induction path with
  | nil => exact .last atom
  | cons _ ih => exact .cell (ih atom)

theorem of_chain (chain : h.Chain v as w) : Path h v as w := by
  induction chain with
  | last => exact .nil
  | cell _ ih => exact .cons ih

theorem of_spine (spine : h.Spine v as) : Path h v as .nil := of_chain spine.chain

theorem nthCell? (path : Path h v as w) {i : Nat} {b : Addr} (here : as[i]? = some b) :
    h.nthCell? v (i + 1) = some b := by
  induction path generalizing i with
  | nil => cases here
  | @cons a as w rest ih =>
    cases i with
    | zero =>
      cases here
      rfl
    | succ i =>
      have found := ih here
      show Heap.cellAfter? h (i + 1) a = some b
      rw [Heap.cellAfter?]
      cases link : h.cdr a <;> rw [link] at found <;> first | cases found | exact found

theorem dropCells? (path : Path h v as w) : h.dropCells? as.length v = some w := by
  induction path with
  | nil => rfl
  | cons _ ih => exact ih

end Path

namespace Layout

/-- The datum that a value stands for. -/
def Means (L : Layout) : Value → Datum → Prop
  | .nil, d => d = .nil
  | .truth, d => d = .truth
  | .int n, d => d = .int n
  | .ident name, d => d = .ident name
  | .op o, d => d = .op o
  | .pair a, d => ∃ id, d = .object id ∧ L.objects[id]? = some a

/-- The environment that is made of these frames, in front of the global environment `g`. Frames
are numbered as they are made, so the ones further out have smaller numbers. -/
inductive EnvAt (L : Layout) (g : Nat) : Locals → Value → Prop where
  | globals {a : Addr} {next : Value} (frame : L.frames[g]? = some a)
    (role : L.role a = some (.holder g next)) : EnvAt L g [] (.pair a)
  | within {params : Frame} {f : Nat} {locals : Locals} {a : Addr} {next : Value}
    (frame : L.frames[f]? = some a) (role : L.role a = some (.holder f next))
    (few : params.length < 2 ^ 63) (older : ∀ p ∈ locals, p.2 < f) (inner : g < f)
    (rest : EnvAt L g locals next) : EnvAt L g ((params, f) :: locals) (.pair a)

/-- A cell holds the contents of an object. -/
inductive Portrays (L : Layout) (P : Program) (g : Nat) : Cell → Object → Prop where
  | pair {car cdr : Value} {d e : Datum} (first : L.Means car d) (second : L.Means cdr e) :
    Portrays L P g ⟨car, cdr⟩ (.pair d e)
  | closure {code env r : Value} {params : Frame} {body : Expr} {locals : Locals}
    (few : params.length < 2 ^ 63) (rtn : Words P.code [.op .rtn] .nil r)
    (inner : Code P (params :: locals.map Prod.fst) (.expr body) r code)
    (outer : L.EnvAt g locals env) : Portrays L P g ⟨code, env⟩ (.closure params body locals)

/-- A frame's list, with the cells of its slots and what comes after them. -/
structure Seated (L : Layout) (h : Heap) (f : Nat) (v : Value) (slots : Slots) (as : List Addr)
    (w : Value) : Prop where
  path : Path h v as w
  roles : ∀ (i : Nat) (b : Addr), as[i]? = some b → L.role b = some (.slot f i)
  values : List.Forall₂ L.Means (as.map h.car) slots.values
  rest : L.Means w slots.rest

end Layout

/-- The heap holds the store, laid out as `L` says, and the program. The frame `g` is that of the
global names. -/
structure Mirrors (P : Program) (g : Nat) (L : Layout) (σ : Store) (h : Heap) : Prop where
  owned : ∀ a r, L.role a = some r → a < h.size
  fixed : ∀ a c, L.role a = some (.fixed c) → h.cell a = c
  links : ∀ a f next, L.role a = some (.holder f next) → h.cdr a = next
  code : ∀ a c, P.code a = some c → L.role a = some (.fixed c)
  literals : ∀ v d, P.means v d → L.Means v d
  table : P.table.length < 2 ^ 63
  distinct : L.objects.Nodup
  objectCount : L.objects.length = σ.objects.length
  frameCount : L.frames.length = σ.frames.length
  objects : ∀ (id : Nat) (a : Addr) (o : Object), L.objects[id]? = some a →
    σ.objects[id]? = some o → ∃ c, L.role a = some (.fixed c) ∧ L.Portrays P g c o
  frames : ∀ (f : Nat) (a : Addr) (slots : Slots), L.frames[f]? = some a →
    σ.frames[f]? = some slots →
      (∃ next, L.role a = some (.holder f next)) ∧ ∃ as w, L.Seated h f (h.car a) slots as w

/-- What evaluation keeps: objects and frames stay where they are, and cells below `n` that have
no role are left alone. -/
structure Extends (n : Nat) (L : Layout) (h : Heap) (L' : Layout) (h' : Heap) : Prop where
  size_le : h.size ≤ h'.size
  objects : L.objects <+: L'.objects
  frames : L.frames <+: L'.frames
  fixed : ∀ a c, L.role a = some (.fixed c) → L'.role a = some (.fixed c)
  holders : ∀ a f next, L.role a = some (.holder f next) → L'.role a = some (.holder f next)
  idle : ∀ a < n, L.role a = none → L'.role a = none
  quiet : ∀ a < n, L.role a = none → h'.cell a = h.cell a

namespace Extends

variable {n m : Nat} {L L' L'' : Layout} {h h' h'' : Heap}

theorem refl (n : Nat) (L : Layout) (h : Heap) : Extends n L h L h :=
  ⟨Nat.le_refl _, List.prefix_rfl, List.prefix_rfl, fun _ _ => id, fun _ _ _ => id,
    fun _ _ => id, fun _ _ _ => rfl⟩

theorem trans (first : Extends n L h L' h') (second : Extends n L' h' L'' h'') :
    Extends n L h L'' h'' where
  size_le := Nat.le_trans first.size_le second.size_le
  objects := first.objects.trans second.objects
  frames := first.frames.trans second.frames
  fixed a c role := second.fixed a c (first.fixed a c role)
  holders a f next role := second.holders a f next (first.holders a f next role)
  idle a lt free := second.idle a lt (first.idle a lt free)
  quiet a lt free := by rw [second.quiet a lt (first.idle a lt free), first.quiet a lt free]

theorem mono (ext : Extends n L h L' h') (le : m ≤ n) : Extends m L h L' h' where
  size_le := ext.size_le
  objects := ext.objects
  frames := ext.frames
  fixed := ext.fixed
  holders := ext.holders
  idle a lt := ext.idle a (Nat.lt_of_lt_of_le lt le)
  quiet a lt := ext.quiet a (Nat.lt_of_lt_of_le lt le)

/-- The machine may add cells and change those that have no role and are not below `n`. -/
theorem of_grows (grows : h.Grows h') (n_le : n ≤ h.size) (L : Layout) : Extends n L h L h' where
  size_le := grows.size_le
  objects := List.prefix_rfl
  frames := List.prefix_rfl
  fixed _ _ := id
  holders _ _ _ := id
  idle _ _ := id
  quiet a lt _ := grows.cell a (Nat.lt_of_lt_of_le lt n_le)

end Extends

theorem getElem?_mono {α : Type} {as bs : List α} (le : as <+: bs) {i : Nat} {a : α}
    (here : as[i]? = some a) : bs[i]? = some a := by
  obtain ⟨more, rfl⟩ := le
  rw [List.getElem?_append_left (List.getElem?_eq_some_iff.mp here).1, here]

namespace Layout

variable {n g : Nat} {L L' : Layout} {h h' : Heap} {P : Program}

theorem means_nil_iff {v : Value} : L.Means v .nil ↔ v = .nil := by
  cases v <;> simp [Means]

theorem Means.mono {v : Value} {d : Datum} (means : L.Means v d) (le : L.objects <+: L'.objects) :
    L'.Means v d := by
  cases v with
  | pair a =>
    obtain ⟨id, rfl, here⟩ := means
    exact ⟨id, rfl, getElem?_mono le here⟩
  | _ => exact means

theorem EnvAt.mono {locals : Locals} {E : Value} (env : L.EnvAt g locals E)
    (ext : Extends n L h L' h') : L'.EnvAt g locals E := by
  induction env with
  | globals frame role =>
    exact .globals (getElem?_mono ext.frames frame) (ext.holders _ _ _ role)
  | within frame role few older inner _ ih =>
    exact .within (getElem?_mono ext.frames frame) (ext.holders _ _ _ role) few older inner ih

theorem Portrays.mono {c : Cell} {o : Object} (portrays : L.Portrays P g c o)
    (ext : Extends n L h L' h') : L'.Portrays P g c o := by
  cases portrays with
  | pair first second => exact .pair (first.mono ext.objects) (second.mono ext.objects)
  | closure few rtn inner outer => exact .closure few rtn inner (outer.mono ext)

theorem Seated.mono {f : Nat} {v w : Value} {slots : Slots} {as : List Addr}
    (seated : L.Seated h f v slots as w) (objects : L.objects <+: L'.objects)
    (same : ∀ b i, L.role b = some (.slot f i) →
      L'.role b = some (.slot f i) ∧ h'.cell b = h.cell b) : L'.Seated h' f v slots as w := by
  have keeps : ∀ b ∈ as, h'.cell b = h.cell b := by
    intro b mem
    obtain ⟨i, here⟩ := List.mem_iff_getElem?.mp mem
    exact (same b i (seated.roles i b here)).2
  have cars : as.map h'.car = as.map h.car :=
    List.map_congr_left fun b mem => congrArg Cell.car (keeps b mem)
  refine ⟨seated.path.congr fun b mem => congrArg Cell.cdr (keeps b mem), fun i b here => ?_, ?_,
    seated.rest.mono objects⟩
  · exact (same b i (seated.roles i b here)).1
  · rw [cars]
    exact seated.values.imp fun _ _ means => means.mono objects

theorem Seated.length {f : Nat} {v w : Value} {slots : Slots} {as : List Addr}
    (seated : L.Seated h f v slots as w) : as.length = slots.values.length := by
  rw [← seated.values.length_eq, List.length_map]

theorem Seated.eq_nil {f : Nat} {v w : Value} {slots : Slots} {as : List Addr}
    (seated : L.Seated h f v slots as w) (rest : slots.rest = .nil) : w = .nil :=
  means_nil_iff.mp (rest ▸ seated.rest)

theorem Seated.nodup {f : Nat} {v w : Value} {slots : Slots} {as : List Addr}
    (seated : L.Seated h f v slots as w) : as.Nodup := by
  refine List.nodup_iff_injective_getElem.mpr fun i j same => ?_
  have first := seated.roles i _ (List.getElem?_eq_getElem i.2)
  have second := seated.roles j _ (List.getElem?_eq_getElem j.2)
  have eq : as[i.1] = as[j.1] := same
  rw [eq] at first
  exact Fin.ext (Role.slot.inj (Option.some.inj (first.symm.trans second))).2

end Layout

/-- Only cells with a role matter to how the store lies. -/
theorem Mirrors.congr {P : Program} {g : Nat} {L : Layout} {σ : Store} {h h' : Heap}
    (mirrors : Mirrors P g L σ h) (le : h.size ≤ h'.size)
    (same : ∀ a r, L.role a = some r → h'.cell a = h.cell a) : Mirrors P g L σ h' where
  owned a r role := Nat.lt_of_lt_of_le (mirrors.owned a r role) le
  fixed a c role := by rw [same a _ role, mirrors.fixed a c role]
  links a f next role := by rw [Heap.cdr, same a _ role, ← mirrors.links a f next role, Heap.cdr]
  code := mirrors.code
  literals := mirrors.literals
  table := mirrors.table
  distinct := mirrors.distinct
  objectCount := mirrors.objectCount
  frameCount := mirrors.frameCount
  objects := mirrors.objects
  frames f a slots frame here := by
    obtain ⟨⟨next, role⟩, as, w, seated⟩ := mirrors.frames f a slots frame here
    refine ⟨⟨next, role⟩, as, w, ?_⟩
    rw [Heap.car, same a _ role]
    exact seated.mono List.prefix_rfl fun b i slot => ⟨slot, same b _ slot⟩

theorem Mirrors.grows {P : Program} {g : Nat} {L : Layout} {σ : Store} {h h' : Heap}
    (mirrors : Mirrors P g L σ h) (grows : h.Grows h') : Mirrors P g L σ h' :=
  mirrors.congr grows.size_le fun a r role => grows.cell a (mirrors.owned a r role)

end Reference

end SecdLisp
