import SecdLisp.Proofs.Restore
import SecdLisp.Proofs.Upkeep.Restore

/-!
# Images as canonical forms

Where a cell lies, how a symbol is numbered and what garbage lies around leave no mark on an image.
Two sessions have the same image exactly if their global graphs have the same shape, with names
for symbols, and their tables list the same names.
-/

namespace SecdLisp

namespace Numbering

variable {α : Type} {n n' : Numbering} {g g' : Nat → α} {k k' : Nat}

theorem entry_of_map_keys (same : n.keys.map g = n'.keys.map g') (i : Nat) :
    n.keys[i]?.map g = n'.keys[i]?.map g' := by
  rw [← Array.getElem?_map, same, Array.getElem?_map]

theorem size_eq_of_map_keys (same : n.keys.map g = n'.keys.map g') :
    n.keys.size = n'.keys.size := by
  simpa using congrArg Array.size same

theorem number_parallel (coherent : n.Coherent) (coherent' : n'.Coherent)
    (same : n.keys.map g = n'.keys.map g') (label : g k = g' k')
    (injective : ∀ (i j : Nat), n.keys[i]? = some j → g j = g k → j = k)
    (injective' : ∀ (i j : Nat), n'.keys[i]? = some j → g' j = g' k' → j = k') :
    (n.number k).1 = (n'.number k').1 ∧
      (n.number k).2.keys.map g = (n'.number k').2.keys.map g' := by
  have at_iff (i : Nat) : n.index[k]? = some i ↔ n'.index[k']? = some i := by
    rw [coherent, coherent']
    have entry := entry_of_map_keys same i
    constructor
    · intro here
      rw [here, Option.map_some, eq_comm, Option.map_eq_some_iff] at entry
      obtain ⟨j, there, same⟩ := entry
      rwa [← injective' i j there (same.trans label)]
    · intro there
      rw [there, Option.map_some, Option.map_eq_some_iff] at entry
      obtain ⟨j, here, same⟩ := entry
      rwa [← injective i j here (same.trans label.symm)]
  have found : n.index[k]? = n'.index[k']? := Option.ext at_iff
  unfold Numbering.number
  rw [← found]
  cases n.index[k]? with
  | some i => exact ⟨rfl, same⟩
  | none => exact ⟨size_eq_of_map_keys same, by simp only [Array.map_push, same, label]⟩

end Numbering

namespace Session

open Image

variable {s t : Session} {f : Addr → Addr}

/-- The global graphs have the same shape: a one-to-one map of the reached cells that leads the
root to the root, cars to cars and cdrs to cdrs. -/
structure Isomorphic (s t : Session) (f : Addr → Addr) : Prop where
  bijection : Set.BijOn f {a | s.heap.Reachable s.globals.env a}
    {b | t.heap.Reachable t.globals.env b}
  root : Alike s t f s.globals.env t.globals.env
  cells : ∀ a, s.heap.Reachable s.globals.env a →
    Alike s t f (s.heap.car a) (t.heap.car (f a)) ∧ Alike s t f (s.heap.cdr a) (t.heap.cdr (f a))

/-- The cells numbered so far correspond, and the names numbered so far are spelled the same. -/
structure InStep (s t : Session) (f : Addr → Addr) (u v : Survey) : Prop where
  sound : u.Sound (· < s.symbols.count) s.heap s.globals.env
  sound' : v.Sound (· < t.symbols.count) t.heap t.globals.env
  cells : u.cells.keys.map f = v.cells.keys
  names : u.names.keys.map s.symbols.name = v.names.keys.map t.symbols.name

def Met (s : Session) (v : Value) : Prop :=
  s.Knows v ∧ ∀ a, v = .pair a → s.heap.Reachable s.globals.env a

theorem Met.admits {v : Value} (met : s.Met v) :
    Survey.Admits (· < s.symbols.count) s.heap s.globals.env v := by
  refine ⟨met.2, ?_⟩
  rintro name rfl
  exact met.1

theorem InRange.met_env (inRange : s.InRange) : s.Met s.globals.env :=
  ⟨inRange.env, fun _ here => .root here⟩

theorem InRange.met_car (inRange : s.InRange) {a : Addr}
    (reached : s.heap.Reachable s.globals.env a) : s.Met (s.heap.car a) :=
  ⟨(inRange.cells a).1, fun _ link => reached.car link⟩

theorem InRange.met_cdr (inRange : s.InRange) {a : Addr}
    (reached : s.heap.Reachable s.globals.env a) : s.Met (s.heap.cdr a) :=
  ⟨(inRange.cells a).2, fun _ link => reached.cdr link⟩

theorem InStep.empty : InStep s t f ⟨.empty, .empty⟩ ⟨.empty, .empty⟩ :=
  ⟨.empty, .empty, by simp [Numbering.empty], by simp [Numbering.empty]⟩

theorem InStep.slot (inRange : s.InRange) (inRange' : t.InRange) (iso : Isomorphic s t f)
    {u v : Survey} (inStep : InStep s t f u v) {x y : Value} (met : s.Met x) (met' : t.Met y)
    (alike : Alike s t f x y) :
    (u.slot x).1 = (v.slot y).1 ∧ InStep s t f (u.slot x).2 (v.slot y).2 := by
  obtain ⟨sound, _, _⟩ := inStep.sound.slot inRange.closed inRange.env.owns met.admits
  obtain ⟨sound', _, _⟩ := inStep.sound'.slot inRange'.closed inRange'.env.owns met'.admits
  cases x with
  | nil | truth | int | op => cases alike; exact ⟨rfl, inStep⟩
  | ident i =>
    obtain ⟨j, rfl, known, spelled⟩ := alike
    have ⟨number, names⟩ := Numbering.number_parallel inStep.sound.names inStep.sound'.names
      inStep.names spelled.symm
      (fun p k here => SymbolTable.name_injective (inStep.sound.named p k here) met.1)
      (fun p k here => SymbolTable.name_injective (inStep.sound'.named p k here) known)
    exact ⟨congrArg (fun n => Slot.ident (UInt32.ofNat n)) number,
      sound, sound', inStep.cells, names⟩
  | pair a =>
    cases alike
    have same : u.cells.keys.map f = v.cells.keys.map id := by rw [inStep.cells, Array.map_id]
    have ⟨number, cells⟩ := Numbering.number_parallel inStep.sound.cells inStep.sound'.cells
      same (show f a = id (f a) from rfl)
      (fun p b here => iso.bijection.injOn (inStep.sound.reached p b here) (met.2 a rfl))
      (fun _ _ _ => id)
    rw [Array.map_id] at cells
    exact ⟨congrArg (fun n => Slot.pair (UInt32.ofNat n)) number,
      sound, sound', cells, inStep.names⟩

theorem InStep.next {u v : Survey} (inStep : InStep s t f u v) (i : Nat) :
    v.cells.keys[i]? = u.cells.keys[i]?.map f := by
  rw [← inStep.cells, Array.getElem?_map]

/-- Both walks through the numbered cells write the same cells. How many cells there are besides
does not matter. -/
theorem InStep.encodeCells (inRange : s.InRange) (inRange' : t.InRange) (iso : Isomorphic s t f)
    {fuel fuel' : Nat} (cells : Array ImageCell) {u v : Survey} (inStep : InStep s t f u v)
    (enough : s.heap.size ≤ fuel + cells.size) (enough' : t.heap.size ≤ fuel' + cells.size) :
    let r := Image.encodeCells s.heap fuel cells u
    let r' := Image.encodeCells t.heap fuel' cells v
    r.1 = r'.1 ∧ InStep s t f r.2 r'.2 := by
  induction fuel generalizing fuel' cells u v with
  | zero =>
    have few := inStep.sound.size_le inRange.closed inRange.env.owns
    have last : v.cells.keys[cells.size]? = none := by
      rw [inStep.next, Array.getElem?_eq_none (by omega), Option.map_none]
    cases fuel' with
    | zero => exact ⟨rfl, inStep⟩
    | succ fuel' =>
      simp only [Image.encodeCells, last]
      exact ⟨trivial, inStep⟩
  | succ fuel ih =>
    have there := inStep.next cells.size
    cases here : u.cells.keys[cells.size]? with
    | none =>
      rw [here] at there
      cases fuel' with
      | zero =>
        simp only [Image.encodeCells, here]
        exact ⟨trivial, inStep⟩
      | succ fuel' =>
        simp only [Image.encodeCells, here, there, Option.map_none]
        exact ⟨trivial, inStep⟩
    | some a =>
      rw [here, Option.map_some] at there
      have lt := (Array.getElem?_eq_some_iff.mp there).1
      have few := inStep.sound'.size_le inRange'.closed inRange'.env.owns
      obtain ⟨fuel', rfl⟩ : ∃ n, fuel' = n + 1 := Nat.exists_eq_succ_of_ne_zero (by omega)
      have reached := inStep.sound.reached _ a here
      have reached' := inStep.sound'.reached _ _ there
      obtain ⟨car, inStep₁⟩ := inStep.slot inRange inRange' iso (inRange.met_car reached)
        (inRange'.met_car reached') (iso.cells a reached).1
      obtain ⟨cdr, inStep₂⟩ := inStep₁.slot inRange inRange' iso (inRange.met_cdr reached)
        (inRange'.met_cdr reached') (iso.cells a reached).2
      simp only [Image.encodeCells, here, there, ← car, ← cdr]
      exact ih _ inStep₂ (by rw [Array.size_push]; omega) (by rw [Array.size_push]; omega)

/-- Isomorphic graphs and equal lists of names have one image. -/
theorem image_eq_of_isomorphic (inRange : s.InRange) (inRange' : t.InRange)
    (iso : Isomorphic s t f)
    (functions : s.globals.functions.map s.symbols.name = t.globals.functions.map t.symbols.name)
    (macros : s.globals.macros.map s.symbols.name = t.globals.macros.map t.symbols.name) :
    s.image = t.image := by
  obtain ⟨root, first⟩ := InStep.empty.slot inRange inRange' iso inRange.met_env inRange'.met_env
    iso.root
  obtain ⟨cells, last⟩ := InStep.encodeCells inRange inRange' iso #[] first
    (Nat.le_add_right s.heap.size 0) (Nat.le_add_right t.heap.size 0)
  simp only [image, Image.capture, root, cells, last.names, functions, macros]

theorem alike_of_shows_both {image : Image} {order order' : List Addr} (nodup : order.Nodup)
    {v w : Value} {slot : Slot} (shows : image.Shows s.symbols order v slot)
    (shows' : image.Shows t.symbols order' w slot) (known : t.Knows w) :
    Alike s t (fun a => order'[order.idxOf a]?.getD 0) v w := by
  cases v with
  | nil | truth | int | op => cases shows; cases w <;> simp_all [Image.Shows, Alike]
  | ident i =>
    obtain ⟨p, rfl, spelled⟩ := shows
    cases w with
    | ident j =>
      obtain ⟨q, same, spelled'⟩ := shows'
      cases same
      exact ⟨j, rfl, known, Option.some.inj (spelled'.symm.trans spelled)⟩
    | _ => simp [Image.Shows] at shows'
  | pair a =>
    obtain ⟨p, rfl, here⟩ := shows
    cases w with
    | pair b =>
      obtain ⟨q, same, there⟩ := shows'
      cases same
      obtain ⟨lt, eq⟩ := List.getElem?_eq_some_iff.mp here
      have place : order.idxOf a = p.toNat := by rw [← eq, nodup.idxOf_getElem]
      simp only [Alike, place, there, Option.getD_some]
    | _ => simp [Image.Shows] at shows'

theorem isomorphic_of_image_eq (inRange : s.InRange) (inRange' : t.InRange)
    (words : s.symbols.count ≤ UInt32.size) (words' : t.symbols.count ≤ UInt32.size)
    (same : s.image = t.image) : ∃ f, Isomorphic s t f := by
  obtain ⟨order, portrays⟩ := image_portrays inRange words
  obtain ⟨order', portrays'⟩ := image_portrays inRange' words'
  rw [← same] at portrays'
  have length : order.length = order'.length := portrays.length.trans portrays'.length.symm
  have paired {a : Addr} (reached : s.heap.Reachable s.globals.env a) :
      order'[order.idxOf a]? = some (order'[order.idxOf a]?.getD 0) := by
    have lt := List.idxOf_lt_length_of_mem ((portrays.mem_iff a).mpr reached)
    rw [List.getElem?_eq_getElem (length ▸ lt), Option.getD_some]
  have root := alike_of_shows_both portrays.nodup portrays.root portrays'.root inRange'.env
  have cells : ∀ a, s.heap.Reachable s.globals.env a →
      Alike s t (fun a => order'[order.idxOf a]?.getD 0) (s.heap.car a)
          (t.heap.car (order'[order.idxOf a]?.getD 0)) ∧
        Alike s t (fun a => order'[order.idxOf a]?.getD 0) (s.heap.cdr a)
          (t.heap.cdr (order'[order.idxOf a]?.getD 0)) := by
    intro a reached
    have here := List.getElem?_idxOf ((portrays.mem_iff a).mpr reached)
    obtain ⟨c, hc, car, cdr⟩ := portrays.cells _ a here
    obtain ⟨c', hc', car', cdr'⟩ := portrays'.cells _ _ (paired reached)
    obtain rfl : c = c' := Option.some.inj (hc.symm.trans hc')
    exact ⟨alike_of_shows_both portrays.nodup car car' (inRange'.cells _).1,
      alike_of_shows_both portrays.nodup cdr cdr' (inRange'.cells _).2⟩
  refine ⟨_, bijOn_of_alike root cells fun a ha b hb eq => ?_, root, cells⟩
  have mem := (portrays.mem_iff a).mpr ha
  have lt := List.idxOf_lt_length_of_mem mem
  have places : order'[order.idxOf a]? = order'[order.idxOf b]? := by
    rw [paired ha, paired hb]
    exact congrArg some eq
  exact (List.idxOf_inj mem).mp ((List.getElem?_inj (length ▸ lt) portrays'.nodup).mp places)

theorem inRange_of_restore {image : Image} {u : Session} (inRange : t.InRange)
    (run : restore image t = .ok () u) : u.InRange := by
  have leaves := (leaves_restore image inRange).1
  simpa only [perform, answered, run] using leaves

theorem image_of_restore {u : Session} (inRange : s.InRange)
    (words : s.symbols.count ≤ UInt32.size) (inRange' : t.InRange)
    (run : restore s.image t = .ok () u) : u.image = s.image := by
  obtain ⟨f, mirrors⟩ := mirrors_of_restore inRange words run
  have iso : Isomorphic s u f :=
    ⟨bijOn_of_alike mirrors.root mirrors.cells mirrors.injective, mirrors.root, mirrors.cells⟩
  exact (image_eq_of_isomorphic inRange (inRange_of_restore inRange' run) iso
    mirrors.functions.symm mirrors.macros.symm).symm

/-- Images are canonical. Two sessions have the same image if and only if there is an isomorphism
between the graphs reached from their global environments and their tables list the same names in
the same order. So an image that was restored is captured again as it was; and where there is room
for it, it is restored. -/
theorem image_eq_iff (inRange : s.InRange) (words : s.symbols.count ≤ UInt32.size)
    (inRange' : t.InRange) (words' : t.symbols.count ≤ UInt32.size) :
    (s.image = t.image ↔
      (∃ f, Isomorphic s t f) ∧
      s.globals.functions.map s.symbols.name = t.globals.functions.map t.symbols.name ∧
      s.globals.macros.map s.symbols.name = t.globals.macros.map t.symbols.name) ∧
    (∀ u, restore s.image t = .ok () u → u.image = s.image) ∧
    ∀ holders, s.heap.Spine s.globals.env holders → 2 ≤ holders.length →
      t.heap.size + s.image.cells.size ≤ t.heap.capacity →
      ∃ u, restore s.image t = .ok () u ∧ u.image = s.image := by
  refine ⟨⟨fun same => ⟨?_, ?_, ?_⟩, ?_⟩, fun u => image_of_restore inRange words inRange', ?_⟩
  · exact isomorphic_of_image_eq inRange inRange' words words' same
  · exact congrArg Image.functions same
  · exact congrArg Image.macros same
  · rintro ⟨⟨f, iso⟩, functions, macros⟩
    exact image_eq_of_isomorphic inRange inRange' iso functions macros
  · intro holders spine two room
    obtain ⟨order, portrays⟩ := image_portrays inRange words
    obtain ⟨u, _, run, _⟩ := restore_spec (validate_of_portrays portrays spine two) room
    exact ⟨u, run, image_of_restore inRange words inRange' run⟩

theorem addressable_eight : 8 ≤ Heap.maxCells := by decide

theorem addressable_sixteen : 16 ≤ Heap.maxCells := by decide

/-- A session with a cycle in its global graph and a name of its own. -/
def knotted : Session :=
  ⟨⟨#[⟨.pair 2, .pair 1⟩, ⟨.nil, .nil⟩, ⟨.ident SymbolTable.initial.count, .pair 0⟩], 8, by decide,
    addressable_eight⟩, (SymbolTable.initial.intern "x").2, ⟨.pair 0, [SymbolTable.initial.count], []⟩,
    .empty .quiet⟩

/-- The same graph laid out in another order behind a cell of garbage, its name known later. -/
def displaced : Session :=
  ⟨⟨#[⟨.truth, .pair 2⟩, ⟨.ident (SymbolTable.initial.count + 1), .pair 3⟩, ⟨.nil, .nil⟩,
    ⟨.pair 1, .pair 2⟩], 16, by decide, addressable_sixteen⟩,
    ((SymbolTable.initial.intern "y").2.intern "x").2,
    ⟨.pair 3, [SymbolTable.initial.count + 1], []⟩, .empty .quiet⟩

theorem inRange_knotted : knotted.InRange where
  cells
    | 0 => by decide +kernel
    | 1 => by decide +kernel
    | 2 => by decide +kernel
    | _ + 3 => ⟨trivial, trivial⟩
  env := by decide +kernel
  functions := by decide +kernel
  macros := by decide +kernel

theorem inRange_displaced : displaced.InRange where
  cells
    | 0 => by decide +kernel
    | 1 => by decide +kernel
    | 2 => by decide +kernel
    | 3 => by decide +kernel
    | _ + 4 => ⟨trivial, trivial⟩
  env := by decide +kernel
  functions := by decide +kernel
  macros := by decide +kernel

theorem isomorphic_knotted_displaced : knotted.InRange ∧ displaced.InRange ∧
    knotted.image = displaced.image ∧ (∃ f, Isomorphic knotted displaced f) ∧
    ∃ u, restore knotted.image displaced = .ok () u ∧ u.image = knotted.image := by
  obtain ⟨same_iff, _, restored⟩ :=
    image_eq_iff inRange_knotted (by decide +kernel) inRange_displaced (by decide +kernel)
  have same : knotted.image = displaced.image := by decide +kernel
  exact ⟨inRange_knotted, inRange_displaced, same, (same_iff.mp same).1,
    restored [0, 1] (.cons (by decide) (.cons (by decide) .nil)) (by decide) (by decide +kernel)⟩

end Session

end SecdLisp
