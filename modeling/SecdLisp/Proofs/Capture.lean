import SecdLisp.Image.Capture
import SecdLisp.Proofs.Graph

/-!
# What an image holds

Taking an image numbers cells and names in order of first use. The list of numbered cells grows
while it is walked through; when the walk has come to its end, it holds every cell that can be
reached from the root, and each cell once.
-/

namespace SecdLisp

namespace Numbering

/-- The index finds every key at its place and nothing else. -/
def Coherent (n : Numbering) : Prop :=
  ∀ key i : Nat, n.index[key]? = some i ↔ n.keys[i]? = some key

def Within (n n' : Numbering) : Prop :=
  ∀ i key : Nat, n.keys[i]? = some key → n'.keys[i]? = some key

theorem Within.refl (n : Numbering) : n.Within n := fun _ _ h => h

theorem Within.trans {n m k : Numbering} (h : n.Within m) (h' : m.Within k) : n.Within k :=
  fun i key hi => h' i key (h i key hi)

theorem Within.size_le {n n' : Numbering} (h : n.Within n') : n.keys.size ≤ n'.keys.size := by
  by_contra lt
  have last : n.keys[n'.keys.size]? = some n.keys[n'.keys.size] :=
    Array.getElem?_eq_getElem (Nat.lt_of_not_le lt)
  have found := h _ _ last
  simp at found

theorem coherent_empty : empty.Coherent := by
  intro key i
  simp [empty]

theorem Coherent.injective {n : Numbering} (hn : n.Coherent) {i j key : Nat}
    (hi : n.keys[i]? = some key) (hj : n.keys[j]? = some key) : i = j := by
  have at_i := (hn key i).mpr hi
  have at_j := (hn key j).mpr hj
  exact Option.some.inj (at_i.symm.trans at_j)

theorem Coherent.nodup {n : Numbering} (hn : n.Coherent) : n.keys.toList.Nodup := by
  rw [List.nodup_iff_injective_getElem]
  intro i j same
  apply Fin.ext
  have first : n.keys[i.1]? = some n.keys.toList[i] := by simp
  have second : n.keys[j.1]? = some n.keys.toList[i] := by simp [same]
  exact hn.injective first second

theorem Coherent.size_le {n : Numbering} (hn : n.Coherent) {bound : Nat}
    (below : ∀ i key : Nat, n.keys[i]? = some key → key < bound) : n.keys.size ≤ bound := by
  have sub : n.keys.toList.toFinset ⊆ Finset.range bound := by
    intro key hkey
    obtain ⟨i, hi⟩ := List.mem_iff_getElem?.mp (List.mem_toFinset.mp hkey)
    exact Finset.mem_range.mpr (below i key (by simpa using hi))
  have card := Finset.card_le_card sub
  rwa [List.toFinset_card_of_nodup hn.nodup, Finset.card_range, Array.length_toList] at card

/-- Numbering a key keeps all numbers and leads from the number given back to the key. -/
theorem Coherent.number {n : Numbering} (hn : n.Coherent) (key : Nat) :
    (n.number key).2.Coherent ∧ n.Within (n.number key).2 ∧
      (n.number key).2.keys[(n.number key).1]? = some key ∧
      ∀ i k : Nat, (n.number key).2.keys[i]? = some k → n.keys[i]? = some k ∨ k = key := by
  unfold Numbering.number
  split
  next i found => exact ⟨hn, .refl n, (hn key i).mp found, fun i k hk => .inl hk⟩
  next fresh =>
    have absent : ∀ i : Nat, n.keys[i]? ≠ some key := by
      intro i hi
      rw [(hn key i).mpr hi] at fresh
      cases fresh
    refine ⟨?_, ?_, ?_, ?_⟩
    · intro k i
      rw [Std.TreeMap.getElem?_insert, Array.getElem?_push]
      by_cases hk : key = k
      · subst hk
        by_cases hi : i = n.keys.size
        · simp [hi]
        · simpa [hi, Ne.symm hi] using absent i
      · by_cases hi : i = n.keys.size
        · have none : n.index[k]? ≠ some i := by
            intro at_k
            have := (hn k i).mp at_k
            simp [hi] at this
          simp [hi, hk]
          simpa [hi] using none
        · simpa [hi, hk] using hn k i
    · intro i k hi
      have lt : i < n.keys.size := (Array.getElem?_eq_some_iff.mp hi).1
      rw [Array.getElem?_push, if_neg (Nat.ne_of_lt lt)]
      exact hi
    · simp
    · intro i k hk
      rw [Array.getElem?_push] at hk
      split at hk
      · exact .inr (Option.some.inj hk).symm
      · exact .inl hk

end Numbering

namespace Image

namespace Survey

/-- A slot stands for a value, by the numbers that the survey gave. The number of a name may have
more bits than its slot. -/
def Denotes (s : Survey) : Value → Slot → Prop
  | .nil, slot => slot = .nil
  | .truth, slot => slot = .truth
  | .int n, slot => slot = .int n
  | .op o, slot => slot = .op o
  | .ident name, slot => ∃ i : Nat, slot = .ident (.ofNat i) ∧ s.names.keys[i]? = some name
  | .pair a, slot => ∃ i, slot = .pair i ∧ s.cells.keys[i.toNat]? = some a

def Within (s s' : Survey) : Prop := s.cells.Within s'.cells ∧ s.names.Within s'.names

theorem Within.refl (s : Survey) : s.Within s := ⟨.refl _, .refl _⟩

theorem Within.trans {s s' s'' : Survey} (h : s.Within s') (h' : s'.Within s'') :
    s.Within s'' := ⟨h.1.trans h'.1, h.2.trans h'.2⟩

theorem Denotes.mono {s s' : Survey} (h : s.Within s') {v : Value} {slot : Slot}
    (hv : s.Denotes v slot) : s'.Denotes v slot := by
  cases v with
  | nil | truth | int | op => exact hv
  | ident name =>
    obtain ⟨i, eq, hi⟩ := hv
    exact ⟨i, eq, h.2 _ _ hi⟩
  | pair a =>
    obtain ⟨i, eq, hi⟩ := hv
    exact ⟨i, eq, h.1 _ _ hi⟩

/-- The survey numbers cells that are reached from the root, and names of one kind. -/
structure Sound (named : Symbol → Prop) (h : Heap) (root : Value) (s : Survey) : Prop where
  cells : s.cells.Coherent
  names : s.names.Coherent
  reached : ∀ i a : Nat, s.cells.keys[i]? = some a → h.Reachable root a
  named : ∀ i name : Nat, s.names.keys[i]? = some name → named name

variable {named : Symbol → Prop} {h : Heap} {root : Value} {s : Survey}

theorem Sound.empty : Sound named h root ⟨.empty, .empty⟩ where
  cells := Numbering.coherent_empty
  names := Numbering.coherent_empty
  reached i a ha := by simp [Numbering.empty] at ha
  named i name hn := by simp [Numbering.empty] at hn

/-- A value to be surveyed: its cell is reached and its name is of that kind. -/
def Admits (named : Symbol → Prop) (h : Heap) (root : Value) (v : Value) : Prop :=
  (∀ a, v = .pair a → h.Reachable root a) ∧ ∀ name, v = .ident name → named name

theorem Sound.size_le (hs : s.Sound named h root) (closed : h.Closed) (owns : h.Owns root) :
    s.cells.keys.size ≤ h.size :=
  hs.cells.size_le fun i a ha => (hs.reached i a ha).owned closed owns

theorem Sound.slot (hs : s.Sound named h root) (closed : h.Closed) (owns : h.Owns root) {v : Value}
    (hv : Admits named h root v) :
    (s.slot v).2.Sound named h root ∧ s.Within (s.slot v).2 ∧ (s.slot v).2.Denotes v (s.slot v).1 := by
  cases v with
  | nil | truth | int | op => exact ⟨hs, .refl s, rfl⟩
  | ident name =>
    obtain ⟨coherent, within, here, old⟩ := hs.names.number name
    refine ⟨⟨hs.cells, coherent, hs.reached, fun i n hn => ?_⟩, ⟨.refl _, within⟩, _, rfl, here⟩
    rcases old i n hn with before | rfl
    · exact hs.named i n before
    · exact hv.2 _ rfl
  | pair a =>
    obtain ⟨coherent, within, here, old⟩ := hs.cells.number a
    have sound : (s.slot (.pair a)).2.Sound named h root := by
      refine ⟨coherent, hs.names, fun i b hb => ?_, hs.named⟩
      rcases old i b hb with before | rfl
      · exact hs.reached i b before
      · exact hv.1 _ rfl
    have few := sound.size_le closed owns
    have lt : (s.cells.number a).1 < UInt32.size :=
      Nat.lt_trans (Nat.lt_of_lt_of_le (Array.getElem?_eq_some_iff.mp here).1 few) h.size_lt_word
    refine ⟨sound, ⟨within, .refl _⟩, UInt32.ofNat (s.cells.number a).1, rfl, ?_⟩
    rw [UInt32.toNat_ofNat_of_lt' lt]
    exact here

/-- The encoded cells are the first numbered cells, in order. -/
def Encodes (h : Heap) (s : Survey) (cells : Array ImageCell) : Prop :=
  ∀ (i : Nat) (c : ImageCell), cells[i]? = some c → ∃ a, s.cells.keys[i]? = some a ∧
    s.Denotes (h.car a) c.car ∧ s.Denotes (h.cdr a) c.cdr

theorem Encodes.empty (s : Survey) (h : Heap) : s.Encodes h #[] := by
  intro i c hc
  simp at hc

theorem Encodes.push {s' : Survey} {cells : Array ImageCell} (he : s.Encodes h cells)
    (within : s.Within s') {a : Addr} (ha : s.cells.keys[cells.size]? = some a) {c : ImageCell}
    (hcar : s'.Denotes (h.car a) c.car) (hcdr : s'.Denotes (h.cdr a) c.cdr) :
    s'.Encodes h (cells.push c) := by
  intro i d hd
  rw [Array.getElem?_push] at hd
  split at hd
  next hi =>
    cases hd
    exact ⟨a, by rw [hi]; exact within.1 _ _ ha, hcar, hcdr⟩
  next =>
    obtain ⟨b, hb, car, cdr⟩ := he i d hd
    exact ⟨b, within.1 _ _ hb, car.mono within, cdr.mono within⟩

end Survey

open Survey

/-- The walk through the numbered cells ends with every one of them encoded. -/
theorem encodeCells_spec {named : Symbol → Prop} {h : Heap} {root : Value} (closed : h.Closed)
    (owns : h.Owns root)
    (admits : ∀ a, h.Reachable root a → Admits named h root (h.car a) ∧ Admits named h root (h.cdr a))
    {fuel : Nat} {cells : Array ImageCell} {s : Survey} (sound : s.Sound named h root)
    (encodes : s.Encodes h cells) (le : cells.size ≤ s.cells.keys.size)
    (enough : h.size ≤ fuel + cells.size) :
    let r := encodeCells h fuel cells s
    r.2.Sound named h root ∧ s.Within r.2 ∧ r.2.Encodes h r.1 ∧ r.1.size = r.2.cells.keys.size := by
  induction fuel generalizing cells s with
  | zero =>
    have few := sound.size_le closed owns
    have size : cells.size = s.cells.keys.size := by omega
    exact ⟨sound, .refl s, encodes, size⟩
  | succ fuel ih =>
    rw [encodeCells]
    split
    next none =>
      have size : cells.size = s.cells.keys.size :=
        Nat.le_antisymm le (Array.getElem?_eq_none_iff.mp none)
      exact ⟨sound, .refl s, encodes, size⟩
    next a ha =>
      obtain ⟨car, cdr⟩ := admits a (sound.reached _ _ ha)
      obtain ⟨sound₁, within₁, hcar⟩ := sound.slot closed owns car
      obtain ⟨sound₂, within₂, hcdr⟩ := sound₁.slot closed owns cdr
      have within := within₁.trans within₂
      have next := encodes.push within ha
        (c := ⟨(s.slot (h.car a)).1, ((s.slot (h.car a)).2.slot (h.cdr a)).1⟩)
        (hcar.mono within₂) hcdr
      have lt : cells.size < s.cells.keys.size := (Array.getElem?_eq_some_iff.mp ha).1
      have grow := within.1.size_le
      obtain ⟨sound', within', encodes', size⟩ :=
        ih sound₂ next (by rw [Array.size_push]; omega) (by rw [Array.size_push]; omega)
      exact ⟨sound', within.trans within', encodes', size⟩

/-- A slot of an image stands for a value, where `order` lists the cells that the image numbers. -/
def Shows (image : Image) (symbols : SymbolTable) (order : List Addr) : Value → Slot → Prop
  | .nil, slot => slot = .nil
  | .truth, slot => slot = .truth
  | .int n, slot => slot = .int n
  | .op o, slot => slot = .op o
  | .ident name, slot => ∃ i, slot = .ident i ∧ image.names[i.toNat]? = some (symbols.name name)
  | .pair a, slot => ∃ i, slot = .pair i ∧ order[i.toNat]? = some a

/-- The image has exactly the cells that are reached from a root, each of them once, in the
given order. -/
structure Portrays (image : Image) (h : Heap) (symbols : SymbolTable) (root : Value)
    (order : List Addr) : Prop where
  nodup : order.Nodup
  mem_iff : ∀ a, a ∈ order ↔ h.Reachable root a
  length : order.length = image.cells.size
  root : image.Shows symbols order root image.root
  cells : ∀ (i : Nat) (a : Addr), order[i]? = some a → ∃ c, image.cells[i]? = some c ∧
    image.Shows symbols order (h.car a) c.car ∧ image.Shows symbols order (h.cdr a) c.cdr

/-- What a slot keeps of a value if the spelling of names is left aside. -/
def Outlines (image : Image) (order : List Addr) : Value → Slot → Prop
  | .nil, slot => slot = .nil
  | .truth, slot => slot = .truth
  | .int n, slot => slot = .int n
  | .op o, slot => slot = .op o
  | .ident _, slot => ∃ i, slot = .ident i ∧ i.toNat < image.names.size
  | .pair a, slot => ∃ i, slot = .pair i ∧ order[i.toNat]? = some a

/-- The same where slots stand for values in any way. -/
structure Charts (image : Image) (stands : Value → Slot → Prop) (h : Heap) (root : Value)
    (order : List Addr) : Prop where
  nodup : order.Nodup
  mem_iff : ∀ a, a ∈ order ↔ h.Reachable root a
  length : order.length = image.cells.size
  root : stands root image.root
  cells : ∀ (i : Nat) (a : Addr), order[i]? = some a → ∃ c, image.cells[i]? = some c ∧
    stands (h.car a) c.car ∧ stands (h.cdr a) c.cdr

theorem Charts.imp {image : Image} {stands stands' : Value → Slot → Prop} {h : Heap} {root : Value}
    {order : List Addr} (charts : image.Charts stands h root order)
    (imp : ∀ v slot, stands v slot → stands' v slot) : image.Charts stands' h root order := by
  refine ⟨charts.nodup, charts.mem_iff, charts.length, imp _ _ charts.root, fun i a here => ?_⟩
  obtain ⟨c, hc, car, cdr⟩ := charts.cells i a here
  exact ⟨c, hc, imp _ _ car, imp _ _ cdr⟩

theorem portrays_iff {image : Image} {h : Heap} {symbols : SymbolTable} {root : Value}
    {order : List Addr} : image.Portrays h symbols root order ↔
      image.Charts (image.Shows symbols order) h root order :=
  ⟨fun p => ⟨p.nodup, p.mem_iff, p.length, p.root, p.cells⟩,
    fun c => ⟨c.nodup, c.mem_iff, c.length, c.root, c.cells⟩⟩

theorem shows_of_denotes {s : Survey} {image : Image} {symbols : SymbolTable}
    (names : image.names = s.names.keys.map symbols.name)
    (few : s.names.keys.size ≤ UInt32.size) {v : Value} {slot : Slot}
    (hv : s.Denotes v slot) : image.Shows symbols s.cells.keys.toList v slot := by
  cases v with
  | nil | truth | int | op => exact hv
  | ident name =>
    obtain ⟨i, eq, hi⟩ := hv
    have lt := Nat.lt_of_lt_of_le (Array.getElem?_eq_some_iff.mp hi).1 few
    refine ⟨_, eq, ?_⟩
    rw [UInt32.toNat_ofNat_of_lt' lt]
    simp [names, hi]
  | pair a =>
    obtain ⟨i, eq, hi⟩ := hv
    exact ⟨i, eq, by simpa using hi⟩

theorem outlines_of_denotes {s : Survey} {image : Image} {symbols : SymbolTable}
    (names : image.names = s.names.keys.map symbols.name) {v : Value} {slot : Slot}
    (hv : s.Denotes v slot) : image.Outlines s.cells.keys.toList v slot := by
  cases v with
  | nil | truth | int | op => exact hv
  | ident name =>
    obtain ⟨i, eq, hi⟩ := hv
    refine ⟨_, eq, ?_⟩
    rw [names, Array.size_map, UInt32.toNat_ofNat']
    exact Nat.lt_of_le_of_lt (Nat.mod_le ..) (Array.getElem?_eq_some_iff.mp hi).1
  | pair a =>
    obtain ⟨i, eq, hi⟩ := hv
    exact ⟨i, eq, by simpa using hi⟩

/-- Once every numbered cell is encoded, the numbered cells are closed under car and cdr. -/
theorem charts_of_encodes {named : Symbol → Prop} {h : Heap} {root : Value} {s : Survey}
    {image : Image} (sound : s.Sound named h root) (encodes : s.Encodes h image.cells)
    (size : image.cells.size = s.cells.keys.size) (hroot : s.Denotes root image.root) :
    image.Charts s.Denotes h root s.cells.keys.toList := by
  have encoded : ∀ (i : Nat) (a : Addr), s.cells.keys[i]? = some a → ∃ c,
      image.cells[i]? = some c ∧ s.Denotes (h.car a) c.car ∧ s.Denotes (h.cdr a) c.cdr := by
    intro i a hi
    have lt : i < image.cells.size := size ▸ (Array.getElem?_eq_some_iff.mp hi).1
    have hc : image.cells[i]? = some image.cells[i] := Array.getElem?_eq_getElem lt
    obtain ⟨b, hb, car, cdr⟩ := encodes i _ hc
    have same : b = a := Option.some.inj (hb.symm.trans hi)
    subst same
    exact ⟨_, hc, car, cdr⟩
  have numbered : ∀ a, h.Reachable root a → ∃ i : Nat, s.cells.keys[i]? = some a := by
    intro a ha
    induction ha with
    | root here =>
      subst here
      obtain ⟨i, _, hi⟩ := hroot
      exact ⟨i.toNat, hi⟩
    | car _ link ih =>
      obtain ⟨i, hi⟩ := ih
      obtain ⟨c, _, car, _⟩ := encoded i _ hi
      rw [link] at car
      obtain ⟨j, _, hj⟩ := car
      exact ⟨j.toNat, hj⟩
    | cdr _ link ih =>
      obtain ⟨i, hi⟩ := ih
      obtain ⟨c, _, _, cdr⟩ := encoded i _ hi
      rw [link] at cdr
      obtain ⟨j, _, hj⟩ := cdr
      exact ⟨j.toNat, hj⟩
  refine ⟨sound.cells.nodup, fun a => ⟨fun ha => ?_, fun ha => ?_⟩, by simp [size], hroot,
    fun i a hi => ?_⟩
  · obtain ⟨i, hi⟩ := List.mem_iff_getElem?.mp ha
    exact sound.reached i a (by simpa using hi)
  · obtain ⟨i, hi⟩ := numbered a ha
    exact List.mem_iff_getElem?.mpr ⟨i, by simpa using hi⟩
  · exact encoded i a (by simpa using hi)

theorem capture_charts {named : Symbol → Prop} {h : Heap} (symbols : SymbolTable) {g : Globals}
    (closed : h.Closed) (owns : h.Owns g.env)
    (names : ∀ a name, h.car a = .ident name ∨ h.cdr a = .ident name → named name)
    (root : ∀ name, g.env = .ident name → named name) :
    ∃ s : Survey, s.Sound named h g.env ∧
      (capture h symbols g).names = s.names.keys.map symbols.name ∧
      (capture h symbols g).Charts s.Denotes h g.env s.cells.keys.toList := by
  have admits : ∀ a, h.Reachable g.env a →
      Admits named h g.env (h.car a) ∧ Admits named h g.env (h.cdr a) := by
    intro a ha
    exact ⟨⟨fun b hb => ha.car hb, fun name hn => names a name (.inl hn)⟩,
      ⟨fun b hb => ha.cdr hb, fun name hn => names a name (.inr hn)⟩⟩
  have empty : Survey.Sound named h g.env ⟨.empty, .empty⟩ := .empty
  have start : Admits named h g.env g.env := ⟨fun a ha => .root ha, root⟩
  obtain ⟨sound₀, _, root₀⟩ := empty.slot closed owns start
  obtain ⟨sound, within, encodes, size⟩ :=
    encodeCells_spec closed owns admits sound₀ (Encodes.empty _ h) (Nat.zero_le _)
      (Nat.le_add_right h.size 0)
  exact ⟨_, sound, rfl, charts_of_encodes sound encodes size (root₀.mono within)⟩

theorem capture_portrays {h : Heap} {symbols : SymbolTable} {g : Globals} (closed : h.Closed)
    (owns : h.Owns g.env)
    (names : ∀ a name, h.car a = .ident name ∨ h.cdr a = .ident name → name < UInt32.size)
    (root : ∀ name, g.env = .ident name → name < UInt32.size) :
    ∃ order, (capture h symbols g).Portrays h symbols g.env order := by
  obtain ⟨s, sound, spelled, charts⟩ := capture_charts symbols closed owns names root
  have few := sound.names.size_le sound.named
  exact ⟨_, portrays_iff.mpr (charts.imp fun v slot => shows_of_denotes spelled few)⟩

/-- Whatever names there are, the image has the reached cells as they are. -/
theorem capture_outlines {h : Heap} (symbols : SymbolTable) {g : Globals} (closed : h.Closed)
    (owns : h.Owns g.env) : ∃ order, (capture h symbols g).Charts
      ((capture h symbols g).Outlines order) h g.env order := by
  have all (name : Symbol) : (fun _ => True) name := trivial
  obtain ⟨s, _, spelled, charts⟩ := capture_charts symbols closed owns (fun _ name _ => all name)
    fun name _ => all name
  exact ⟨_, charts.imp fun v slot => outlines_of_denotes spelled⟩

end Image

end SecdLisp
