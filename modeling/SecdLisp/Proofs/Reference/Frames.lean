import SecdLisp.Proofs.Reference.Environment

/-!
# Frames

Reading, setting and growing frames does on the heap what it does in the store. A frame that is
too short grows one slot of nil at a time.
-/

namespace SecdLisp

namespace Reference

open Layout

variable {P : Program} {g n f : Nat} {L : Layout} {σ : Store} {h h' : Heap} {E v w : Value}
  {b : Binding} {depth : Nat} {d : Datum} {slots : Slots} {as : List Addr} {a : Addr}

theorem lookup?_of_bound (mirrors : Mirrors P g L σ h) (bound : BoundAt L h E depth b)
    (frame : σ.frames[b.frame]? = some slots) (value : slots.get? b.index = some d) :
    ∃ w, h.lookup? E depth b.index = some w ∧ L.Means w d := by
  obtain ⟨positive, few, a, holder, number⟩ := bound
  obtain ⟨_, as, w, seated⟩ := mirrors.frames b.frame a slots number frame
  obtain ⟨i, eq⟩ : ∃ i, b.index = i + 1 := ⟨b.index - 1, by omega⟩
  have lt : i < as.length := by
    rw [seated.length]
    rw [Slots.get?, eq] at value
    exact (List.getElem?_eq_some_iff.mp value).1
  have here : as[i]? = some as[i] := List.getElem?_eq_getElem lt
  have means := List.forall₂_iff_get.mp seated.values
  refine ⟨h.car as[i], ?_, ?_⟩
  · rw [Heap.lookup?, if_neg (Nat.ne_of_gt positive.2), holder, Option.bind_some, eq,
      seated.path.nthCell? here, Option.map_some]
  · rw [Slots.get?, eq, Nat.add_sub_cancel] at value
    obtain ⟨lt', same⟩ := List.getElem?_eq_some_iff.mp value
    have both := means.2 i (by simpa using lt) lt'
    simpa [same] using both

theorem lookupRest?_of_bound (mirrors : Mirrors P g L σ h) (bound : BoundAt L h E depth b)
    (frame : σ.frames[b.frame]? = some slots) (value : slots.rest? b.index = some d) :
    ∃ w, h.lookupRest? E depth b.index = some w ∧ L.Means w d := by
  obtain ⟨positive, few, a, holder, number⟩ := bound
  obtain ⟨_, as, w, seated⟩ := mirrors.frames b.frame a slots number frame
  rw [Slots.rest?] at value
  split at value
  next whole =>
    cases value
    refine ⟨w, ?_, seated.rest⟩
    simp only [Heap.lookupRest?, if_neg (Nat.ne_of_gt positive.2), holder, Option.bind_some, ← whole,
      ← seated.length, seated.path.dropCells?]
  next => cases value

theorem Layout.Seated.seatable (mirrors : Mirrors P g L σ h)
    (seated : L.Seated h f v slots as w) : Seatable L h f as := by
  refine ⟨seated.nodup, fun b mem => ?_⟩
  obtain ⟨i, here⟩ := List.mem_iff_getElem?.mp mem
  have role := seated.roles i b here
  exact ⟨mirrors.owned b _ role, .inr ⟨i, role⟩⟩

theorem forall₂_set {α β : Type} {R : α → β → Prop} {xs : List α} {ys : List β}
    (all : List.Forall₂ R xs ys) {x : α} {y : β} (one : R x y) (i : Nat) :
    List.Forall₂ R (xs.set i x) (ys.set i y) := by
  induction all generalizing i with
  | nil => exact .nil
  | cons first others ih =>
    cases i with
    | zero => exact .cons one others
    | succ i => exact .cons first (ih i)

/-- Changing the car of a slot's cell sets the slot. -/
theorem Mirrors.setSlot (mirrors : Mirrors P g L σ h) (frame : L.frames[f]? = some a)
    (contents : σ.frames[f]? = some slots) (seated : L.Seated h f (h.car a) slots as w) {i : Nat}
    {c : Addr} (here : as[i]? = some c) {u : Value} (means : L.Means u d)
    (size : h'.size = h.size) (old : ∀ b, b ≠ c → h'.cell b = h.cell b)
    (new : h'.cell c = ⟨u, h.cdr c⟩) (n : Nat) :
    ∃ L', Extends n L h L' h' ∧
      Mirrors P g L' (σ.setFrame f { slots with values := slots.values.set i d }) h' := by
  have slot := seated.roles i c here
  obtain ⟨⟨next, holds⟩, _⟩ := mirrors.frames f a slots frame contents
  have ne : a ≠ c := by
    rintro rfl
    rw [holds] at slot
    cases slot
  have cdrs (b : Addr) : h'.cdr b = h.cdr b := by
    by_cases same : b = c
    · rw [same, Heap.cdr, new]
    · exact congrArg Cell.cdr (old b same)
  have cars : as.map h'.car = (as.map h.car).set i u := by
    have same (b : Addr) (_ : b ∈ as) (out : b ≠ c) : h'.car b = h.car b :=
      congrArg Cell.car (old b out)
    have first : h'.car c = u := congrArg Cell.car new
    rw [map_eq_set seated.nodup here same, first]
  have seatable : Seatable L h' f as := by
    have seatable := seated.seatable mirrors
    exact ⟨seatable.1, fun b mem => by simpa [size] using seatable.2 b mem⟩
  have head : h'.car a = h.car a := congrArg Cell.car (old a ne)
  have path : Path h' (h'.car a) as w := by
    rw [head]
    exact seated.path.congr fun b _ => cdrs b
  have values : List.Forall₂ L.Means (as.map h'.car) (slots.values.set i d) := by
    rw [cars]
    exact forall₂_set seated.values means i
  refine ⟨L.seat f as, extends_seat seatable (Nat.le_of_eq size.symm) ?_ ?_, ?_⟩
  · intro b mem free
    obtain ⟨j, there⟩ := List.mem_iff_getElem?.mp mem
    rw [seated.roles j b there] at free
    cases free
  · intro b lt free
    refine old b ?_
    rintro rfl
    rw [slot] at free
    cases free
  · have others : ∀ b r, b ≠ a → L.role b = some r → (∀ i, r ≠ .slot f i) →
        h'.cell b = h.cell b := by
      intro b r _ role other
      refine old b ?_
      rintro rfl
      rw [slot] at role
      exact other i (Option.some.inj role).symm
    have both : Mirrors P g (L.seat f as)
        (σ.setFrame f { slots with values := slots.values.set i d }) h' ∧ _ :=
      mirrors.seat frame (Nat.le_of_eq size.symm) others (cdrs a) seatable path values seated.rest
    exact both.1

/-- At least that many slots; those that are added are nil. -/
def Slots.grow (slots : Slots) (count : Nat) : Slots :=
  { slots with values := slots.values ++ List.replicate (count - slots.values.length) .nil }

theorem Slots.grow_of_le {count : Nat} (le : count ≤ slots.values.length) :
    slots.grow count = slots := by
  simp [Slots.grow, Nat.sub_eq_zero_of_le le]

theorem Slots.grow_one : slots.grow (slots.values.length + 1) =
    { slots with values := slots.values ++ [.nil] } := by
  simp [Slots.grow]

theorem Slots.length_grow (count : Nat) :
    (slots.grow count).values.length = max slots.values.length count := by
  simp only [Slots.grow, List.length_append, List.length_replicate]
  omega

theorem Slots.grow_grow {i j : Nat} (le : i ≤ j) : (slots.grow i).grow j = slots.grow j := by
  rw [Slots.grow, Slots.length_grow]
  simp only [Slots.grow, List.append_assoc, List.replicate_append_replicate]
  congr 3
  omega

theorem Store.setFrame_self (contents : σ.frames[f]? = some slots) : σ.setFrame f slots = σ := by
  obtain ⟨lt, eq⟩ := List.getElem?_eq_some_iff.mp contents
  rw [Store.setFrame, ← eq, List.set_getElem_self]

theorem Store.getElem?_setFrame {slots' : Slots} (contents : σ.frames[f]? = some slots) :
    (σ.setFrame f slots').frames[f]? = some slots' := by
  obtain ⟨lt, _⟩ := List.getElem?_eq_some_iff.mp contents
  rw [Store.setFrame, List.getElem?_set_self lt]

theorem Store.setFrame_setFrame (slots slots' : Slots) :
    (σ.setFrame f slots).setFrame f slots' = σ.setFrame f slots' := by
  simp [Store.setFrame]

/-- A new cell at the end of a frame's list is one more slot. -/
theorem Mirrors.growSlot (mirrors : Mirrors P g L σ h) (frame : L.frames[f]? = some a)
    (contents : σ.frames[f]? = some slots) (seated : L.Seated h f (h.car a) slots as w)
    (size : h'.size = h.size + 1) (new : h'.car h.size = .nil)
    (others : ∀ b < h.size, b ≠ a → (∀ i, L.role b ≠ some (.slot f i)) → h'.cell b = h.cell b)
    (link : h'.cdr a = h.cdr a) (cars : ∀ b ∈ as, h'.car b = h.car b)
    (path : Path h' (h'.car a) (as ++ [h.size]) .nil) (rest : slots.rest = .nil)
    (le : n ≤ h.size) :
    ∃ L', Extends n L h L' h' ∧
      Mirrors P g L' (σ.setFrame f (slots.grow (slots.values.length + 1))) h' ∧
      L'.Seated h' f (h'.car a) (slots.grow (slots.values.length + 1)) (as ++ [h.size]) .nil := by
  obtain ⟨⟨next, holds⟩, _⟩ := mirrors.frames f a slots frame contents
  have owned : ∀ b ∈ as, b < h.size := by
    intro b mem
    obtain ⟨i, here⟩ := List.mem_iff_getElem?.mp mem
    exact mirrors.owned b _ (seated.roles i b here)
  have fresh : L.role h.size = none := by
    cases role : L.role h.size with
    | none => rfl
    | some r => exact absurd (mirrors.owned _ r role) (Nat.lt_irrefl _)
  have seatable : Seatable L h' f (as ++ [h.size]) := by
    refine ⟨List.nodup_append.mpr ⟨seated.nodup, List.nodup_singleton _, ?_⟩, fun b mem => ?_⟩
    · intro b mem c same
      rw [List.mem_singleton] at same
      subst same
      exact Nat.ne_of_lt (owned b mem)
    · rcases List.mem_append.mp mem with mem | same
      · obtain ⟨i, here⟩ := List.mem_iff_getElem?.mp mem
        exact ⟨by rw [size]; exact Nat.lt_succ_of_lt (owned b mem), .inr ⟨i, seated.roles i b here⟩⟩
      · rw [List.mem_singleton] at same
        subst same
        exact ⟨by rw [size]; exact Nat.lt_succ_self _, .inl fresh⟩
  have values : List.Forall₂ L.Means ((as ++ [h.size]).map h'.car)
      (slots.grow (slots.values.length + 1)).values := by
    have old : as.map h'.car = as.map h.car := List.map_congr_left fun b mem => cars b mem
    rw [List.map_append, old, Slots.grow_one]
    refine List.rel_append seated.values (.cons ?_ .nil)
    rw [new]
    rfl
  have same : ∀ b r, b ≠ a → L.role b = some r → (∀ i, r ≠ .slot f i) →
      h'.cell b = h.cell b := by
    intro b r ne role other
    refine others b (mirrors.owned b r role) ne fun i slot => ?_
    rw [role] at slot
    exact other i (Option.some.inj slot)
  have both := mirrors.seat frame (by omega) same link seatable path values rest
  refine ⟨_, extends_seat seatable (by omega) ?_ ?_, both⟩
  · intro b mem free
    rcases List.mem_append.mp mem with mem | same
    · obtain ⟨i, here⟩ := List.mem_iff_getElem?.mp mem
      rw [seated.roles i b here] at free
      cases free
    · rw [List.mem_singleton] at same
      subst same
      exact le
  · intro b lt free
    refine others b (Nat.lt_of_lt_of_le lt le) ?_ fun i slot => ?_
    · rintro rfl
      rw [holds] at free
      cases free
    · rw [free] at slot
      cases slot

def Reaches (P : Program) (g n : Nat) (L : Layout) (σ : Store) (h : Heap) (f : Nat) (a : Addr)
    (slots : Slots) (i : Nat) (r : Option Addr) (h' : Heap) : Prop :=
  ∃ c L' as w, r = some c ∧ Extends n L h L' h' ∧ Mirrors P g L' (σ.setFrame f slots) h' ∧
    L'.Seated h' f (h'.car a) slots as w ∧ as[i]? = some c

theorem reaches_old (mirrors : Mirrors P g L σ h) (contents : σ.frames[f]? = some slots)
    (seated : L.Seated h f (h.car a) slots as w) {i : Nat} {c : Addr} (here : as[i]? = some c)
    (n : Nat) : Reaches P g n L σ h f a (slots.grow (i + 1)) i (some c) h := by
  have lt := (List.getElem?_eq_some_iff.mp here).1
  rw [seated.length] at lt
  rw [Slots.grow_of_le lt]
  refine ⟨c, L, as, w, rfl, .refl n L h, ?_, seated, here⟩
  rw [Store.setFrame_self contents]
  exact mirrors

theorem ends_first (mirrors : Mirrors P g L σ h) (frame : L.frames[f]? = some a)
    (contents : σ.frames[f]? = some slots) (able : 0 < slots.values.length ∨ slots.rest = .nil)
    (le : n ≤ h.size) :
    Ends (Heap.follow (h.car a) (Heap.setCar a)) h
      (Reaches P g n L σ h f a (slots.grow 1) 0) OutOfRoom := by
  obtain ⟨⟨next, holds⟩, as, w, seated⟩ := mirrors.frames f a slots frame contents
  have owned := mirrors.owned a _ holds
  have count := seated.length
  rcases as with _ | ⟨c, as⟩
  · have rest : slots.rest = .nil := by
      refine able.resolve_left ?_
      rw [← count]
      exact Nat.lt_irrefl 0
    obtain rfl := seated.eq_nil rest
    have link : h.car a = .nil := seated.path.eq_of_nil
    simp only [link, Heap.follow, ends_bind, Heap.ends_alloc, Heap.setCar, Heap.ends_update,
      ends_pure]
    refine ⟨fun room => ?_, fun _ => rfl⟩
    let h' := (h.grown ⟨.nil, .nil⟩ room).updated a fun cell => { cell with car := .pair h.size }
    have holder : h'.cell a = ⟨.pair h.size, h.cdr a⟩ := by
      have lt : a < (h.grown ⟨.nil, .nil⟩ room).size := by
        rw [Heap.size_grown]
        exact Nat.lt_succ_of_lt owned
      rw [Heap.cell_updated_self lt, Heap.cell_grown_of_lt owned]
      rfl
    have new : h'.cell h.size = ⟨.nil, .nil⟩ := by
      rw [Heap.cell_updated_of_ne (Nat.ne_of_gt owned), Heap.cell_grown_size]
    have path : Path h' (h'.car a) ([] ++ [h.size]) .nil := by
      rw [Heap.car, holder]
      refine .cons ?_
      rw [Heap.cdr, new]
      exact .nil
    have others (b : Addr) (lt : b < h.size) (ne : b ≠ a)
        (_ : ∀ i, L.role b ≠ some (.slot f i)) : h'.cell b = h.cell b := by
      rw [Heap.cell_updated_of_ne ne, Heap.cell_grown_of_lt lt]
    have next : h'.cdr a = h.cdr a := by rw [Heap.cdr, holder]
    obtain ⟨L', ext, mirrors', seated'⟩ := mirrors.growSlot frame contents seated (by simp [h'])
      (congrArg Cell.car new) others next (by simp) path rest le
    rw [← count] at mirrors' seated'
    exact ⟨h.size, L', _, _, rfl, ext, mirrors', seated', rfl⟩
  · have link := seated.path.uncons.1
    rw [link] at seated ⊢
    exact reaches_old mirrors contents (by rwa [link]) rfl n

theorem ends_next (mirrors : Mirrors P g L σ h) (frame : L.frames[f]? = some a)
    (contents : σ.frames[f]? = some slots) (seated : L.Seated h f (h.car a) slots as w) {i : Nat}
    {c : Addr} (here : as[i]? = some c)
    (able : i + 1 < slots.values.length ∨ slots.rest = .nil) (le : n ≤ h.size) :
    Ends (Heap.follow (h.cdr c) (Heap.setCdr c)) h
      (Reaches P g n L σ h f a (slots.grow (i + 2)) (i + 1)) OutOfRoom := by
  obtain ⟨⟨next, holds⟩, _⟩ := mirrors.frames f a slots frame contents
  have slot := seated.roles i c here
  have owned := mirrors.owned c _ slot
  have count := seated.length
  have lt := (List.getElem?_eq_some_iff.mp here).1
  have after := seated.path.after here
  rcases Nat.lt_or_ge (i + 1) as.length with more | last
  · have there := List.getElem?_eq_getElem more
    have rest := List.drop_eq_getElem_cons more
    rw [rest] at after
    have link := after.uncons.1
    rw [link]
    exact reaches_old mirrors contents seated there n
  · have all : i + 1 = as.length := by omega
    have rest : slots.rest = .nil := able.resolve_left (by omega)
    obtain rfl := seated.eq_nil rest
    rw [List.drop_eq_nil_of_le last] at after
    have link : h.cdr c = .nil := after.eq_of_nil
    simp only [link, Heap.follow, ends_bind, Heap.ends_alloc, Heap.setCdr, Heap.ends_update,
      ends_pure]
    refine ⟨fun room => ?_, fun _ => rfl⟩
    have ne : a ≠ c := by
      rintro rfl
      rw [holds] at slot
      cases slot
    have old (b : Addr) (lt : b < h.size) (ne : b ≠ c) : (h.lengthened c room).cell b = h.cell b := by
      rw [Heap.cell_lengthened room owned, if_neg ne]
    have holder := old a (mirrors.owned a _ holds) ne
    have blank : (h.lengthened c room).car h.size = .nil := by
      rw [Heap.car_lengthened room owned, Heap.car, Heap.cell_of_le (Nat.le_refl _)]
    have path : Path (h.lengthened c room) ((h.lengthened c room).car a) (as ++ [h.size]) .nil := by
      have chain := (seated.path.chain rfl).lengthened owned link room
      rw [if_pos (List.mem_of_getElem? here)] at chain
      rw [Heap.car_lengthened room owned]
      exact .of_chain chain
    obtain ⟨L', ext, mirrors', seated'⟩ := mirrors.growSlot frame contents seated (by simp) blank
      (fun b lt _ other => old b lt fun eq => other i (eq ▸ slot)) (congrArg Cell.cdr holder)
      (fun b _ => Heap.car_lengthened room owned b) path rest le
    rw [← count, ← all] at mirrors' seated'
    refine ⟨h.size, L', _, _, rfl, ext, mirrors', seated', ?_⟩
    rw [all, List.getElem?_concat_length]

theorem Reaches.after {slots' slots'' : Slots} {L' : Layout} {i : Nat} {r : Option Addr} {h'' : Heap}
    (ext : Extends n L h L' h') (reaches : Reaches P g n L' (σ.setFrame f slots') h' f a slots'' i r h'') :
    Reaches P g n L σ h f a slots'' i r h'' := by
  obtain ⟨c, L'', as, w, eq, ext', mirrors, seated, here⟩ := reaches
  rw [Store.setFrame_setFrame] at mirrors
  exact ⟨c, L'', as, w, eq, ext.trans ext', mirrors, seated, here⟩

theorem ends_extendTo (steps : Nat) {i : Nat} {c : Addr} (mirrors : Mirrors P g L σ h)
    (frame : L.frames[f]? = some a) (contents : σ.frames[f]? = some slots)
    (seated : L.Seated h f (h.car a) slots as w) (here : as[i]? = some c)
    (able : i + steps < slots.values.length ∨ slots.rest = .nil) (le : n ≤ h.size) :
    Ends (Heap.extendTo steps c) h
      (Reaches P g n L σ h f a (slots.grow (i + steps + 1)) (i + steps)) OutOfRoom := by
  induction steps generalizing L σ h slots as w i c with
  | zero => exact reaches_old mirrors contents seated here n
  | succ steps ih =>
    have step := ends_next mirrors frame contents seated here
      (able.imp_left fun lt => by omega) le
    simp only [Heap.extendTo, ends_bind, Heap.ends_read]
    refine step.mono (fun r h' reaches => ?_) fun _ _ => id
    obtain ⟨c', L', as', w', rfl, ext, mirrors', seated', here'⟩ := reaches
    have grown : i + 1 + steps < (slots.grow (i + 2)).values.length ∨
        (slots.grow (i + 2)).rest = .nil := by
      refine able.imp_left fun lt => ?_
      rw [Slots.length_grow]
      omega
    have rest := ih mirrors' (getElem?_mono ext.frames frame) (Store.getElem?_setFrame contents)
      seated' here' grown (Nat.le_trans le ext.size_le)
    rw [Slots.grow_grow (by omega), show i + 1 + steps = i + (steps + 1) by omega] at rest
    exact rest.mono (fun r h'' reaches => reaches.after ext) fun _ _ => id

theorem Slots.eq_of_set? {index : Nat} {slots' : Slots} (set : slots.set? index d = some slots')
    (positive : 0 < index) : (index ≤ slots.values.length ∨ slots.rest = .nil) ∧
      slots' = { slots with values := (slots.grow index).values.set (index - 1) d } := by
  rw [Slots.set?] at set
  split at set
  next le =>
    cases set
    rw [Slots.grow_of_le le]
    exact ⟨.inl le, rfl⟩
  next lt =>
    split at set
    next rest =>
      cases set
      refine ⟨.inr rest, ?_⟩
      have one : index - slots.values.length = index - 1 - slots.values.length + 1 := by omega
      have place : index - 1 = (slots.values ++
          List.replicate (index - 1 - slots.values.length) Datum.nil).length := by
        simp only [List.length_append, List.length_replicate]
        omega
      rw [Slots.grow, one, List.replicate_succ', ← List.append_assoc]
      dsimp only
      rw [List.set_append_right _ _ (by rw [← place]), ← place, Nat.sub_self]
      rfl
    next => cases set

/-- A store sets the slot of a binding, in a frame that may have to grow. -/
theorem ends_store (mirrors : Mirrors P g L σ h) (bound : BoundAt L h E depth b)
    (contents : σ.frames[b.frame]? = some slots) {slots' : Slots}
    (set : slots.set? b.index d = some slots') (means : L.Means w d) (le : n ≤ h.size) :
    Ends (Heap.store E depth b.index w) h
      (fun found h' => found = true ∧
        ∃ L', Extends n L h L' h' ∧ Mirrors P g L' (σ.setFrame b.frame slots') h') OutOfRoom := by
  obtain ⟨positive, few, a, holder, frame⟩ := bound
  obtain ⟨able, rfl⟩ := Slots.eq_of_set? set positive.2
  obtain ⟨i, eq⟩ : ∃ i, b.index = i + 1 := ⟨b.index - 1, by omega⟩
  rw [eq] at able ⊢
  have first := ends_first mirrors frame contents (able.imp_left fun le => by omega) le
  rw [Heap.store, if_neg (Nat.succ_ne_zero i)]
  simp only [ends_bind, Heap.ends_read, holder]
  refine first.mono (fun r h₁ reaches => ?_) fun _ _ => id
  obtain ⟨c, L₁, as₁, w₁, rfl, ext₁, mirrors₁, seated₁, here₁⟩ := reaches
  have grown : 0 + i < (slots.grow 1).values.length ∨ (slots.grow 1).rest = .nil := by
    refine able.imp_left fun lt => ?_
    rw [Slots.length_grow]
    omega
  have second := ends_extendTo i mirrors₁ (getElem?_mono ext₁.frames frame)
    (Store.getElem?_setFrame contents) seated₁ here₁ grown (Nat.le_trans le ext₁.size_le)
  rw [Slots.grow_grow (by omega), Nat.zero_add] at second
  simp only [ends_bind, Nat.add_sub_cancel]
  refine second.mono (fun r h₂ reaches => ?_) fun _ _ => id
  obtain ⟨c₂, L₂, as₂, w₂, rfl, ext₂, mirrors₂, seated₂, here₂⟩ := reaches.after ext₁
  have owned : c₂ < h₂.size := mirrors₂.owned _ _ (seated₂.roles i c₂ here₂)
  simp only [ends_bind, Heap.setCar, Heap.ends_update, ends_pure]
  have new : (h₂.updated c₂ fun cell => { cell with car := w }).cell c₂ = ⟨w, h₂.cdr c₂⟩ := by
    rw [Heap.cell_updated_self owned]
    rfl
  obtain ⟨L₃, ext₃, mirrors₃⟩ := mirrors₂.setSlot (getElem?_mono ext₂.frames frame)
    (Store.getElem?_setFrame contents) seated₂ here₂ (means.mono ext₂.objects) (by simp)
    (fun b ne => Heap.cell_updated_of_ne ne _) new n
  rw [Store.setFrame_setFrame] at mirrors₃
  exact ⟨trivial, L₃, ext₂.trans ext₃, mirrors₃⟩

end Reference

end SecdLisp
