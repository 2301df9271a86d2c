import SecdLisp.Proofs.Reference.Frames

/-!
# Argument lists

The machine builds an argument list on its stack. It then becomes a list of the program, or a
frame, or the plain part of a frame with the rest as a list of the program.
-/

namespace SecdLisp

namespace Reference

open Layout

variable {P : Program} {g n m : Nat} {L L' : Layout} {σ σ' : Store} {h h' : Heap} {v w : Value}
  {d : Datum} {ds : List Datum} {as : List Addr}

/-- A list whose cells have no role and lie between two addresses. -/
structure Loose (L : Layout) (h : Heap) (n m : Nat) (v : Value) (ds : List Datum)
    (as : List Addr) : Prop where
  spine : h.Spine v as
  free : ∀ a ∈ as, n ≤ a ∧ a < m ∧ L.role a = none
  values : List.Forall₂ L.Means (as.map h.car) ds

theorem Loose.keep (loose : Loose L h n m v ds as) {k : Nat} (ext : Extends k L h L' h')
    (le : m ≤ k) : Loose L' h' n m v ds as := by
  have below (a : Addr) (mem : a ∈ as) : a < k :=
    Nat.lt_of_lt_of_le (loose.free a mem).2.1 le
  have same (a : Addr) (mem : a ∈ as) : h'.cell a = h.cell a :=
    ext.quiet a (below a mem) (loose.free a mem).2.2
  have cars : as.map h'.car = as.map h.car :=
    List.map_congr_left fun a mem => congrArg Cell.car (same a mem)
  refine ⟨loose.spine.congr ext.size_le fun a mem => congrArg Cell.cdr (same a mem),
    fun a mem => ?_, ?_⟩
  · obtain ⟨low, high, free⟩ := loose.free a mem
    exact ⟨low, high, ext.idle a (below a mem) free⟩
  · rw [cars]
    exact loose.values.imp fun _ _ means => means.mono ext.objects

theorem means_newest (L : Layout) (a : Addr) (c : Cell) :
    (L.adopt a c).Means (.pair a) (.object L.objects.length) :=
  ⟨_, rfl, List.getElem?_concat_length ..⟩

/-- An argument list becomes a list of the program where it is. -/
theorem makeList_spec (mirrors : Mirrors P g L σ h) (loose : Loose L h n m v ds as)
    (made : makeList ds σ = some (d, σ')) :
    ∃ L', Extends n L h L' h ∧ Mirrors P g L' σ' h ∧ L'.Means v d ∧
      ∀ b ∉ as, L'.role b = L.role b := by
  induction ds generalizing v as d σ' with
  | nil =>
    cases made
    have none : as = [] := by
      have values := loose.values
      cases as with
      | nil => rfl
      | cons _ _ => cases values
    subst none
    have spine := loose.spine
    cases spine
    exact ⟨L, .refl n L h, mirrors, rfl, fun _ _ => rfl⟩
  | cons e ds ih =>
    obtain ⟨spine, free, values⟩ := loose
    cases spine with
    | nil => cases values
    | @cons a as owned rest =>
      obtain ⟨first, others⟩ := List.forall₂_cons.mp values
      obtain ⟨r, σ₁, inner, created⟩ := EvalM.bind_eq_some.mp made
      cases created
      have tail : Loose L h n m (h.cdr a) ds as :=
        ⟨rest, fun b mem => free b (List.mem_cons_of_mem _ mem), others⟩
      obtain ⟨L₁, ext₁, mirrors₁, means₁, same₁⟩ := ih tail inner
      have out : a ∉ as := (List.nodup_cons.mp (Heap.Spine.cons owned rest).nodup).1
      obtain ⟨low, high, idle⟩ := free a (List.mem_cons_self ..)
      have idle₁ : L₁.role a = none := by rw [same₁ a out, idle]
      have portrays : L₁.Portrays P g (h.cell a) (.pair e r) :=
        .pair (first.mono ext₁.objects) means₁
      refine ⟨_, ext₁.trans (extends_adopt idle₁ low h _), mirrors₁.adopt owned idle₁ portrays, ?_,
        fun b notIn => ?_⟩
      · rw [← mirrors₁.objectCount]
        exact means_newest ..
      · rw [List.mem_cons, not_or] at notIn
        have kept : (L₁.adopt a (h.cell a)).role b = L₁.role b := if_neg notIn.1
        rw [kept, same₁ b notIn.2]

/-- Cells that can become a frame with these contents. -/
structure Spare (L : Layout) (h : Heap) (n m : Nat) (v : Value) (slots : Slots) (as : List Addr)
    (w : Value) : Prop where
  path : Path h v as w
  nodup : as.Nodup
  free : ∀ a ∈ as, n ≤ a ∧ a < m ∧ L.role a = none
  values : List.Forall₂ L.Means (as.map h.car) slots.values
  rest : L.Means w slots.rest

theorem Heap.Spine.split (spine : h.Spine v as) (k : Nat) :
    ∃ w, Path h v (as.take k) w ∧ h.Spine w (as.drop k) := by
  induction k generalizing v as with
  | zero => exact ⟨v, .nil, spine⟩
  | succ k ih =>
    cases spine with
    | nil => exact ⟨.nil, .nil, .nil⟩
    | cons owned rest =>
      obtain ⟨w, path, spine⟩ := ih rest
      exact ⟨w, .cons path, spine⟩

/-- An argument list becomes the contents of a frame; what a rest parameter takes becomes a list
of the program. -/
theorem bindArguments_spec (mirrors : Mirrors P g L σ h) (loose : Loose L h n m v ds as)
    {params : Frame} {slots : Slots} (bound : bindArguments params ds σ = some (slots, σ')) :
    ∃ L' as' w, Extends n L h L' h ∧ Mirrors P g L' σ' h ∧ Spare L' h n m v slots as' w := by
  rcases found : params.findIdx? isRest with _ | before <;> rw [bindArguments, found] at bound
  · cases bound
    exact ⟨L, as, .nil, .refl n L h, mirrors,
      ⟨.of_spine loose.spine, loose.spine.nodup, loose.free, loose.values, rfl⟩⟩
  · obtain ⟨r, σ₁, made, eq⟩ := EvalM.bind_eq_some.mp bound
    cases eq
    obtain ⟨u, path, rest⟩ := Heap.Spine.split loose.spine before
    have values : List.Forall₂ L.Means ((as.drop before).map h.car) (ds.drop before) := by
      rw [List.map_drop]
      exact List.forall₂_drop before loose.values
    have tail : Loose L h n m u (ds.drop before) (as.drop before) :=
      ⟨rest, fun a mem => loose.free a (List.mem_of_mem_drop mem), values⟩
    obtain ⟨L', ext, mirrors', means, same⟩ := makeList_spec mirrors tail made
    have nodup := loose.spine.nodup
    have apart (a : Addr) (mem : a ∈ as.take before) : a ∉ as.drop before :=
      List.disjoint_take_drop nodup (Nat.le_refl _) mem
    refine ⟨L', as.take before, u, ext, mirrors', ⟨path, nodup.sublist (List.take_sublist ..),
      fun a mem => ?_, ?_, means⟩⟩
    · obtain ⟨low, high, free⟩ := loose.free a (List.mem_of_mem_take mem)
      exact ⟨low, high, by rw [same a (apart a mem), free]⟩
    · rw [List.map_take]
      exact (List.forall₂_take before loose.values).imp fun _ _ means => means.mono ext.objects

theorem Spare.grows {slots : Slots} {as : List Addr} {w : Value}
    (spare : Spare L h n m v slots as w) (grows : h.Grows h') (le : m ≤ h.size) :
    Spare L h' n m v slots as w := by
  have same (a : Addr) (mem : a ∈ as) : h'.cell a = h.cell a :=
    grows.cell a (Nat.lt_of_lt_of_le (spare.free a mem).2.1 le)
  have cars : as.map h'.car = as.map h.car :=
    List.map_congr_left fun a mem => congrArg Cell.car (same a mem)
  refine ⟨spare.path.congr fun a mem => congrArg Cell.cdr (same a mem), spare.nodup, spare.free, ?_,
    spare.rest⟩
  rw [cars]
  exact spare.values

theorem Spare.seatable {f : Nat} {slots : Slots} (spare : Spare L h n m v slots as w)
    (le : m ≤ h'.size) (same : ∀ a < m, L'.role a = L.role a) : Seatable L' h' f as := by
  refine ⟨spare.nodup, fun a mem => ?_⟩
  obtain ⟨_, high, free⟩ := spare.free a mem
  exact ⟨Nat.lt_of_lt_of_le high le, .inl (by rw [same a high, free])⟩

theorem Store.setFrame_addFrame (slots slots' : Slots) :
    (σ.addFrame slots).setFrame σ.frames.length slots' = σ.addFrame slots' := by
  simp [Store.addFrame, Store.setFrame]

theorem Mirrors.fresh (mirrors : Mirrors P g L σ h) {a : Addr} (le : h.size ≤ a) :
    L.role a = none := by
  cases role : L.role a with
  | none => rfl
  | some r => exact absurd (mirrors.owned a r role) (Nat.not_lt_of_le le)

theorem Mirrors.fill (mirrors : Mirrors P g L σ h) {f : Nat} {a : Addr} {slots : Slots}
    (frame : L.frames[f]? = some a) (spare : Spare L h n m v slots as w) (le : m ≤ h.size) :
    ∃ L', Extends n L h L' (h.updated a fun c => { c with car := v }) ∧
      Mirrors P g L' (σ.setFrame f slots) (h.updated a fun c => { c with car := v }) ∧
      ∀ b, m ≤ b → L.role b = none → L'.role b = none := by
  let h' := h.updated a fun c => { c with car := v }
  have known : f < σ.frames.length := by
    rw [← mirrors.frameCount]
    exact (List.getElem?_eq_some_iff.mp frame).1
  obtain ⟨⟨next, holds⟩, _⟩ := mirrors.frames f a _ frame (List.getElem?_eq_getElem known)
  have cell : h'.cell a = ⟨v, h.cdr a⟩ := Heap.cell_updated_self (mirrors.owned a _ holds) _
  have old (b : Addr) (ne : b ≠ a) : h'.cell b = h.cell b := Heap.cell_updated_of_ne ne _
  have out (b : Addr) (free : L.role b = none) : b ≠ a := by
    rintro rfl
    rw [holds] at free
    cases free
  have owned (b : Addr) (mem : b ∈ as) : h'.cell b = h.cell b :=
    old b (out b (spare.free b mem).2.2)
  have seatable : Seatable L h' f as := spare.seatable (by simpa [h'] using le) fun _ _ => rfl
  have path : Path h' (h'.car a) as w := by
    rw [Heap.car, cell]
    exact spare.path.congr fun b mem => congrArg Cell.cdr (owned b mem)
  have values : List.Forall₂ L.Means (as.map h'.car) slots.values := by
    have cars : as.map h'.car = as.map h.car :=
      List.map_congr_left fun b mem => congrArg Cell.car (owned b mem)
    rw [cars]
    exact spare.values
  have both := mirrors.seat frame (by simp [h']) (fun b _ ne _ _ => old b ne)
    (by rw [Heap.cdr, cell]) seatable path values spare.rest
  refine ⟨_, extends_seat seatable (by simp) (fun b mem _ => (spare.free b mem).1)
    fun b _ free => old b (out b free), both.1, fun b high free => ?_⟩
  refine role_seat_of_free free fun mem => ?_
  exact Nat.not_lt_of_le high (spare.free b mem).2.1

theorem Mirrors.enterEmpty (mirrors : Mirrors P g L σ h) (low : n ≤ h.size)
    (room : h.size < h.capacity) {locals : Locals} {params : Frame} {E : Value}
    (env : L.EnvAt g locals E) (few : params.length < 2 ^ 63) :
    Extends n L h (L.hold h.size E) (h.grown ⟨.nil, E⟩ room) ∧
      Mirrors P g (L.hold h.size E) (σ.addFrame .empty) (h.grown ⟨.nil, E⟩ room) ∧
      (L.hold h.size E).EnvAt g ((params, σ.frames.length) :: locals) (.pair h.size) ∧
      (L.hold h.size E).frames[σ.frames.length]? = some h.size := by
  have fresh := mirrors.fresh (Nat.le_refl h.size)
  have grows := Heap.grows_grown h ⟨.nil, E⟩ room
  have cell := Heap.cell_grown_size h ⟨.nil, E⟩ room
  have owned : h.size < (h.grown ⟨.nil, E⟩ room).size := by
    rw [Heap.size_grown]
    exact Nat.lt_succ_self _
  have ext : Extends n L h (L.hold h.size E) (h.grown ⟨.nil, E⟩ room) :=
    (Extends.of_grows grows low L).trans (extends_hold fresh low _ E)
  have held := (mirrors.grows grows).hold owned fresh (congrArg Cell.car cell)
  rw [show (h.grown ⟨.nil, E⟩ room).cdr h.size = E from congrArg Cell.cdr cell] at held
  obtain ⟨inner, older⟩ := env.frames_lt
  have frame : (L.hold h.size E).frames[L.frames.length]? = some h.size :=
    List.getElem?_concat_length ..
  have env' : (L.hold h.size E).EnvAt g ((params, L.frames.length) :: locals) (.pair h.size) :=
    .within frame (mark_self ..) few older inner (env.mono ext)
  rw [mirrors.frameCount] at frame env'
  exact ⟨ext, held, env', frame⟩

/-- A new cell in front of an environment holds a new frame: it is first empty, and then takes the
arguments. -/
theorem Mirrors.enter (mirrors : Mirrors P g L σ h) {slots : Slots}
    (spare : Spare L h n m v slots as w) (le : m ≤ h.size) (low : n ≤ h.size)
    (room : h.size < h.capacity) {locals : Locals} {params : Frame} {E : Value}
    (env : L.EnvAt g locals E) (few : params.length < 2 ^ 63) :
    ∃ L', Extends n L h L' (h.grown ⟨v, E⟩ room) ∧
      Mirrors P g L' (σ.addFrame slots) (h.grown ⟨v, E⟩ room) ∧
      L'.EnvAt g ((params, σ.frames.length) :: locals) (.pair h.size) ∧
      ∀ b, m ≤ b → b ≠ h.size → L.role b = none → L'.role b = none := by
  obtain ⟨ext, mirrors₀, env₀, frame⟩ := mirrors.enterEmpty low room env few
  have keeps (b : Addr) (ne : b ≠ h.size) : (L.hold h.size E).role b = L.role b := if_neg ne
  have spare₀ : Spare (L.hold h.size E) (h.grown ⟨.nil, E⟩ room) n m v slots as w := by
    obtain ⟨path, nodup, free, values, rest⟩ := spare.grows (Heap.grows_grown h ⟨.nil, E⟩ room) le
    refine ⟨path, nodup, fun a mem => ?_, values, rest⟩
    rw [keeps a (Nat.ne_of_lt (Nat.lt_of_lt_of_le (free a mem).2.1 le))]
    exact free a mem
  obtain ⟨L', ext', mirrors', idle⟩ := mirrors₀.fill frame spare₀ (Nat.le_trans le ext.size_le)
  rw [Heap.updated_grown] at ext' mirrors'
  rw [Store.setFrame_addFrame] at mirrors'
  refine ⟨L', ext.trans ext', mirrors', env₀.mono ext', fun b high ne free => idle b high ?_⟩
  rw [keeps b ne, free]

end Reference

end SecdLisp
