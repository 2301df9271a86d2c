import SecdLisp.Proofs.Reference.Arguments

/-!
# Builtins

A builtin of the machine does to values what the evaluator's does to the data they stand for.
-/

namespace SecdLisp

namespace Reference

open Layout

variable {P : Program} {g n : Nat} {L : Layout} {σ σ' : Store} {h : Heap} {x y : Value}
  {d e r : Datum}

def Computes (P : Program) (g n : Nat) (L : Layout) (h : Heap) (d : Datum) (σ' : Store) (v : Value)
    (h' : Heap) : Prop :=
  ∃ L', Extends n L h L' h' ∧ Mirrors P g L' σ' h' ∧ L'.Means v d

theorem Mirrors.computes (mirrors : Mirrors P g L σ h) (means : L.Means x d) :
    Computes P g n L h d σ x h := ⟨L, .refl n L h, mirrors, means⟩

theorem means_int_iff {v : Value} {n : Int64} : L.Means v (.int n) ↔ v = .int n := by
  cases v <;> simp [Means, eq_comm]

theorem means_ofBool (L : Layout) (b : Bool) : L.Means (.ofBool b) (.ofBool b) := by
  cases b <;> rfl

theorem means_object_iff {v : Value} {id : Nat} :
    L.Means v (.object id) ↔ ∃ a, v = .pair a ∧ L.objects[id]? = some a := by
  cases v <;> simp [Means]

theorem isTruthy_of_means {v : Value} (means : L.Means v d) : v.isTruthy = true ↔ d ≠ .nil := by
  cases v with
  | pair a =>
    obtain ⟨id, rfl, _⟩ := means
    simp [Value.isTruthy, Value.isNil]
  | _ =>
    cases means
    simp [Value.isTruthy, Value.isNil]

/-- Values are equal if and only if the data are. -/
theorem eq_iff_of_means (mirrors : Mirrors P g L σ h) (first : L.Means x d) (second : L.Means y e) :
    x = y ↔ d = e := by
  constructor
  · rintro rfl
    cases x with
    | pair a =>
      obtain ⟨i, rfl, hi⟩ := first
      obtain ⟨j, rfl, hj⟩ := second
      have lt := (List.getElem?_eq_some_iff.mp hi).1
      rw [(List.getElem?_inj lt mirrors.distinct).mp (hi.trans hj.symm)]
    | _ =>
      cases first
      cases second
      rfl
  · rintro rfl
    cases d with
    | object id =>
      obtain ⟨a, rfl, ha⟩ := means_object_iff.mp first
      obtain ⟨b, rfl, hb⟩ := means_object_iff.mp second
      rw [Option.some.inj (ha.symm.trans hb)]
    | _ => cases x <;> cases y <;> simp_all [Means]

theorem ends_cons (mirrors : Mirrors P g L σ h) (low : n ≤ h.size) (first : L.Means x d)
    (second : L.Means y e) :
    Ends (Heap.cons x y) h
      (Computes P g n L h (.object σ.objects.length) (σ.addObject (.pair d e))) OutOfRoom := by
  rw [Heap.ends_cons]
  refine ⟨fun room => ?_, fun _ => rfl⟩
  have grows := Heap.grows_grown h ⟨x, y⟩ room
  have fresh := mirrors.fresh (Nat.le_refl h.size)
  have lt : h.size < (h.grown ⟨x, y⟩ room).size := by
    rw [Heap.size_grown]
    exact Nat.lt_succ_self _
  have portrays : L.Portrays P g ((h.grown ⟨x, y⟩ room).cell h.size) (.pair d e) := by
    rw [Heap.cell_grown_size]
    exact .pair first second
  have ext := (Extends.of_grows grows low L).trans (extends_adopt fresh low _ ⟨x, y⟩)
  have mirrors' := (mirrors.grows grows).adopt lt fresh portrays
  rw [Heap.cell_grown_size] at mirrors'
  refine ⟨_, ext, mirrors', ?_⟩
  rw [← mirrors.objectCount]
  exact means_newest ..

theorem ends_half (mirrors : Mirrors P g L σ h) {b : Builtin} {id : Nat}
    {part : Heap → Value → Option Value} (means : L.Means x (.object id))
    (known : σ.objects[id]? = some (.pair d e))
    (chosen : ∀ a u v, h.cell a = ⟨u, v⟩ → L.Means u d → L.Means v e →
      ∃ w, part h (.pair a) = some w ∧ L.Means w r) :
    Ends (b.half part x) h (Computes P g n L h r σ) OutOfRoom := by
  obtain ⟨a, rfl, here⟩ := means_object_iff.mp means
  obtain ⟨c, role, portrays⟩ := mirrors.objects id a _ here known
  have cell := mirrors.fixed a c role
  cases portrays with
  | @pair u v _ _ first second =>
    obtain ⟨w, found, means⟩ := chosen a u v cell first second
    simp only [Builtin.half, ends_bind, Heap.ends_read, found, ends_pure]
    exact mirrors.computes means

section Integers

variable {b : Builtin}

theorem integers_eq_some {m k : Int64} (made : integers d e σ = some ((m, k), σ')) :
    d = .int m ∧ e = .int k ∧ σ' = σ := by
  cases d <;> cases e <;> cases made
  exact ⟨rfl, rfl, rfl⟩

theorem ends_word (mirrors : Mirrors P g L σ h) {k : Int} (made : integer k σ = some (r, σ')) :
    Ends (b.word k) h (Computes P g n L h r σ') OutOfRoom := by
  obtain ⟨a, some, eq⟩ := EvalM.ofOption_eq_some.mp made
  obtain ⟨w, known, rfl⟩ := Option.map_eq_some_iff.mp some
  cases eq
  rw [Builtin.word, known]
  exact mirrors.computes rfl

theorem ends_arithmetic (mirrors : Mirrors P g L σ h) (f : Int → Int → Int) (first : L.Means x d)
    (second : L.Means y e) (made : arithmetic f d e σ = some (r, σ')) :
    Ends (b.arithmetic f x y) h (Computes P g n L h r σ') OutOfRoom := by
  obtain ⟨⟨m, k⟩, σ₁, both, rest⟩ := EvalM.bind_eq_some.mp made
  obtain ⟨rfl, rfl, rfl⟩ := integers_eq_some both
  obtain rfl := means_int_iff.mp first
  obtain rfl := means_int_iff.mp second
  exact ends_word mirrors rest

theorem ends_quotient (mirrors : Mirrors P g L σ h) (first : L.Means x d) (second : L.Means y e)
    (made : quotient d e σ = some (r, σ')) :
    Ends (Builtin.quotient x y) h (Computes P g n L h r σ') OutOfRoom := by
  obtain ⟨⟨m, k⟩, σ₁, both, rest⟩ := EvalM.bind_eq_some.mp made
  obtain ⟨rfl, rfl, rfl⟩ := integers_eq_some both
  obtain rfl := means_int_iff.mp first
  obtain rfl := means_int_iff.mp second
  change (if k = 0 then EvalM.undefined else integer (m.toInt.tdiv k.toInt)) _ = _ at rest
  by_cases zero : k = 0
  · rw [if_pos zero] at rest
    cases rest
  · rw [if_neg zero] at rest
    simp only [Builtin.quotient, Builtin.integers, pure_bind, if_neg zero]
    exact ends_word mirrors rest

theorem ends_comparison (mirrors : Mirrors P g L σ h) (f : Int64 → Int64 → Bool)
    (f' : Int → Int → Bool) (same : ∀ m k : Int64, f m k = f' m.toInt k.toInt)
    (first : L.Means x d) (second : L.Means y e) (made : comparison f' d e σ = some (r, σ')) :
    Ends (b.comparison f x y) h (Computes P g n L h r σ') OutOfRoom := by
  obtain ⟨⟨m, k⟩, σ₁, both, rest⟩ := EvalM.bind_eq_some.mp made
  obtain ⟨rfl, rfl, rfl⟩ := integers_eq_some both
  obtain rfl := means_int_iff.mp first
  obtain rfl := means_int_iff.mp second
  cases rest
  simp only [Builtin.comparison, Builtin.integers, pure_bind, ends_pure, same]
  exact mirrors.computes (means_ofBool ..)

end Integers

theorem ends_eq (mirrors : Mirrors P g L σ h) (first : L.Means x d) (second : L.Means y e) :
    Ends (Builtin.eq.apply x y) h (Computes P g n L h (Datum.ofBool (d = e)) σ) OutOfRoom := by
  have same : (x == y) = decide (d = e) := by
    rw [Bool.eq_iff_iff, beq_iff_eq, decide_eq_true_iff]
    exact eq_iff_of_means mirrors first second
  show Ends (pure (Value.ofBool (x == y))) h _ _
  rw [ends_pure, same]
  exact mirrors.computes (means_ofBool ..)

theorem ends_binary (mirrors : Mirrors P g L σ h) (low : n ≤ h.size) {b : Builtin}
    (first : L.Means x d) (second : L.Means y e)
    (applied : applyBuiltin b [d, e] σ = some (r, σ')) :
    Ends (b.apply x y) h (Computes P g n L h r σ') OutOfRoom := by
  cases b with
  | add => exact ends_arithmetic mirrors _ first second applied
  | sub => exact ends_arithmetic mirrors _ first second applied
  | mul => exact ends_arithmetic mirrors _ first second applied
  | div => exact ends_quotient mirrors first second applied
  | lt =>
    exact ends_comparison mirrors (fun m n => m < n) (fun m n => m < n)
      (fun _ _ => by simp [Int64.lt_iff_toInt_lt]) first second applied
  | gt =>
    exact ends_comparison mirrors (fun m n => n < m) (fun m n => m > n)
      (fun _ _ => by simp [Int64.lt_iff_toInt_lt]) first second applied
  | le =>
    exact ends_comparison mirrors (fun m n => m ≤ n) (fun m n => m ≤ n)
      (fun _ _ => by simp [Int64.le_iff_toInt_le]) first second applied
  | ge =>
    exact ends_comparison mirrors (fun m n => n ≤ m) (fun m n => m ≥ n)
      (fun _ _ => by simp [Int64.le_iff_toInt_le]) first second applied
  | eq =>
    cases applied
    exact ends_eq mirrors first second
  | cons =>
    cases applied
    exact ends_cons mirrors low first second
  | car | cdr => cases applied

theorem halves_eq_some {u v : Datum} (made : halves d σ = some ((u, v), σ')) :
    ∃ id, d = .object id ∧ σ.objects[id]? = some (.pair u v) ∧ σ' = σ := by
  cases d with
  | object id =>
    obtain ⟨o, σ₁, found, made⟩ := EvalM.bind_eq_some.mp made
    obtain ⟨o', known, eq⟩ := EvalM.object_eq_some.mp found
    cases eq
    cases o with
    | pair =>
      cases made
      exact ⟨id, rfl, known, rfl⟩
    | closure => cases made
  | _ => cases made

theorem ends_unary (mirrors : Mirrors P g L σ h) {b : Builtin} (first : L.Means x d)
    (applied : applyBuiltin b [d] σ = some (r, σ')) :
    Ends (b.apply x y) h (Computes P g n L h r σ') OutOfRoom := by
  cases b with
  | car =>
    obtain ⟨⟨u, v⟩, σ₁, found, eq⟩ := EvalM.bind_eq_some.mp applied
    obtain ⟨id, rfl, known, rfl⟩ := halves_eq_some found
    cases eq
    refine ends_half mirrors first known fun a u v cell means _ => ⟨u, ?_, means⟩
    exact congrArg (fun c => some c.car) cell
  | cdr =>
    obtain ⟨⟨u, v⟩, σ₁, found, eq⟩ := EvalM.bind_eq_some.mp applied
    obtain ⟨id, rfl, known, rfl⟩ := halves_eq_some found
    cases eq
    refine ends_half mirrors first known fun a u v cell _ means => ⟨v, ?_, means⟩
    exact congrArg (fun c => some c.cdr) cell
  | _ => cases applied

end Reference

end SecdLisp
