import SecdLisp.Proofs.Parallel.Heap
import SecdLisp.Text.Print

/-!
# Printing on both sides

Corresponding values print as one text. The walk along a list is bounded by the size of the heap,
but it stops for that reason only where it would stop at a pair that is being printed.
-/

namespace SecdLisp

namespace Parallel

open World Print

variable {w : World} {h h' : Heap} {v v' : Value} {path path' : Path}

def World.Paths (w : World) (path path' : Path) : Prop :=
  ∀ a b, w.cells a b → path.contains a = path'.contains b

theorem World.Heaps.insert (heaps : w.Heaps h h') (paths : w.Paths path path') {a b : Addr}
    (cells : w.cells a b) : w.Paths (path.insert a) (path'.insert b) := by
  intro c d there
  rw [Std.TreeSet.contains_insert, Std.TreeSet.contains_insert, paths c d there]
  have same : (compare a c == .eq) = (compare b d == .eq) := by
    rw [Bool.eq_iff_iff, beq_iff_eq, beq_iff_eq, Std.compare_eq_iff_eq, Std.compare_eq_iff_eq]
    constructor
    · rintro rfl
      exact heaps.functional _ _ _ cells there
    · rintro rfl
      exact heaps.injective _ _ _ cells there
  rw [same]

/-- With that much fuel, a walk ends before it has passed every cell of the heap. -/
def Covers (path : Path) (h : Heap) (fuel : Nat) : Prop :=
  ∃ seen : List Addr, seen.Nodup ∧ (∀ a ∈ seen, a < h.size ∧ path.contains a = true) ∧
    h.size ≤ fuel + seen.length

theorem covers_size (path : Path) (h : Heap) : Covers path h h.size :=
  ⟨[], List.nodup_nil, by simp, Nat.le_add_right ..⟩

theorem Covers.insert {fuel : Nat} (covers : Covers path h (fuel + 1)) {a : Addr}
    (owned : a < h.size) (new : path.contains a = false) : Covers (path.insert a) h fuel := by
  obtain ⟨seen, nodup, all, enough⟩ := covers
  refine ⟨a :: seen, List.nodup_cons.mpr ⟨?_, nodup⟩, ?_, ?_⟩
  · intro mem
    rw [(all a mem).2] at new
    cases new
  · intro b mem
    rcases List.mem_cons.mp mem with rfl | mem
    · exact ⟨owned, by simp⟩
    · exact ⟨(all b mem).1, by simp [(all b mem).2]⟩
  · rw [List.length_cons]
    omega

theorem Covers.contains (covers : Covers path h 0) {a : Addr} (owned : a < h.size) :
    path.contains a = true := by
  obtain ⟨seen, nodup, all, enough⟩ := covers
  by_contra out
  have fresh : a ∉ seen := fun mem => out (all a mem).2
  have le : (a :: seen).length ≤ h.size := by
    refine Heap.length_le_of_nodup (List.nodup_cons.mpr ⟨fresh, nodup⟩) ?_
    intro b mem
    rcases List.mem_cons.mp mem with rfl | mem
    · exact owned
    · exact (all b mem).1
  rw [List.length_cons] at le
  omega

theorem tail_of_contains {item : Path → Value → Output → Output} {fuel : Nat} {a : Addr}
    (here : path.contains a = true) (o : Output) :
    tail h item fuel path (.pair a) o = o.put " ..." := by
  cases fuel with
  | zero => rfl
  | succ fuel => rw [tail, here, Bool.or_true, if_pos rfl]

theorem tail_eq {item item' : Path → Value → Output → Output} (heaps : w.Heaps h h')
    (items : ∀ path path' v v' o, w.Paths path path' → w.Values v v' →
      item path v o = item' path' v' o) {fuel fuel' : Nat} (covers : Covers path h fuel)
    (covers' : Covers path' h' fuel') (paths : w.Paths path path') (values : w.Values v v')
    (o : Output) : tail h item fuel path v o = tail h' item' fuel' path' v' o := by
  induction fuel generalizing fuel' path path' v v' o with
  | zero =>
    cases values with
    | @pair a b cells =>
      have here := covers.contains (heaps.owned a b cells).1
      have there : path'.contains b = true := by rw [← paths a b cells, here]
      rw [tail_of_contains here, tail_of_contains there]
    | nil => cases fuel' <;> rfl
    | truth => cases fuel' <;> exact items _ _ _ _ _ paths .truth
    | int n => cases fuel' <;> exact items _ _ _ _ _ paths (.int n)
    | ident names => cases fuel' <;> exact items _ _ _ _ _ paths (.ident names)
    | op o => cases fuel' <;> exact items _ _ _ _ _ paths (.op o)
  | succ fuel ih =>
    cases values with
    | @pair a b cells =>
      obtain ⟨owned, owned'⟩ := heaps.owned a b cells
      have same := paths a b cells
      cases here : path.contains a with
      | true =>
        rw [here] at same
        rw [tail_of_contains here, tail_of_contains same.symm]
      | false =>
        rw [here] at same
        cases fuel' with
        | zero =>
          rw [covers'.contains owned'] at same
          cases same
        | succ fuel' =>
          rw [tail, tail, here, ← same]
          split
          · rfl
          · have inner := heaps.insert paths cells
            dsimp only
            rw [items _ _ _ _ _ inner (heaps.cars a b cells)]
            exact ih (covers.insert owned here) (covers'.insert owned' same.symm) inner
              (heaps.cdrs a b cells) _
    | nil => cases fuel' <;> rfl
    | truth => cases fuel' <;> exact items _ _ _ _ _ paths .truth
    | int n => cases fuel' <;> exact items _ _ _ _ _ paths (.int n)
    | ident names => cases fuel' <;> exact items _ _ _ _ _ paths (.ident names)
    | op o => cases fuel' <;> exact items _ _ _ _ _ paths (.op o)

theorem value_eq (heaps : w.Heaps h h') (room : Nat) (paths : w.Paths path path')
    (values : w.Values v v') (o : Output) :
    Print.value h w.left room path v o = Print.value h' w.right room path' v' o := by
  induction room generalizing path path' v v' o with
  | zero => rfl
  | succ room ih =>
    unfold Print.value
    split
    · rfl
    · cases values with
      | @pair a b cells =>
        dsimp only
        rw [paths a b cells]
        split
        · rfl
        · have inner := heaps.insert paths cells
          rw [ih inner (heaps.cars a b cells)]
          rw [tail_eq heaps (fun _ _ _ _ o paths values => ih paths values o) (covers_size _ h)
            (covers_size _ h') inner (heaps.cdrs a b cells)]
      | ident names =>
        show o.spend.put (w.left.name _) = o.spend.put (w.right.name _)
        rw [names.same]
      | _ => rfl

theorem print_eq (heaps : w.Heaps h h') (values : w.Values v v') :
    v.print h w.left = v'.print h' w.right := by
  have empty : w.Paths ∅ ∅ := fun _ _ _ => by simp
  rw [Value.print, Value.print, value_eq heaps _ empty values]

end Parallel

end SecdLisp
