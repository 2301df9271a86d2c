import SecdLisp.Proofs.Text.Build

/-!
# A record of unquote marks

A comma makes a mark, and a backquote takes marks off when it expands its template. To tell the
marks apart, putting a form together is repeated here with a record of them: which marks are made,
each with the backquote that its comma matches by nesting, and which are taken off, each with the
backquote that takes it off. The record changes nothing else.
-/

namespace SecdLisp

namespace Template

/-- `expandWithin` with the cells of the marks that it takes off. -/
def expandWithinTraced : (height : Nat) → Value → HeapM (Value × List Addr)
  | 0, _ => throw (.parse .improperTemplate)
  | height + 1, .pair a => do
    if (← Heap.read (·.car a)) = .ident .unquote then
      match ← Heap.read fun h => h.carOf? (h.cdr a) with
      | some v => return (v, [a])
      | none => throw (.parse .malformedUnquote)
    else
      match ← Heap.read (·.toList? (.pair a)) with
      | none => throw (.parse .improperTemplate)
      | some items =>
        items.foldrM (fun item built => do
          let first ← expandWithinTraced height item
          let v ← Heap.list [.ident .cons, first.1, built.1]
          return (v, first.2 ++ built.2)) (.nil, [])
  | _ + 1, v => do return (← quoted v, [])

def expandTraced (v : Value) : HeapM (Value × List Addr) := do
  expandWithinTraced ((← Heap.read Heap.size) + 1) v

theorem fst_expandWithinTraced (height : Nat) (v : Value) :
    Prod.fst <$> expandWithinTraced height v = expandWithin height v := by
  induction height generalizing v with
  | zero => rfl
  | succ height ih =>
    have chain (items : List Value) :
        Prod.fst <$> items.foldrM (fun item built => do
          let first ← expandWithinTraced height item
          let v ← Heap.list [.ident .cons, first.1, built.1]
          return (v, first.2 ++ built.2)) (.nil, []) =
        items.foldrM (fun item built => do
          Heap.list [.ident .cons, ← expandWithin height item, built]) .nil := by
      induction items with
      | nil => rfl
      | cons item items rest =>
        rw [List.foldrM_cons, List.foldrM_cons, ← rest]
        simp [← ih]
    cases v with
    | pair a =>
      rw [expandWithinTraced, expandWithin, map_bind]
      refine bind_congr fun car => ?_
      by_cases isMark : car = .ident .unquote
      · rw [if_pos isMark, if_pos isMark, map_bind]
        refine bind_congr fun payload? => ?_
        cases payload? <;> rfl
      · rw [if_neg isMark, if_neg isMark, map_bind]
        refine bind_congr fun items? => ?_
        cases items? with
        | none => rfl
        | some items => exact chain items
    | _ => simp [expandWithinTraced, expandWithin]

theorem fst_expandTraced (v : Value) : Prod.fst <$> expandTraced v = expand v := by
  rw [expandTraced, expand, map_bind]
  simp only [fst_expandWithinTraced]

end Template

/-- The marks made so far, each with the place of the backquote that its comma matches by nesting,
and the marks taken off, each with the place of the backquote that took it off. A mark is known by
its first cell, a backquote by its place among the tokens. -/
structure Trace where
  made : List (Nat × Addr)
  taken : List (Nat × Addr)

namespace Trace

def empty : Trace := ⟨[], []⟩

/-- A comma that matches this backquote has made this mark. -/
def make (t : Trace) (backquote : Nat) : Value → Trace
  | .pair a => { t with made := (backquote, a) :: t.made }
  | _ => t

/-- This backquote has taken these marks off. -/
def take (t : Trace) (backquote : Nat) (marks : List Addr) : Trace :=
  { t with taken := marks.map (backquote, ·) ++ t.taken }

end Trace

namespace Phrase

open Reading

mutual

/-- `build` with a record of the marks, for a phrase that starts at this place and stands inside
the backquotes around it, the innermost first. A comma matches the innermost one, and what it
unquotes is outside of it. -/
def trace : (around : List Nat) → (place : Nat) → Phrase → Trace → ReadM (Value × Trace)
  | _, _, .int n, t => pure (.int n, t)
  | _, _, .word name, t => do return (← atom name, t)
  | around, place, .list items, t => do
    let (vs, t) ← traceAll around (place + 1) items t
    return (← onHeap (Heap.list vs), t)
  | around, place, .quote p, t => do
    let (v, t) ← trace around (place + 1) p t
    return (← onHeap (Template.quoted v), t)
  | around, place, .backquote p, t => do
    let (v, t) ← trace (place :: around) (place + 1) p t
    let (v, marks) ← onHeap (Template.expandTraced v)
    return (v, t.take place marks)
  | mate :: around, place, .unquote p, t => do
    let (v, t) ← trace around (place + 1) p t
    let v ← onHeap (Template.unquoted v)
    return (v, t.make mate v)
  | [], _, .unquote _, _ => fail .unquoteOutsideTemplate

def traceAll : (around : List Nat) → (place : Nat) → List Phrase → Trace →
    ReadM (List Value × Trace)
  | _, _, [], t => pure ([], t)
  | around, place, p :: ps, t => do
    let (v, t) ← trace around place p t
    let (vs, t) ← traceAll around (place + p.tokens.length) ps t
    return (v :: vs, t)

end

theorem fst_onHeap {α β : Type} (x : HeapM (α × β)) :
    Prod.fst <$> onHeap x = onHeap (Prod.fst <$> x) := by
  funext r
  obtain ⟨source, h, symbols⟩ := r
  show EStateM.map Prod.fst (onHeap x) _ = onHeap (EStateM.map Prod.fst x) _
  unfold EStateM.map onHeap
  dsimp only
  cases x h <;> rfl

theorem fst_traceAll {ps : List Phrase} {around : List Nat}
    (each : ∀ p ∈ ps, ∀ place t, Prod.fst <$> p.trace around place t = p.build) (place : Nat)
    (t : Trace) : Prod.fst <$> traceAll around place ps t = buildAll ps := by
  induction ps generalizing place t with
  | nil => simp [traceAll, buildAll]
  | cons p ps ih =>
    rw [List.forall_mem_cons] at each
    rw [traceAll, buildAll, ← each.1 place t, map_bind, bind_map_left]
    refine bind_congr fun vt => ?_
    rw [← ih each.2 (place + p.tokens.length) vt.2]
    simp

/-- The record does not change what is done. -/
theorem fst_trace {p : Phrase} {around : List Nat} (inside : p.isScoped around.length = true)
    (place : Nat) (t : Trace) : Prod.fst <$> p.trace around place t = p.build := by
  induction p generalizing around place t with
  | int n => simp [trace, build]
  | word name => simp [trace, build]
  | list items ih =>
    rw [isScoped, areScoped_iff] at inside
    rw [build, ← fst_traceAll (fun p mem => ih p mem (inside p mem)) (place + 1) t]
    simp [trace]
  | quote p ih =>
    rw [build, ← ih inside (place + 1) t]
    simp [trace]
  | backquote p ih =>
    have inner : isScoped (place :: around).length p = true := inside
    rw [build, ← ih inner (place + 1) t]
    simp [trace, ← Template.fst_expandTraced, ← fst_onHeap]
  | unquote p ih =>
    cases around with
    | nil => cases inside
    | cons mate around =>
      have inner : isScoped around.length p = true := inside
      rw [build, ← ih inner (place + 1) t]
      simp [trace]

end Phrase

end SecdLisp
