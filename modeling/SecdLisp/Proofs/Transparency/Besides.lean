import SecdLisp.Proofs.Transparency.Aside
import SecdLisp.Proofs.Transparency.Script

/-!
# Two computations, and cells that only one of them has

The second of two computations has cells of its own, set aside in the heap that it starts from. Until
it comes to them, they correspond to none of the first.
-/

namespace SecdLisp

namespace Parallel

open World Compile

variable {ω α β : Type} {symbols : SymbolTable} {aside : Addr → Prop} {base : Heap} {w w' : World}
  {h h' : Heap} {v v' k k' : Value}

/-- What corresponds outside of the cells that the second side has set aside. -/
def World.outside (w : World) (aside : Addr → Prop) : World :=
  { w with cells := fun a b => w.cells a b ∧ ¬aside b }

theorem World.Names.outside {i j : Symbol} (names : w.Names i j) : (w.outside aside).Names i j :=
  ⟨names.left, names.right, names.same⟩

theorem World.Values.outside (values : w.Values v v') (avoids : v'.Avoids aside) :
    (w.outside aside).Values v v' := by
  cases values with
  | nil => exact .nil
  | truth => exact .truth
  | int n => exact .int n
  | ident names => exact .ident names.outside
  | op o => exact .op o
  | pair cells => exact .pair ⟨cells, Value.avoids_pair_iff.mp avoids⟩

theorem World.Frames.outside {f f' : Frame} (frames : w.Frames f f') :
    (w.outside aside).Frames f f' := by
  refine frames.imp fun _ _ formals => ?_
  cases formals with
  | plain names => exact .plain names.outside
  | rest names => exact .rest names.outside

theorem World.Machines.outside {r r' : Registers} (machines : w.Machines r r')
    (bear : Machine.Bear (Value.Avoids aside) r') : (w.outside aside).Machines r r' :=
  ⟨machines.stack.outside bear.stack, machines.env.outside bear.env,
    machines.code.outside bear.code, machines.dump.outside bear.dump⟩

theorem World.Errors.outside {e e' : Error} (errors : w.Errors e e') (avoids : e'.Avoids aside) :
    (w.outside aside).Errors e e' := by
  cases errors with
  | runtime machines => exact .runtime (machines.outside (avoids _ rfl))
  | other none => exact .other none

theorem World.Heaps.outside (heaps : w.Heaps h h') (sets : Heap.SetsAside aside base h')
    (loose : ¬w.exact) : (w.outside aside).Heaps h h' where
  owned a b cells := heaps.owned a b cells.1
  injective a a' b first second := heaps.injective a a' b first.1 second.1
  functional a b b' first second := heaps.functional a b b' first.1 second.1
  cars a b cells := (heaps.cars a b cells.1).outside (sets.cars b cells.2)
  cdrs a b cells := (heaps.cdrs a b cells.1).outside (sets.cdrs b cells.2)
  exact exact := (loose exact).elim

/-- The states correspond, and no cell that is set aside on the second side corresponds to one of the
first. -/
structure Besides (symbols : SymbolTable) (aside : Addr → Prop) (base : Heap) (w : World)
    (s s' : State ω) : Prop where
  states : OnStates symbols symbols w s s'
  sets : Heap.SetsAside aside base s'.heap
  apart : ∀ a b, w.cells a b → ¬aside b
  loose : ¬w.exact

variable {s s' : State ω}

theorem Besides.avoids (besides : Besides symbols aside base w s s') (values : w.Values v v') :
    v'.Avoids aside := by
  rintro b rfl
  cases values with
  | pair cells => exact besides.apart _ b cells

theorem OnStates.outside (states : OnStates symbols symbols w s s')
    (sets : Heap.SetsAside aside base s'.heap) (env : s'.globals.env.Avoids aside)
    (loose : ¬w.exact) : Besides symbols aside base (w.outside aside) s s' where
  states :=
    { heaps := ⟨states.heaps.left, states.heaps.right, states.heaps.heaps.outside sets loose⟩
      globals := ⟨states.globals.env.outside env,
        states.globals.functions.imp fun _ _ names => names.outside,
        states.globals.macros.imp fun _ _ names => names.outside⟩ }
  sets := sets
  apart _ _ cells := cells.2
  loose := loose

/-- What corresponds stays outside of the cells set aside if the second side keeps away from them. -/
theorem Sim.besides {P Q : World → α → β → Prop} {p : Unit → β → Prop} {x : CompileM ω α}
    {y : CompileM ω β} (sim : Sim (OnStates symbols symbols) w P x y)
    (keeps : (settingAside aside base).Keeps () p y)
    (values : ∀ w' a b, P w' a b → p () b → Q (w'.outside aside) a b) :
    Sim (Besides symbols aside base) w Q x y := by
  intro s s' both
  have agree := sim s s' both.states
  have ends := keeps s' ⟨both.sets, both.avoids both.states.globals.env⟩
  have within {w' : World} (le : w.Within w') : w.Within (w'.outside aside) :=
    ⟨fun a b cells => ⟨le.cells a b cells, both.apart a b cells⟩, le.left, le.right, le.exact⟩
  have loose {w' : World} (le : w.Within w') : ¬w'.exact := fun exact =>
    both.loose (le.exact.mp exact)
  unfold Ends at ends
  generalize x s = r at agree ⊢
  generalize y s' = r' at agree ends ⊢
  cases agree with
  | ok le states both =>
    obtain ⟨_, _, ⟨sets, env⟩, value⟩ := ends
    exact .ok (within le) (states.outside sets env (loose le)) (values _ _ _ both value)
  | error le states errors =>
    obtain ⟨_, _, ⟨sets, env⟩, avoids⟩ := ends
    exact .error (within le) (states.outside sets env (loose le)) (errors.outside avoids)
  | leftFull loose => exact .leftFull loose
  | rightFull loose => exact .rightFull loose

/-- The case where the values of the world avoid the cells set aside. -/
theorem sim_apart {Q : World → α → β → Prop} {x : CompileM ω α} {y : CompileM ω β}
    (sim : (∀ v v', w.Values v v' → v'.Avoids aside) → Sim (Besides symbols aside base) w Q x y) :
    Sim (Besides symbols aside base) w Q x y :=
  fun s s' both => sim (fun _ _ values => both.avoids values) s s' both

theorem Sim.besides_values {x y : CompileM ω Value}
    (sim : Sim (OnStates symbols symbols) w World.Values x y)
    (keeps : (settingAside aside base).Keeps () (fun _ => Value.Avoids aside) y) :
    Sim (Besides symbols aside base) w World.Values x y :=
  sim.besides keeps fun _ _ _ values avoids => values.outside avoids

variable {ctx ctx' : Context ω} {recorder : Recorder ω} {room : Nat}

section Contexts

variable (contexts : Contexts symbols symbols w ctx ctx')

include contexts

theorem besides_expression (fine : Takes.Fine recorder room ctx') (values : w.Values v v')
    (rest : w.Values k k') : Sim (Besides symbols aside base) w World.Values
      (expression room ctx v k) (expression room ctx' v' k') :=
  sim_apart fun avoids =>
    (parts_expression room w _ _ _ _ _ _ contexts values rest).besides_values
      ((takes_settingAside aside base recorder).keeps_expression room () ctx' v' k' [] .nothing fine
        (avoids _ _ values) (avoids _ _ rest))

end Contexts

end Parallel

end SecdLisp
