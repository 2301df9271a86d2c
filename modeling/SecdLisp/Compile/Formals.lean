import SecdLisp.Heap
import SecdLisp.SymbolTable

/-!
# Parameter lists

A frame names its slots. The last parameter may be a rest parameter, written `&rest name` or
`(name &rest)`; it stands for the rest of the frame from its own slot on.
-/

namespace SecdLisp

inductive Formal where
  | plain (name : Symbol)
  | rest (name : Symbol)
  deriving DecidableEq, Repr, Inhabited

def Formal.name : Formal → Symbol
  | plain name => name
  | rest name => name

abbrev Frame := List Formal

namespace Frame

def malformed {α : Type} (form : String) (reason : Malformation) : Except CompileError α :=
  .error (.malformed form reason)

/-- The name of an annotated parameter, whose only annotation is the rest marker. -/
def annotated (symbols : SymbolTable) (form : String) :
    Option (List Value) → Except CompileError Symbol
  | some [.ident name, .ident marker] =>
    if marker = .rest then .ok name
    else .error (.invalidFormal (symbols.name name) (symbols.name marker))
  | _ => malformed form .annotationShape

/-- The frame that the elements of a parameter list describe. -/
def ofItems (h : Heap) (symbols : SymbolTable) (form : String) :
    List Value → Except CompileError Frame
  | [] => .ok []
  | .ident name :: items =>
    if name = .rest then
      match items with
      | [.ident last] => .ok [.rest last]
      | _ => malformed form .restNotOneName
    else do return .plain name :: (← ofItems h symbols form items)
  | .pair a :: items => do
    let name ← annotated symbols form (h.toList? (.pair a))
    if items.isEmpty then return [.rest name] else malformed form .restNotLast
  | v :: _ => malformed form (.parameterNotName v.kind)

def ofParameters (h : Heap) (symbols : SymbolTable) (form : String) (parameters : Value) :
    Except CompileError Frame :=
  match h.toList? parameters with
  | some items => ofItems h symbols form items
  | none => malformed form .parametersNotList

/-- The frame of plain names that a binding form introduces. -/
def ofNames (form : String) : List Value → Except CompileError Frame
  | [] => .ok []
  | .ident name :: items => do return .plain name :: (← ofNames form items)
  | v :: _ => malformed form (.bindingNotName v.kind)

/-- The parts of a binding form: a frame, as many values, and a body. -/
def ofBindings (h : Heap) (form : String) :
    List Value → Except CompileError (Frame × List Value × Value)
  | [names, values, body] => do
    let some names := h.toList? names | malformed form .bindingNamesNotList
    let some values := h.toList? values | malformed form .bindingValuesNotList
    if names.length != values.length then
      malformed form (.bindingCount names.length values.length)
    return (← ofNames form names, values, body)
  | _ => malformed form .bindingShape

/-- The slot of a name in a frame, counting from one, and the parameter there. -/
def find? : Frame → Symbol → Option (Nat × Formal)
  | [], _ => none
  | f :: fs, name =>
    if f.name = name then some (1, f)
    else (find? fs name).map fun (index, g) => (index + 1, g)

end Frame

/-- Where a local name lives: the depth of its frame, its slot, and the parameter. -/
structure Place where
  depth : Nat
  index : Nat
  formal : Formal
  deriving DecidableEq, Repr, Inhabited

def Frame.locate? : List Frame → Symbol → Option Place
  | [], _ => none
  | frame :: frames, name =>
    match frame.find? name with
    | some (index, formal) => some ⟨1, index, formal⟩
    | none => (locate? frames name).map fun p => { p with depth := p.depth + 1 }

end SecdLisp
