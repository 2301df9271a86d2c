import SecdLisp.Text.Template
import SecdLisp.Text.Token

/-!
# Reading forms

A form is an expression tree, built on the heap while its text is read. Reading stops at the
first error; the cells and names made by then stay.
-/

namespace SecdLisp

/-- A text being read into a heap and a symbol table. -/
structure Reading where
  source : Source
  heap : Heap
  symbols : SymbolTable

/-- Work of a reader. A failure leaves the reader where it stopped. -/
abbrev ReadM := EStateM Error Reading

namespace Reading

/-- Forms nest at most this deep. -/
def maxNesting : Nat := 1024

@[inline] def onHeap {α : Type} (x : HeapM α) : ReadM α
  | ⟨source, heap, symbols⟩ =>
    match x heap with
    | .ok a heap => .ok a ⟨source, heap, symbols⟩
    | .error e heap => .error e ⟨source, heap, symbols⟩

def fail {α : Type} (cause : ParseError) : ReadM α := throw (.parse cause)

def next? : ReadM (Option Token)
  | ⟨source, heap, symbols⟩ =>
    match Token.next? source with
    | .ok t source => .ok t ⟨source, heap, symbols⟩
    | .error cause source => .error (.parse cause) ⟨source, heap, symbols⟩

/-- Read the next token, which must be there. -/
def next : ReadM Token := do
  match ← next? with
  | some t => return t
  | none => fail .unexpectedEnd

/-- Look at the next token. -/
def peek? : ReadM (Option Token) := fun r =>
  match Token.peek? r.source with
  | .ok t => .ok t r
  | .error cause => .error (.parse cause) r

def intern (name : String) : ReadM Symbol
  | ⟨source, heap, symbols⟩ =>
    let (symbol, symbols) := symbols.intern name
    .ok symbol ⟨source, heap, symbols⟩

/-- The value of a word that is no number. Two words are atoms, all others are names. -/
def atom (word : String) : ReadM Value := do
  if word = "nil" then return .nil
  if word = "t" then return .truth
  return .ident (← intern word)

/-- Read list elements up to the closing parenthesis. Every element takes at least one
character, so the text after the opening parenthesis bounds their number. -/
def elements (element : Token → ReadM Value) :
    (bound : List Char) → List Value → ReadM (List Value)
  | [], _ => fail .unterminatedList
  | _ :: bound, read => do
    match ← next? with
    | none => fail .unterminatedList
    | some .closing => return read.reverse
    | some t => elements element bound ((← element t) :: read)

/-- Read the expression that a comma unquotes, inside `templates + 1` templates. -/
def unquote (datum : Token → ReadM Value) : ReadM Value := do
  if (← peek?) = some .atSign then fail .unquoteSplicing
  onHeap (Template.unquoted (← datum (← next)))

/-- Read the expression that starts with this token, with room for that many nested levels and
inside that many templates. -/
def datum : (room templates : Nat) → Token → ReadM Value
  | 0, _, _ => fail .nestedTooDeeply
  | room + 1, templates, token =>
    match token with
    | .opening => do
      let bound ← fun r => .ok r.source.unread r
      onHeap (Heap.list (← elements (datum room templates) bound []))
    | .closing => fail .unexpectedClose
    | .quote => do onHeap (Template.quoted (← datum room templates (← next)))
    | .backquote => do onHeap (Template.expand (← datum room (templates + 1) (← next)))
    | .comma =>
      match templates with
      | 0 => fail .unquoteOutsideTemplate
      | outer + 1 => unquote (datum room outer)
    | .atSign => fail .unexpectedAt
    | .int n => pure (.int n)
    | .ident word => atom word

/-- Skip blanks and comments; the answer is whether the text ends there. -/
def atEnd : ReadM Bool
  | ⟨source, heap, symbols⟩ =>
    let source := source.skipBlanks
    .ok source.unread.isEmpty ⟨source, heap, symbols⟩

/-- Read the next form, or `none` at the end. -/
def form? : ReadM (Option Value) := do
  if ← atEnd then return none
  return some (← datum maxNesting 0 (← next))

/-- Read forms up to the end; every form takes at least one character. -/
def formsWithin : (bound : List Char) → List Value → ReadM (List Value)
  | bound, read => do
    match ← form? with
    | none => return read.reverse
    | some v =>
      match bound with
      | [] => return (v :: read).reverse
      | _ :: bound => formsWithin bound (v :: read)

def forms : ReadM (List Value) := do
  formsWithin (← fun r => .ok r.source.unread r) []

/-- Read the first form, which must be there. -/
def form : ReadM Value := do
  match ← form? with
  | some v => return v
  | none => fail .emptyInput

/-- Move to a byte offset of a text. -/
def seek (text : String) (offset : Nat) : ReadM Unit
  | ⟨source, heap, symbols⟩ =>
    match Source.ofStringAt? text offset with
    | some source => .ok () ⟨source, heap, symbols⟩
    | none => .error (.parse (.notBoundary offset)) ⟨source, heap, symbols⟩

/-- Read one form of a text from a byte offset on, and the offset after it. -/
def formAt? (text : String) (offset : Nat) : ReadM (Option (Value × Nat)) := do
  seek text offset
  match ← form? with
  | some v => return some (v, ← fun r => .ok r.source.offset r)
  | none => return none

end Reading

/-- The forms of a text one by one. After an error there are no more. -/
structure FormStream where
  reading : Reading
  failed : Bool

namespace FormStream

def next? (s : FormStream) : Option (Except Error Value) × FormStream :=
  if s.failed then (none, s)
  else
    match Reading.form? s.reading with
    | .ok (some v) reading => (some (.ok v), ⟨reading, false⟩)
    | .ok none reading => (none, ⟨reading, false⟩)
    | .error e reading => (some (.error e), ⟨reading, true⟩)

end FormStream

end SecdLisp
