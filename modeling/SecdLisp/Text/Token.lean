import SecdLisp.Error
import SecdLisp.Text.Source

/-!
# Tokens

A token is a punctuation character or a word, which is the longest run of characters that are
neither blanks nor punctuation. A word that is a decimal numeral is an integer and must fit 64
bits; any other word is an identifier.
-/

namespace SecdLisp

inductive Token where
  | opening
  | closing
  | quote
  | backquote
  | comma
  | atSign
  | int (n : Int64)
  | ident (name : String)
  deriving DecidableEq, Repr, Inhabited

namespace Token

/-- The token that a character is by itself. -/
def punctuation? : Char → Option Token
  | '(' => some opening
  | ')' => some closing
  | '\x27' => some quote
  | '\x60' => some backquote
  | ',' => some comma
  | '@' => some atSign
  | _ => none

/-- A word ends before a blank, a punctuation character or a comment. -/
def isDelimiter (c : Char) : Bool := isBlank c || (punctuation? c).isSome || c = ';'

def ofDigits (ds : List Char) : Nat := ds.foldl (fun n d => 10 * n + (d.toNat - 48)) 0

def allDigits (ds : List Char) : Bool := !ds.isEmpty && ds.all Char.isDigit

/-- The value of a decimal numeral: digits, perhaps after a minus sign. -/
def numeral? : List Char → Option Int
  | '-' :: ds => if allDigits ds then some (-(ofDigits ds)) else none
  | ds => if allDigits ds then some (ofDigits ds) else none

def ofWord (w : List Char) : Except ParseError Token :=
  match numeral? w with
  | some n =>
    match word? n with
    | some n => .ok (int n)
    | none => .error (.integerOutOfRange (String.ofList w))
  | none => .ok (ident (String.ofList w))

/-- Read the next token, or `none` at the end. A word that is no token is read all the same. -/
def next? : EStateM ParseError Source (Option Token) := fun src =>
  match src.skipBlanks with
  | ⟨offset, []⟩ => .ok none ⟨offset, []⟩
  | ⟨offset, c :: cs⟩ =>
    match punctuation? c with
    | some t => .ok (some t) ⟨offset + c.utf8Size, cs⟩
    | none =>
      let (w, rest) := (c :: cs).span (!isDelimiter ·)
      let src := ⟨offset + byteLength w, rest⟩
      match ofWord w with
      | .ok t => .ok (some t) src
      | .error e => .error e src

/-- Look at the next token without reading it. -/
def peek? (src : Source) : Except ParseError (Option Token) :=
  match next? src with
  | .ok t _ => .ok t
  | .error e _ => .error e

end Token

end SecdLisp
