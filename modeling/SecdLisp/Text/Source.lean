/-!
# Source text

A text that is being read: the characters not yet read, and how many bytes of UTF-8 the
characters before them take. Places in a text are byte offsets.
-/

namespace SecdLisp

/-- The unread part of a text. -/
structure Source where
  offset : Nat
  unread : List Char
  deriving DecidableEq, Repr, Inhabited

/-- How many bytes the characters take in UTF-8. -/
def byteLength (cs : List Char) : Nat := cs.foldl (fun n c => n + c.utf8Size) 0

/-- The blanks between tokens, all of them ASCII. -/
def isBlank (c : Char) : Bool :=
  c = ' ' || c = '\t' || c = '\n' || c = '\x0c' || c = '\r'

namespace Source

def ofString (s : String) : Source := ⟨0, s.toList⟩

/-- What is left after that many bytes, if a character starts there or the text ends there. -/
def dropBytes? : List Char → Nat → Option (List Char)
  | cs, 0 => some cs
  | [], _ + 1 => none
  | c :: cs, n => if c.utf8Size ≤ n then dropBytes? cs (n - c.utf8Size) else none

/-- A text from a byte offset on, if that is a character boundary of it. -/
def ofStringAt? (s : String) (offset : Nat) : Option Source :=
  (dropBytes? s.toList offset).map fun unread => ⟨offset, unread⟩

/-- Skip blanks and comments; a comment runs to the end of its line. -/
def skipFrom (comment : Bool) (offset : Nat) : List Char → Source
  | [] => ⟨offset, []⟩
  | c :: cs =>
    if comment then skipFrom (c != '\n') (offset + c.utf8Size) cs
    else if isBlank c then skipFrom false (offset + c.utf8Size) cs
    else if c = ';' then skipFrom true (offset + c.utf8Size) cs
    else ⟨offset, c :: cs⟩

def skipBlanks (src : Source) : Source := skipFrom false src.offset src.unread

/-- Whether only blanks and comments are left. -/
def atEnd (src : Source) : Bool := src.skipBlanks.unread.isEmpty

theorem length_skipFrom_le (comment : Bool) (offset : Nat) (cs : List Char) :
    (skipFrom comment offset cs).unread.length ≤ cs.length := by
  induction cs generalizing comment offset with
  | nil => simp [skipFrom]
  | cons c cs ih =>
    unfold skipFrom
    split
    · exact Nat.le_succ_of_le (ih ..)
    split
    · exact Nat.le_succ_of_le (ih ..)
    split
    · exact Nat.le_succ_of_le (ih ..)
    · exact Nat.le_refl _

end Source

end SecdLisp
