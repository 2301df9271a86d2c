/-!
# White space

The characters with the Unicode property White_Space, which the shell trims from what is typed.
-/

namespace SecdLisp

/-- The code points with the property, as closed ranges in ascending order. -/
def whitespaceRanges : List (Nat × Nat) :=
  [(0x09, 0x0d), (0x20, 0x20), (0x85, 0x85), (0xa0, 0xa0), (0x1680, 0x1680), (0x2000, 0x200a),
    (0x2028, 0x2029), (0x202f, 0x202f), (0x205f, 0x205f), (0x3000, 0x3000)]

def isWhitespace (c : Char) : Bool :=
  whitespaceRanges.any fun (lo, hi) => lo ≤ c.toNat && c.toNat ≤ hi

def trimStart (cs : List Char) : List Char := cs.dropWhile isWhitespace

def trim (cs : List Char) : List Char := (trimStart (trimStart cs).reverse).reverse

/-- The part before the first white space, and the part behind it. -/
def splitWord (cs : List Char) : List Char × List Char :=
  let (word, rest) := cs.span (!isWhitespace ·)
  (word, rest.drop 1)

end SecdLisp
