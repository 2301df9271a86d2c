/-!
# Balance of parentheses

The shell submits what was typed once every open parenthesis is closed.
-/

namespace SecdLisp

/-- How many parentheses stay open, comments left out. -/
def openParens (depth : Int) (comment : Bool) : List Char → Int
  | [] => depth
  | c :: cs =>
    if c = '\n' then openParens depth false cs
    else if comment then openParens depth true cs
    else if c = ';' then openParens depth true cs
    else if c = '(' then openParens (depth + 1) false cs
    else if c = ')' then openParens (depth - 1) false cs
    else openParens depth false cs

def isBalanced (text : String) : Bool := openParens 0 false text.toList ≤ 0

end SecdLisp
