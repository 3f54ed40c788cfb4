/-!
# Blanks

The white space characters of Unicode, as trimming and reading numbers see them.
-/

namespace Vorn.Text

/-- White space of Unicode without the four information separators: the characters that may
surround a number. -/
def isSpace (c : Char) : Bool :=
  let n := c.toNat
  (0x09 ≤ n && n ≤ 0x0d) || n == 0x20 || n == 0x85 || n == 0xa0 || n == 0x1680
    || (0x2000 ≤ n && n ≤ 0x200a) || n == 0x2028 || n == 0x2029 || n == 0x202f || n == 0x205f
    || n == 0x3000

/-- The information separators, which trimming also counts as white space. -/
def isSeparator (c : Char) : Bool := 0x1c ≤ c.toNat && c.toNat ≤ 0x1f

/-- What trimming removes. -/
def isBlank (c : Char) : Bool := isSpace c || isSeparator c

/-- Drops the characters of a class at the head. -/
def dropHead (p : Char → Bool) (cs : List Char) : List Char := cs.dropWhile p

/-- Drops the characters of a class at the end. -/
def dropTail (p : Char → Bool) (cs : List Char) : List Char := (cs.reverse.dropWhile p).reverse

def trimStart (s : String) : String := .ofList (dropHead isBlank s.toList)

def trimEnd (s : String) : String := .ofList (dropTail isBlank s.toList)

def trim (s : String) : String := .ofList (dropTail isBlank (dropHead isBlank s.toList))

end Vorn.Text
