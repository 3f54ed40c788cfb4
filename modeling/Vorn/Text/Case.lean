import Vorn.Text.CaseTable

/-!
# Upper and lower case

The full mappings of Unicode: a character may become several (`ß` is `SS` in capitals), and a
capital sigma at the end of a word becomes the final form `ς`.
-/

namespace Vorn.Text

/-- The mapped form of one character: expansions first, then the rows. -/
def mapped (expansions : List (Nat × List Nat)) (rows : List CaseRow) (c : Char) : List Char :=
  match expansions.lookup c.toNat with
  | some ns => ns.map Char.ofNat
  | none => [((rows.findSome? (·.image? c.toNat)).map Char.ofNat).getD c]

def upperChar (c : Char) : List Char :=
  if c.toNat < 0x80 then [c.toUpper] else mapped upperExpansions upperRows c

/-- The lower-case form of a character that does not depend on its neighbours. -/
def lowerChar (c : Char) : List Char :=
  if c.toNat < 0x80 then [c.toLower] else mapped lowerExpansions lowerRows c

def inRanges (ranges : List (Nat × Nat)) (c : Char) : Bool :=
  ranges.any fun (first, last) => first ≤ c.toNat && c.toNat ≤ last

/-- A letter follows (or precedes, in a reversed list), ignored characters aside. -/
def meetsLetter (cs : List Char) : Bool :=
  match cs.dropWhile (inRanges ignoredRanges) with
  | [] => false
  | c :: _ => inRanges casedRanges c

/-- A capital sigma is final if a letter stands before it and none behind it. -/
def lowerSigma (before after : List Char) : Char :=
  if meetsLetter before && !meetsLetter after then 'ς' else 'σ'

/-- The lower-case form of the text `cs`; `before` holds the characters in front of it, nearest
first, and `done` the result so far, reversed. -/
def lowerFrom (before done : List Char) : List Char → List Char
  | [] => done.reverse
  | c :: cs =>
    let low := if c = 'Σ' then [lowerSigma before cs] else lowerChar c
    lowerFrom (c :: before) (low.reverse ++ done) cs

def upper (s : String) : String := .ofList (s.toList.flatMap upperChar)

def lower (s : String) : String := .ofList (lowerFrom [] [] s.toList)

end Vorn.Text
