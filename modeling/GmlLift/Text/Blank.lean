/-! Blank characters, and the ways a text is cut at them.

Texts are handled as lists of characters, so that each cut is an ordinary list function. -/

namespace GmlLift.Text

/-- Closed ranges of the characters with the White_Space property. -/
def blankRanges : List (Nat × Nat) :=
  [(0x9, 0xD), (0x20, 0x20), (0x85, 0x85), (0xA0, 0xA0), (0x1680, 0x1680), (0x2000, 0x200A),
   (0x2028, 0x2029), (0x202F, 0x202F), (0x205F, 0x205F), (0x3000, 0x3000)]

/-- Whether a code point lies in one of the closed ranges. -/
def inRanges (ranges : List (Nat × Nat)) (n : Nat) : Bool :=
  ranges.any fun r => r.1 ≤ n && n ≤ r.2

def isBlank (c : Char) : Bool := inRanges blankRanges c.toNat

/-- Drop from the end every character that `p` accepts. -/
def dropEndWhile (p : Char → Bool) (s : List Char) : List Char :=
  (s.reverse.dropWhile p).reverse

def trim (s : List Char) : List Char := dropEndWhile isBlank (s.dropWhile isBlank)

/-- The maximal runs of characters that are not blank. -/
def words (s : List Char) : List (List Char) :=
  (s.splitOnP isBlank).filter fun w => !w.isEmpty

/-- Cut at the first character that `p` accepts, dropping that character. -/
def cutAt (p : Char → Bool) : List Char → Option (List Char × List Char)
  | [] => none
  | c :: rest => if p c then some ([], rest) else (cutAt p rest).map fun (a, b) => (c :: a, b)

/-- The text after a fixed opening, if the text opens so. -/
def after? (opening s : List Char) : Option (List Char) :=
  if opening.isPrefixOf s then some (s.drop opening.length) else none

/-- The text before a closing character, if the text ends in it. -/
def before? (closing : Char) (s : List Char) : Option (List Char) :=
  if s.getLast? = some closing then some s.dropLast else none

/-- Drop an opening as often as the text starts with it. -/
def dropOpenings (opening : List Char) : Nat → List Char → List Char
  | 0, s => s
  | n + 1, s => match after? opening s with
    | some rest => dropOpenings opening n rest
    | none => s

/-- The lines of a text. A line feed ends a line, with a carriage return before it; a text that
ends in a line feed has no empty last line. -/
def lines (s : List Char) : List (List Char) :=
  let pieces := s.splitOn '\n'
  let closed := pieces.dropLast.map fun l => (before? '\r' l).getD l
  match pieces.getLast? with
  | some [] | none => closed
  | some l => closed ++ [l]

end GmlLift.Text
