import GmlLift.Decimal.Reading

/-! JSON text as it is written.

Reading has two steps. The first, here, follows the grammar only. The second decides what the parts
in use mean; parts that nobody asks for are never looked at again, so that a number out of range or
an unpaired surrogate does no harm there. -/

namespace GmlLift.Json

/-- A number as written. -/
structure Numeral where
  negative : Bool
  whole : List Char
  /-- The digits after the point. -/
  fraction : Option (List Char)
  exponent : Option Int

inductive Raw where
  | null
  | bool (b : Bool)
  | number (n : Numeral)
  /-- A string with an unpaired surrogate has no text. -/
  | string (text : Option String)
  | array (items : List Raw)
  | object (fields : List (Option String × Raw))

namespace Raw

/-- What a reader gives: a value and the text after it. -/
abbrev Read (α : Type) := List Char → Option (α × List Char)

def isSpace (c : Char) : Bool := c == ' ' || c == '\n' || c == '\t' || c == '\r'

def skipSpace (s : List Char) : List Char := s.dropWhile isSpace

def hexValue? (c : Char) : Option Nat :=
  if '0' ≤ c ∧ c ≤ '9' then some (c.toNat - '0'.toNat)
  else if 'a' ≤ c ∧ c ≤ 'f' then some (c.toNat - 'a'.toNat + 10)
  else if 'A' ≤ c ∧ c ≤ 'F' then some (c.toNat - 'A'.toNat + 10)
  else none

/-- The unit of a `\u` escape. -/
def unit : Read Nat
  | a :: b :: c :: d :: rest => do
    let n := ((← hexValue? a) * 16 + (← hexValue? b)) * 256
      + (← hexValue? c) * 16 + (← hexValue? d)
    return (n, rest)
  | _ => none

def isHigh (n : Nat) : Bool := 0xD800 ≤ n && n < 0xDC00
def isLow (n : Nat) : Bool := 0xDC00 ≤ n && n < 0xE000

/-- One escape after its backslash, as a unit. -/
def escape : Read Nat
  | 'u' :: rest => unit rest
  | c :: rest =>
    let plain (d : Char) : Option (Nat × List Char) := some (d.toNat, rest)
    if c = '"' ∨ c = '\\' ∨ c = '/' then plain c
    else if c = 'b' then plain '\x08'
    else if c = 'f' then plain '\x0c'
    else if c = 'n' then plain '\n'
    else if c = 'r' then plain '\r'
    else if c = 't' then plain '\t'
    else none
  | [] => none

/-- The units of a string after its opening quote. An escape gives one unit, any other character
its code point. -/
def units : Nat → Read (List Nat)
  | 0, _ => none
  | _ + 1, [] => none
  | fuel + 1, c :: rest =>
    if c = '"' then some ([], rest)
    else if c = '\\' then do
      let (n, rest) ← escape rest
      let (more, rest) ← units fuel rest
      return (n :: more, rest)
    else if c.toNat < 0x20 then none
    else do
      let (more, rest) ← units fuel rest
      return (c.toNat :: more, rest)

/-- The text of units; a surrogate has to be paired with the unit after it. -/
def textOf : List Nat → Option (List Char)
  | [] => some []
  | n :: rest =>
    if isHigh n then match rest with
      | low :: rest =>
        if isLow low then
          (textOf rest).map
            (Char.ofNat (0x10000 + (n - 0xD800) * 0x400 + (low - 0xDC00)) :: ·)
        else none
      | [] => none
    else if isLow n then none
    else (textOf rest).map (Char.ofNat n :: ·)

def text (fuel : Nat) : Read (Option String) := fun s => do
  let (us, rest) ← units fuel s
  return ((textOf us).map String.ofList, rest)

/-- At least one digit. -/
def digits : Read (List Char) := fun s =>
  let ds := s.takeWhile Char.isDigit
  if ds.isEmpty then none else some (ds, s.dropWhile Char.isDigit)

/-- A whole part has no leading zero. -/
def whole : Read (List Char)
  | '0' :: rest => match rest with
    | c :: _ => if c.isDigit then none else some (['0'], rest)
    | [] => some (['0'], rest)
  | s => digits s

def exponent : Read (Option Int)
  | c :: rest =>
    if c = 'e' ∨ c = 'E' then match rest with
      | '+' :: rest => (digits rest).map fun (ds, rest) =>
        (some (Nat.ofDigitChars 10 ds 0 : Int), rest)
      | '-' :: rest => (digits rest).map fun (ds, rest) =>
        (some (-(Nat.ofDigitChars 10 ds 0 : Int)), rest)
      | _ => (digits rest).map fun (ds, rest) => (some (Nat.ofDigitChars 10 ds 0 : Int), rest)
    else some (none, c :: rest)
  | [] => some (none, [])

def numeral : Read Numeral := fun s => do
  let (negative, s) := match s with
    | '-' :: rest => (true, rest)
    | _ => (false, s)
  let (ds, s) ← whole s
  let (fraction, s) ← match s with
    | '.' :: rest => (digits rest).map fun (ds, rest) => (some ds, rest)
    | _ => some (none, s)
  let (e, s) ← exponent s
  return (⟨negative, ds, fraction, e⟩, s)

/-- The rest after a fixed word. -/
def word (w : String) (r : Raw) : Read Raw := fun s =>
  if w.toList.isPrefixOf s then some (r, s.drop w.length) else none

mutual

/-- A value, blanks before it skipped. -/
def value : Nat → Read Raw
  | 0, _ => none
  | fuel + 1, s => match skipSpace s with
    | [] => none
    | c :: rest =>
      if c = '"' then (text fuel rest).map fun (t, rest) => (.string t, rest)
      else if c = '[' then match skipSpace rest with
        | ']' :: rest => some (.array [], rest)
        | _ => (items fuel rest).map fun (xs, rest) => (.array xs, rest)
      else if c = '\x7b' then match skipSpace rest with
        | '\x7d' :: rest => some (.object [], rest)
        | _ => (fields fuel rest).map fun (xs, rest) => (.object xs, rest)
      else if c = 'n' then word "null" .null (c :: rest)
      else if c = 't' then word "true" (.bool true) (c :: rest)
      else if c = 'f' then word "false" (.bool false) (c :: rest)
      else (numeral (c :: rest)).map fun (n, rest) => (.number n, rest)

/-- The items of an array up to its bracket. -/
def items : Nat → Read (List Raw)
  | 0, _ => none
  | fuel + 1, s => do
    let (x, s) ← value fuel s
    match skipSpace s with
    | ',' :: rest => do
      let (xs, rest) ← items fuel rest
      return (x :: xs, rest)
    | ']' :: rest => return ([x], rest)
    | _ => none

/-- The fields of an object up to its brace. -/
def fields : Nat → Read (List (Option String × Raw))
  | 0, _ => none
  | fuel + 1, s => match skipSpace s with
    | '"' :: rest => do
      let (key, s) ← text fuel rest
      match skipSpace s with
      | ':' :: rest => do
        let (x, s) ← value fuel rest
        match skipSpace s with
        | ',' :: rest => do
          let (xs, rest) ← fields fuel rest
          return ((key, x) :: xs, rest)
        | '\x7d' :: rest => return ([(key, x)], rest)
        | _ => none
      | _ => none
    | _ => none

end

/-- The one value of a whole text. Each step takes a character, so the length bounds them. -/
def parse (s : String) : Option Raw := do
  let cs := s.toList
  let (r, rest) ← value (cs.length + 1) cs
  if (skipSpace rest).isEmpty then some r else none

end Raw

end GmlLift.Json
