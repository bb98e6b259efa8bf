import BoostedTrees.Text.Ascii

/-!
# JSON values

A value keeps the lexemes of its numbers and strings: the bytes between the quotes
of a string, and all bytes of a number. What a lexeme means is asked only where a
field is read, so a member that nobody asks for is never judged on its contents.
-/

namespace BoostedTrees

/-- The bytes of a scalar as they were written. -/
abbrev Lexeme := List UInt8

inductive Json where
  | null
  | bool (value : Bool)
  | number (lexeme : Lexeme)
  | string (lexeme : Lexeme)
  | array (items : List Json)
  | object (members : List (Lexeme × Json))

namespace Json

/-- A parser takes a value off the front of the bytes. -/
abbrev Parser (α : Type) := List UInt8 → Option (α × List UInt8)

def isBlank (b : UInt8) : Bool :=
  b = ascii ' ' || b = ascii '\n' || b = ascii '\t' || b = ascii '\r'

def skipBlanks (bytes : List UInt8) : List UInt8 := bytes.dropWhile isBlank

/-- Takes off a given word. -/
def takeWord (w : List Char) (bytes : List UInt8) : Option (List UInt8) :=
  let w := w.map ascii
  if w.isPrefixOf bytes then some (bytes.drop w.length) else none

/-- The letters that stand for one character after a backslash. -/
def isEscapeLetter (b : UInt8) : Bool :=
  ['"', '\\', '/', 'b', 'f', 'n', 'r', 't'].any fun c => b = ascii c

def isHexByte (b : UInt8) : Bool := (Text.hexValue? b).isSome

/-- Takes off the rest of a string up to its closing quote. Control characters must
be escaped, and an escape must have its shape. -/
def takeString : Parser Lexeme
  | [] => none
  | b :: bytes =>
    if b = ascii '"' then some ([], bytes)
    else if b < 0x20 then none
    else if b = ascii '\\' then
      match bytes with
      | [] => none
      | c :: bytes =>
        if isEscapeLetter c then
          (takeString bytes).map fun (lexeme, rest) => (b :: c :: lexeme, rest)
        else if c = ascii 'u' then
          match bytes with
          | h1 :: h2 :: h3 :: h4 :: bytes =>
            if isHexByte h1 && isHexByte h2 && isHexByte h3 && isHexByte h4 then
              (takeString bytes).map fun (lexeme, rest) =>
                (b :: c :: h1 :: h2 :: h3 :: h4 :: lexeme, rest)
            else none
          | _ => none
        else none
    else (takeString bytes).map fun (lexeme, rest) => (b :: lexeme, rest)

/-- Takes off at least one digit. -/
def takeDigits : Parser Lexeme := fun bytes =>
  let ds := bytes.takeWhile Text.isDigitByte
  if ds.isEmpty then none else some (ds, bytes.dropWhile Text.isDigitByte)

/-- Takes off the whole part of a number: a lone zero, or digits that do not start
with one. -/
def takeWhole : Parser Lexeme
  | [] => none
  | b :: bytes => if b = ascii '0' then some ([b], bytes) else takeDigits (b :: bytes)

/-- Takes off a point and the digits after it, where there is a point. -/
def takeFraction : Parser Lexeme
  | [] => some ([], [])
  | b :: bytes =>
    if b = ascii '.' then (takeDigits bytes).map fun (ds, rest) => (b :: ds, rest)
    else some ([], b :: bytes)

/-- Takes off an exponent, where there is one. -/
def takeExponent : Parser Lexeme
  | [] => some ([], [])
  | b :: bytes =>
    if b = ascii 'e' || b = ascii 'E' then
      match bytes with
      | [] => none
      | s :: more =>
        if s = ascii '+' || s = ascii '-' then
          (takeDigits more).map fun (ds, rest) => (b :: s :: ds, rest)
        else (takeDigits bytes).map fun (ds, rest) => (b :: ds, rest)
    else some ([], b :: bytes)

/-- Takes off a number. -/
def takeNumber : Parser Lexeme := fun bytes => do
  let (sign, bytes) := match bytes with
    | [] => ([], [])
    | b :: rest => if b = ascii '-' then ([b], rest) else ([], b :: rest)
  let (whole, bytes) ← takeWhole bytes
  let (fraction, bytes) ← takeFraction bytes
  let (exponent, bytes) ← takeExponent bytes
  return (sign ++ whole ++ fraction ++ exponent, bytes)

mutual

/-- Takes off a value, with blanks allowed before it. Every nested call comes after
at least one more byte, so as much fuel as there are bytes is enough. -/
def parseValue : (fuel : Nat) → Parser Json
  | 0, _ => none
  | fuel + 1, bytes =>
    match skipBlanks bytes with
    | [] => none
    | b :: rest =>
      if b = ascii '"' then (takeString rest).map fun (s, rest) => (.string s, rest)
      else if b = ascii '[' then
        match skipBlanks rest with
        | [] => none
        | c :: after =>
          if c = ascii ']' then some (.array [], after)
          else (parseItems fuel (c :: after)).map fun (items, rest) => (.array items, rest)
      else if b = ascii '\x7b' then
        match skipBlanks rest with
        | [] => none
        | c :: after =>
          if c = ascii '\x7d' then some (.object [], after)
          else (parseMembers fuel (c :: after)).map fun (ms, rest) => (.object ms, rest)
      else if b = ascii 'n' then
        (takeWord ['u', 'l', 'l'] rest).map fun rest => (.null, rest)
      else if b = ascii 't' then
        (takeWord ['r', 'u', 'e'] rest).map fun rest => (.bool true, rest)
      else if b = ascii 'f' then
        (takeWord ['a', 'l', 's', 'e'] rest).map fun rest => (.bool false, rest)
      else (takeNumber (b :: rest)).map fun (n, rest) => (.number n, rest)

/-- Takes off the items of an array up to its closing bracket. -/
def parseItems : (fuel : Nat) → Parser (List Json)
  | 0, _ => none
  | fuel + 1, bytes =>
    match parseValue fuel bytes with
    | none => none
    | some (item, rest) =>
      match skipBlanks rest with
      | [] => none
      | b :: rest =>
        if b = ascii ']' then some ([item], rest)
        else if b = ascii ',' then
          (parseItems fuel rest).map fun (items, rest) => (item :: items, rest)
        else none

/-- Takes off the members of an object up to its closing brace. -/
def parseMembers : (fuel : Nat) → Parser (List (Lexeme × Json))
  | 0, _ => none
  | fuel + 1, bytes =>
    match skipBlanks bytes with
    | [] => none
    | b :: rest =>
      if b = ascii '"' then
        match takeString rest with
        | none => none
        | some (key, rest) =>
          match skipBlanks rest with
          | [] => none
          | c :: rest =>
            if c = ascii ':' then
              match parseValue fuel rest with
              | none => none
              | some (value, rest) =>
                match skipBlanks rest with
                | [] => none
                | d :: rest =>
                  if d = ascii '\x7d' then some ([(key, value)], rest)
                  else if d = ascii ',' then
                    (parseMembers fuel rest).map fun (ms, rest) => ((key, value) :: ms, rest)
                  else none
            else none
      else none

end

/-- The value at the front of the bytes and what follows it. -/
def parsePrefix (bytes : List UInt8) : Option (Json × List UInt8) :=
  parseValue (bytes.length + 1) bytes

/-- The value that the bytes are, blanks around it aside. -/
def parse (bytes : List UInt8) : Option Json :=
  match parsePrefix bytes with
  | some (value, rest) => if (skipBlanks rest).isEmpty then some value else none
  | none => none

end Json

end BoostedTrees
