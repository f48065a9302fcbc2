import YangDoc.Json.Number

/-!
# Reading JSON text

A reader for JSON values. Each function takes the characters still to be read and gives back what
it made of them with the characters left over, or nothing when the text is not JSON. Arrays and
objects nest at most `depthLimit` deep. It stands for the reader of a JSON library and is there to
run with; theorems about expressions start from the JSON value.
-/

namespace YangDoc.Json

/-- Arrays and objects nested deeper than this are not read. -/
def depthLimit : Nat :=
  127

def isSpace (c : Char) : Bool :=
  c == ' ' || c == '\t' || c == '\n' || c == '\r'

def hexValue? (c : Char) : Option Nat :=
  if '0' ≤ c ∧ c ≤ '9' then some (c.toNat - 0x30)
  else if 'a' ≤ c ∧ c ≤ 'f' then some (c.toNat - 0x61 + 10)
  else if 'A' ≤ c ∧ c ≤ 'F' then some (c.toNat - 0x41 + 10)
  else none

/-- The number written with four digits to base sixteen. -/
def unit? (a b c d : Char) : Option Nat := do
  return (((← hexValue? a) * 16 + (← hexValue? b)) * 16 + (← hexValue? c)) * 16 + (← hexValue? d)

def shortEscape? (c : Char) : Option Char :=
  [('"', '"'), ('\\', '\\'), ('/', '/'), ('b', '\x08'), ('f', '\x0c'), ('n', '\n'), ('r', '\r'),
   ('t', '\t')].lookup c

/-- The rest of a string after its opening quote. `high` is the first half of a surrogate pair
whose second half has to follow. -/
def readString (high : Option Nat) (acc : List Char) : List Char → Option (String × List Char)
  | [] => none
  | c :: cs =>
    if c == '\\' then
      match cs with
      | [] => none
      | e :: rest =>
        if e == 'u' then
          match rest with
          | h1 :: h2 :: h3 :: h4 :: rest =>
            match unit? h1 h2 h3 h4, high with
            | none, _ => none
            | some u, some first =>
              if 0xDC00 ≤ u ∧ u < 0xE000 then
                let point := 0x10000 + (first - 0xD800) * 0x400 + (u - 0xDC00)
                readString none (Char.ofNat point :: acc) rest
              else none
            | some u, none =>
              if 0xD800 ≤ u ∧ u < 0xDC00 then readString (some u) acc rest
              else if 0xDC00 ≤ u ∧ u < 0xE000 then none
              else readString none (Char.ofNat u :: acc) rest
          | _ => none
        else
          match high, shortEscape? e with
          | none, some x => readString none (x :: acc) rest
          | _, _ => none
    else if high.isSome then none
    else if c == '"' then some (String.ofList acc.reverse, cs)
    else if c.toNat < 0x20 then none
    else readString none (c :: acc) cs

def readDigits (cs : List Char) : List Nat × List Char :=
  ((cs.takeWhile Char.isDigit).map fun c => c.toNat - 0x30, cs.dropWhile Char.isDigit)

def readDigits? (cs : List Char) : Option (List Nat × List Char) :=
  match readDigits cs with
  | ([], _) => none
  | read => some read

def readFraction (cs : List Char) : Option (Option (List Nat) × List Char) :=
  match cs with
  | '.' :: rest => (readDigits? rest).map fun (digits, rest) => (some digits, rest)
  | _ => some (none, cs)

def readExponent (cs : List Char) : Option (Option (Bool × List Nat) × List Char) :=
  match cs with
  | c :: rest =>
    if c == 'e' || c == 'E' then
      let (negative, rest) :=
        match rest with
        | '-' :: rest => (true, rest)
        | '+' :: rest => (false, rest)
        | _ => (false, rest)
      (readDigits? rest).map fun (digits, rest) => (some (negative, digits), rest)
    else some (none, cs)
  | [] => some (none, cs)

def readNumber (cs : List Char) : Option (Number × List Char) := do
  let (negative, cs) :=
    match cs with
    | '-' :: rest => (true, rest)
    | _ => (false, cs)
  let (whole, cs) ← readDigits? cs
  guard (whole.length = 1 ∨ whole.head? ≠ some 0)
  let (fraction, cs) ← readFraction cs
  let (exponent, cs) ← readExponent cs
  let number ← Number.ofLiteral { negative, whole, fraction, exponent }
  return (number, cs)

def readWord (word : String) (cs : List Char) : Option (List Char) :=
  if word.toList.isPrefixOf cs then some (cs.drop word.length) else none

/-- What a text may be read as: one value, or the rest of an array or object after its opening
bracket. -/
inductive Goal where
  | value
  | items (first : Bool)
  | fields (first : Bool)

/-- What was read towards a goal. -/
inductive Part where
  | value (v : Json)
  | items (vs : List Json)
  | fields (fs : List (String × Json))

/-- Read towards a goal, at most `depth` arrays and objects deep. Every call uses up a character
or ends an array or object, so twice the length of the text is enough fuel. -/
def readPart : (fuel : Nat) → (depth : Nat) → Goal → List Char → Option (Part × List Char)
  | 0, _, _, _ => none
  | fuel + 1, depth, .value, cs =>
    match cs.dropWhile isSpace with
    | '[' :: rest => do
      guard (0 < depth)
      let (part, rest) ← readPart fuel (depth - 1) (.items true) rest
      match part with
      | .items vs => return (.value (.array vs), rest)
      | _ => none
    | '\x7b' :: rest => do
      guard (0 < depth)
      let (part, rest) ← readPart fuel (depth - 1) (.fields true) rest
      match part with
      | .fields fs => return (.value (.object fs), rest)
      | _ => none
    | '"' :: rest => (readString none [] rest).map fun (s, rest) => (.value (.string s), rest)
    | 'n' :: rest => (readWord "ull" rest).map fun rest => (.value .null, rest)
    | 't' :: rest => (readWord "rue" rest).map fun rest => (.value (.bool true), rest)
    | 'f' :: rest => (readWord "alse" rest).map fun rest => (.value (.bool false), rest)
    | cs => (readNumber cs).map fun (n, rest) => (.value (.number n), rest)
  | fuel + 1, depth, .items first, cs =>
    match cs.dropWhile isSpace with
    | ']' :: rest => if first then some (.items [], rest) else none
    | cs => do
      let (part, rest) ← readPart fuel depth .value cs
      match part, rest.dropWhile isSpace with
      | .value v, ']' :: rest => return (.items [v], rest)
      | .value v, ',' :: rest =>
        match ← readPart fuel depth (.items false) rest with
        | (.items vs, rest) => return (.items (v :: vs), rest)
        | _ => none
      | _, _ => none
  | fuel + 1, depth, .fields first, cs =>
    match cs.dropWhile isSpace with
    | '\x7d' :: rest => if first then some (.fields [], rest) else none
    | '"' :: rest => do
      let (name, rest) ← readString none [] rest
      match rest.dropWhile isSpace with
      | ':' :: rest =>
        let (part, rest) ← readPart fuel depth .value rest
        match part, rest.dropWhile isSpace with
        | .value v, '\x7d' :: rest => return (.fields [(name, v)], rest)
        | .value v, ',' :: rest =>
          match ← readPart fuel depth (.fields false) rest with
          | (.fields fs, rest) => return (.fields ((name, v) :: fs), rest)
          | _ => none
        | _, _ => none
      | _ => none
    | _ => none

/-- The value that a text holds, with nothing but space around it. -/
def ofText? (text : String) : Option Json := do
  let cs := text.toList
  match ← readPart (2 * cs.length + 2) depthLimit .value cs with
  | (.value v, rest) => if rest.all isSpace then some v else none
  | _ => none

/-- The value of a field; of several fields with one name, the last counts. -/
def field? (name : String) : Json → Option Json
  | .object fields => fields.reverse.lookup name
  | _ => none

end YangDoc.Json
