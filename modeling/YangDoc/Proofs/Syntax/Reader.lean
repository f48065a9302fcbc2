import YangDoc.Quoting
import YangDoc.Statement

/-!
# Reading statements

A reader of statements in braces. It splits the text into tokens, skipping blanks and comments, and
puts the tokens together: a keyword, perhaps an argument, and then a semicolon or further
statements in braces.

The text is scanned one character at a time. Next to what it is in the middle of, the scanner only
knows the column, which a quoted argument needs: of each line after the first, up to as many spaces
and tabs are dropped as bring the text to the column after the opening quote.
-/

namespace YangDoc.Syntax

inductive Token where
  | word (text : String)
  | quoted (text : String)
  | semicolon
  | opening
  | closing
deriving DecidableEq, Repr

/-! ### Scanning -/

/-- What the scanner is in the middle of. -/
inductive Mode where
  | gap
  | word (read : List Char)
  /-- A quoted argument whose quote stands in a column, of which some characters have been read and
  at most `margin` more are to be dropped at the start of a line. -/
  | quoted (column : Nat) (read : List Char) (margin : Nat)
  | escape (column : Nat) (read : List Char)
  | lineComment
  | blockStart
  | block
  | blockEnd
deriving DecidableEq, Repr

def advance (column : Nat) (c : Char) : Nat :=
  if c = '\n' then 0 else column + 1

/-- Whether `c` starts one of the marks that are written with two characters. -/
def isMark (first second c : Char) (ahead : List Char) : Bool :=
  c == first && ahead.head? == some second

/-- Whether a word ends before the rest of the text. -/
def endsWord : List Char → Bool
  | [] => true
  | c :: ahead =>
    Text.isBlank c || Quoting.isDelimiter c || isMark '/' '/' c ahead || isMark '/' '*' c ahead

/-- A word of which `read` has been read. -/
def wordStep (read ahead : List Char) : Mode × List Token :=
  if endsWord ahead then (.gap, [.word (String.ofList read)]) else (.word read, [])

def gapStep (column : Nat) (c : Char) (ahead : List Char) : Option (Mode × List Token) :=
  if Text.isBlank c then some (.gap, [])
  else if c = ';' then some (.gap, [.semicolon])
  else if c = '\x7b' then some (.gap, [.opening])
  else if c = '\x7d' then some (.gap, [.closing])
  else if c = '"' then some (.quoted column [] 0, [])
  else if c = '\x27' then none
  else if isMark '/' '/' c ahead then some (.lineComment, [])
  else if isMark '/' '*' c ahead then some (.blockStart, [])
  else some (wordStep [c] ahead)

def quotedStep (column : Nat) (read : List Char) (margin : Nat) (c : Char) :
    Mode × List Token :=
  if 0 < margin ∧ (c = ' ' ∨ c = '\t') then (.quoted column read (margin - 1), [])
  else if c = '\n' then (.quoted column (read ++ ['\n']) (column + 1), [])
  else if c = '"' then (.gap, [.quoted (String.ofList read)])
  else if c = '\\' then (.escape column read, [])
  else (.quoted column (read ++ [c]) 0, [])

def escapeStep (column : Nat) (read : List Char) (c : Char) : Option (Mode × List Token) :=
  if c = '\\' ∨ c = '"' then some (.quoted column (read ++ [c]) 0, [])
  else if c = 't' then some (.quoted column (read ++ ['\t']) 0, [])
  else none

/-- What one character does, given those ahead of it: the mode after it and the tokens that it
completes. -/
def step (mode : Mode) (column : Nat) (c : Char) (ahead : List Char) :
    Option (Mode × List Token) :=
  match mode with
  | .gap => gapStep column c ahead
  | .word read => some (wordStep (read ++ [c]) ahead)
  | .quoted column read margin => some (quotedStep column read margin c)
  | .escape column read => escapeStep column read c
  | .lineComment => some (if c = '\n' then .gap else .lineComment, [])
  | .blockStart => some (.block, [])
  | .block => some (if isMark '*' '/' c ahead then .blockEnd else .block, [])
  | .blockEnd => some (.gap, [])

/-- The tokens of a text, the first character of which stands in a column. -/
def scan (mode : Mode) (column : Nat) : List Char → Option (List Token)
  | [] => if mode = .gap ∨ mode = .lineComment then some [] else none
  | c :: ahead => do
    let (next, tokens) ← step mode column c ahead
    let rest ← scan next (advance column c) ahead
    return tokens ++ rest

/-! ### Parsing -/

/-- A statement whose closing brace has not been met, after those in front of it. -/
structure Frame where
  keyword : String
  argument : Option String
  before : List Statement

/-- What has been put together of some tokens: the statements around, the statements in front, and
the keyword and argument of one that has just begun. -/
structure Partial where
  around : List Frame := []
  before : List Statement := []
  heading : Option (String × Option String) := none

/-- Take up one more token. -/
def Partial.take : Partial → Token → Option Partial
  | ⟨around, before, none⟩, .word keyword => some ⟨around, before, some (keyword, none)⟩
  | ⟨around, before, some (keyword, none)⟩, .word argument =>
    some ⟨around, before, some (keyword, some argument)⟩
  | ⟨around, before, some (keyword, none)⟩, .quoted argument =>
    some ⟨around, before, some (keyword, some argument)⟩
  | ⟨around, before, some (keyword, argument)⟩, .semicolon =>
    some ⟨around, before ++ [⟨keyword, argument, []⟩], none⟩
  | ⟨around, before, some (keyword, argument)⟩, .opening =>
    some ⟨⟨keyword, argument, before⟩ :: around, [], none⟩
  | ⟨frame :: around, before, none⟩, .closing =>
    some ⟨around, frame.before ++ [⟨frame.keyword, frame.argument, before⟩], none⟩
  | _, _ => none

def parse (tokens : List Token) : Option Statement :=
  match tokens.foldlM Partial.take {} with
  | some ⟨[], [s], none⟩ => some s
  | _ => none

/-- The one statement that a text consists of. -/
def read (text : String) : Option Statement := do
  parse (← scan .gap 0 text.toList)

end YangDoc.Syntax
