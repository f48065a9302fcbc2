import YangDoc.Text.Blank

/-!
# Text literals

The form in which a text is shown for inspection: between double quotes, with the usual short
escapes, and with a numbered escape for each character that would not show. Those are the control,
format and private characters, every blank other than the space, and the marks that only change
how their neighbour looks.

Of the marks only those are listed that go with every script: the blocks of combining marks, the
joiners and the variation selectors. The marks of a single script, such as U+0483 or U+0591, and the
code points without a character are left out, apart from a few at the ends of the planes: which
these are changes with each version of Unicode. They are shown as they are.
-/

namespace YangDoc.Text

/-- Characters without a picture of their own. -/
def hiddenRanges : List (Nat × Nat) :=
  [(0x00, 0x1F), (0x7F, 0xA0), (0xAD, 0xAD), (0x300, 0x36F), (0x600, 0x605), (0x61C, 0x61C),
   (0x6DD, 0x6DD), (0x70F, 0x70F), (0x890, 0x891), (0x8E2, 0x8E2), (0x1680, 0x1680),
   (0x180B, 0x180F), (0x1AB0, 0x1AFF), (0x1DC0, 0x1DFF), (0x2000, 0x200F), (0x2028, 0x202F),
   (0x205F, 0x206F), (0x20D0, 0x20FF), (0x3000, 0x3000), (0xE000, 0xF8FF), (0xFE00, 0xFE0F),
   (0xFE20, 0xFE2F), (0xFEFF, 0xFEFF), (0xFFF0, 0xFFFB), (0xFFFE, 0xFFFF), (0x110BD, 0x110BD),
   (0x110CD, 0x110CD), (0x13430, 0x1343F), (0x1BCA0, 0x1BCA3), (0x1D173, 0x1D17A),
   (0xE0000, 0x10FFFF)]

def hexDigit (n : Nat) : Char :=
  if n < 10 then Char.ofNat (0x30 + n) else Char.ofNat (0x61 + (n - 10))

/-- Digits of `n` to base sixteen, in lower case and without leading zeros; `fuel` is at least
their number. -/
def hexDigits : (fuel : Nat) → Nat → List Char
  | 0, _ => []
  | fuel + 1, n => if n < 16 then [hexDigit n] else hexDigits fuel (n / 16) ++ [hexDigit (n % 16)]

def literalChar (c : Char) : List Char :=
  if c == '\t' then ['\\', 't']
  else if c == '\r' then ['\\', 'r']
  else if c == '\n' then ['\\', 'n']
  else if c == '"' then ['\\', '"']
  else if c == '\\' then ['\\', '\\']
  else if c.toNat == 0 then ['\\', '0']
  else if inRanges hiddenRanges c then "\\u\x7b".toList ++ hexDigits 6 c.toNat ++ ['\x7d']
  else [c]

def literal (s : String) : String :=
  "\"" ++ String.ofList (s.toList.flatMap literalChar) ++ "\""

end YangDoc.Text
