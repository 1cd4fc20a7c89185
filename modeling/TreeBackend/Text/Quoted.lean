import TreeBackend.Text.Unprintable

/-!
# Quoted texts

A text in double quotes on one line. The quote, the backslash and the usual
control characters have two-character escapes; any other character without a
shape of its own is written as its code point in hexadecimal.
-/

namespace TreeBackend.Text

/-- A code point in lower-case hexadecimal without leading zeros. -/
def hexadecimal (codePoint : Nat) : List Char := Nat.toDigits 16 codePoint

/-- The written form of one character of a quoted text. -/
def quoteChar (c : Char) : List Char :=
  if c = '\x00' then ['\\', '0']
  else if c = '\t' then ['\\', 't']
  else if c = '\r' then ['\\', 'r']
  else if c = '\n' then ['\\', 'n']
  else if c = '"' then ['\\', '"']
  else if c = '\\' then ['\\', '\\']
  else if isUnprintable c then ['\\', 'u', '\x7b'] ++ hexadecimal c.toNat ++ ['\x7d']
  else [c]

/-- The written form of a text, quotes included. -/
def quote (text : String) : String :=
  String.ofList ('"' :: text.toList.flatMap quoteChar ++ ['"'])

example : quoteChar '\u0301' = "\\u\x7b301\x7d".toList := by decide +kernel

example : quoteChar 'é' = ['é'] := by decide +kernel

end TreeBackend.Text
