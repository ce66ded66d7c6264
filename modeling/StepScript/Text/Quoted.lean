import StepScript.Text.Invisible

/-! Text in double quotes.

There are two written forms. `quoted` is the form of the language itself: what
it writes can be read back as a string literal. `shown` is the form of
diagnostics: it also spells out every character that cannot be seen.
-/

set_option autoImplicit false

namespace StepScript.Text

def quotedChar (c : Char) : List Char :=
  if c = '"' then ['\\', '"']
  else if c = '\\' then ['\\', '\\']
  else if c = '\n' then ['\\', 'n']
  else if c = '\t' then ['\\', 't']
  else if c = '\r' then ['\\', 'r']
  else [c]

def quotedChars (chars : List Char) : List Char :=
  '"' :: chars.flatMap quotedChar ++ ['"']

def quoted (text : String) : String :=
  String.ofList (quotedChars text.toList)

/-- The shown form of one character: a short escape, the code point in braces if
it cannot be seen, or the character itself. -/
def shownChar (c : Char) : List Char :=
  if c = '"' then ['\\', '"']
  else if c = '\\' then ['\\', '\\']
  else if c = '\n' then ['\\', 'n']
  else if c = '\t' then ['\\', 't']
  else if c = '\r' then ['\\', 'r']
  else if c = '\x00' then ['\\', '0']
  else if isInvisible c then '\\' :: 'u' :: '\x7b' :: Nat.toDigits 16 c.toNat ++ ['\x7d']
  else [c]

def shown (text : String) : String :=
  String.ofList ('"' :: text.toList.flatMap shownChar ++ ['"'])

end StepScript.Text
