import Clientele.Json.Value

/-!
Two written forms of a value: compact, without any blank, and indented by two blanks a level.
In strings only the quote, the backslash and the characters below the blank are escaped.
-/
set_option autoImplicit false

namespace Clientele

namespace Json

def hexDigit (n : Nat) : Char := (Nat.toDigits 16 (n % 16)).headD '0'

def hexEscape (c : Char) : List Char :=
  ['\\', 'u', hexDigit (c.toNat / 4096), hexDigit (c.toNat / 256), hexDigit (c.toNat / 16), hexDigit c.toNat]

def escapeChar (c : Char) : List Char :=
  if c = '"' then ['\\', '"']
  else if c = '\\' then ['\\', '\\']
  else if c = '\n' then ['\\', 'n']
  else if c = '\r' then ['\\', 'r']
  else if c = '\t' then ['\\', 't']
  else if c.toNat = 8 then ['\\', 'b']
  else if c.toNat = 12 then ['\\', 'f']
  else if c.toNat < 32 then hexEscape c
  else [c]

def quoted (s : String) : List Char := '"' :: (s.toList.flatMap escapeChar ++ ['"'])

def separated (sep : List Char) : List (List Char) → List Char
  | [] => []
  | [p] => p
  | p :: ps => p ++ sep ++ separated sep ps

mutual

def compactChars : Json → List Char
  | .null => ['n', 'u', 'l', 'l']
  | .bool true => ['t', 'r', 'u', 'e']
  | .bool false => ['f', 'a', 'l', 's', 'e']
  | .num n => n.text
  | .str s => quoted s
  | .arr xs => '[' :: (separated [','] (compactItems xs) ++ [']'])
  | .obj fs => '\x7b' :: (separated [','] (compactFields fs) ++ ['\x7d'])

def compactItems : List Json → List (List Char)
  | [] => []
  | x :: xs => compactChars x :: compactItems xs

def compactFields : List (String × Json) → List (List Char)
  | [] => []
  | (k, v) :: fs => (quoted k ++ ':' :: compactChars v) :: compactFields fs

end

def compact (v : Json) : String := .ofList v.compactChars

def newline (level : Nat) : List Char := '\n' :: List.replicate (2 * level) ' '

/-- Lays the parts of a list or object out on lines of their own; without parts it is `[]` or the
like on one line. -/
def block (opening closing : Char) (level : Nat) (parts : List (List Char)) : List Char :=
  if parts.isEmpty then [opening, closing]
  else opening :: (newline (level + 1) ++ separated (',' :: newline (level + 1)) parts ++
    newline level ++ [closing])

mutual

def indentedChars (level : Nat) : Json → List Char
  | .arr xs => block '[' ']' level (indentedItems (level + 1) xs)
  | .obj fs => block '\x7b' '\x7d' level (indentedFields (level + 1) fs)
  | .null => compactChars .null
  | .bool b => compactChars (.bool b)
  | .num n => compactChars (.num n)
  | .str s => compactChars (.str s)

def indentedItems (level : Nat) : List Json → List (List Char)
  | [] => []
  | x :: xs => indentedChars level x :: indentedItems level xs

def indentedFields (level : Nat) : List (String × Json) → List (List Char)
  | [] => []
  | (k, v) :: fs => (quoted k ++ ':' :: ' ' :: indentedChars level v) :: indentedFields level fs

end

def indented (v : Json) : String := .ofList (v.indentedChars 0)

end Json

end Clientele
