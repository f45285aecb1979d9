/-!
Texts as lists of characters: parts of a text, white space as Unicode defines the property, and
lines. A text is cut at every occurrence of a separator, and put together again from the parts.
Lines end with a line feed, which a carriage return may precede.
-/
set_option autoImplicit false

namespace Clientele.Text

def occursIn (part : List Char) : List Char → Bool
  | [] => part.isEmpty
  | c :: cs => part.isPrefixOf (c :: cs) || occursIn part cs

/-- The code points of white space as ranges, both ends included. -/
def blankRanges : List (Nat × Nat) :=
  [(0x9, 0xD), (0x20, 0x20), (0x85, 0x85), (0xA0, 0xA0), (0x1680, 0x1680), (0x2000, 0x200A),
    (0x2028, 0x2029), (0x202F, 0x202F), (0x205F, 0x205F), (0x3000, 0x3000)]

def isBlank (c : Char) : Bool := blankRanges.any fun r => r.1 ≤ c.toNat && c.toNat ≤ r.2

def trimLeft (cs : List Char) : List Char := cs.dropWhile isBlank

def trim (cs : List Char) : List Char := (trimLeft (trimLeft cs).reverse).reverse

def split (sep : Char) : List Char → List (List Char)
  | [] => [[]]
  | c :: cs =>
    if c = sep then [] :: split sep cs
    else
      match split sep cs with
      | [] => [[c]]
      | part :: parts => (c :: part) :: parts

def join (sep : Char) : List (List Char) → List Char
  | [] => []
  | [part] => part
  | part :: parts => part ++ sep :: join sep parts

def splitText (sep : Char) (s : String) : List String := (split sep s.toList).map String.ofList

def joinText (sep : Char) (parts : List String) : String :=
  .ofList (join sep (parts.map String.toList))

def withoutReturn (cs : List Char) : List Char :=
  if cs.getLast? = some '\r' then cs.dropLast else cs

/-- The lines of a text. A line feed ends a line; what follows the last one counts unless it is
empty, and only a line that a line feed ends loses its carriage return. -/
def lines (cs : List Char) : List (List Char) :=
  let parts := split '\n' cs
  let last := parts.getLastD []
  parts.dropLast.map withoutReturn ++ (if last.isEmpty then [] else [last])

end Clientele.Text
