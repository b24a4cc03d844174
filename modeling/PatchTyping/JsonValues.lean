import PatchTyping.ShortestDecimal

/-!
# JSON values and their text

Objects keep their fields in the order given. The compact text has no blanks; the indented text puts
each item and field on a line of its own. Strings are escaped as little as JSON permits.
-/

namespace PatchTyping

inductive Json where
  | null
  | bool (b : Bool)
  | int (n : Int)
  | float (x : Float)
  | str (s : String)
  | arr (items : List Json)
  | obj (fields : List (String × Json))

namespace Json

/-- Numbers are written out in full from `10 ^ -5` up to below `10 ^ 16`. -/
def numberLayout : DecimalLayout := ⟨-5, 16⟩

def hexDigit (n : Nat) : Char := Nat.digitChar n

/-- Only quotes, backslashes and control characters are escaped. -/
def escapedChar (c : Char) : List Char :=
  if c = '"' then ['\\', '"']
  else if c = '\\' then ['\\', '\\']
  else if c = '\x08' then ['\\', 'b']
  else if c = '\x0c' then ['\\', 'f']
  else if c = '\n' then ['\\', 'n']
  else if c = '\r' then ['\\', 'r']
  else if c = '\t' then ['\\', 't']
  else if c.toNat < 0x20 then
    ['\\', 'u', '0', '0', hexDigit (c.toNat / 16), hexDigit (c.toNat % 16)]
  else [c]

def stringChars (s : String) : List Char := '"' :: s.toList.flatMap escapedChar ++ ['"']

def scalarChars : Json → List Char
  | null => ['n', 'u', 'l', 'l']
  | bool true => ['t', 'r', 'u', 'e']
  | bool false => ['f', 'a', 'l', 's', 'e']
  | int n => (toString n).toList
  | float x => (numberLayout.text x).toList
  | str s => stringChars s
  | arr _ => []
  | obj _ => []

mutual

def compactChars : Json → List Char
  | arr [] => ['[', ']']
  | arr (x :: xs) => '[' :: compactChars x ++ compactItems xs ++ [']']
  | obj [] => ['\x7b', '\x7d']
  | obj ((k, x) :: fs) =>
    '\x7b' :: stringChars k ++ ':' :: compactChars x ++ compactFields fs ++ ['\x7d']
  | j => scalarChars j

/-- The items after the first, each with the comma before it. -/
def compactItems : List Json → List Char
  | [] => []
  | x :: xs => ',' :: compactChars x ++ compactItems xs

/-- The fields after the first, each with the comma before it. -/
def compactFields : List (String × Json) → List Char
  | [] => []
  | (k, x) :: fs => ',' :: stringChars k ++ ':' :: compactChars x ++ compactFields fs

end

/-- The start of a line at a nesting level. -/
def lineStart (level : Nat) : List Char := '\n' :: List.replicate (2 * level) ' '

mutual

def indentedChars (level : Nat) : Json → List Char
  | arr [] => ['[', ']']
  | arr (x :: xs) =>
    '[' :: lineStart (level + 1) ++ indentedChars (level + 1) x ++ indentedItems (level + 1) xs
      ++ lineStart level ++ [']']
  | obj [] => ['\x7b', '\x7d']
  | obj ((k, x) :: fs) =>
    '\x7b' :: lineStart (level + 1) ++ stringChars k ++ ':' :: ' ' :: indentedChars (level + 1) x
      ++ indentedFields (level + 1) fs ++ lineStart level ++ ['\x7d']
  | j => scalarChars j

def indentedItems (level : Nat) : List Json → List Char
  | [] => []
  | x :: xs => ',' :: lineStart level ++ indentedChars level x ++ indentedItems level xs

def indentedFields (level : Nat) : List (String × Json) → List Char
  | [] => []
  | (k, x) :: fs =>
    ',' :: lineStart level ++ stringChars k ++ ':' :: ' ' :: indentedChars level x
      ++ indentedFields level fs

end

def compact (j : Json) : String := String.ofList j.compactChars

def indented (j : Json) : String := String.ofList (j.indentedChars 0)

/-- A field that is present only when it has a value. -/
def optional (name : String) : Option Json → List (String × Json)
  | some j => [(name, j)]
  | none => []

end Json

end PatchTyping
