import PatchTyping.JsonDocuments
import PatchTyping.JsonValues

/-!
# Reading JSON text

A recursive descent reader over the characters of a text. Every function returns what it has read and
the characters that follow, or no characters once the text has gone wrong. The fuel of the descent is
twice the length of the text, of which every two steps use up at least one character.
-/

namespace PatchTyping.JsonReading

open Document (depthLimit)

def isBlank (c : Char) : Bool := c == ' ' || c == '\n' || c == '\t' || c == '\r'

def skipBlanks (cs : List Char) : List Char := cs.dropWhile isBlank

def expectWord : List Char → List Char → Except JsonFault (List Char)
  | [], cs => .ok cs
  | _ :: _, [] => .error .endInValue
  | w :: ws, c :: cs => if w = c then expectWord ws cs else .error .expectedIdent

/-- The fault of a number that stops too early. -/
def numberBreak {α : Type} : List Char → Except JsonFault α
  | [] => .error .endInValue
  | _ :: _ => .error .invalidNumber

def readFraction : List Char → Except JsonFault (Option (List Char) × List Char)
  | '.' :: cs =>
    let digits := cs.takeWhile Char.isDigit
    let rest := cs.dropWhile Char.isDigit
    if digits.isEmpty then numberBreak rest else .ok (some digits, rest)
  | cs => .ok (none, cs)

def readExponentSign : List Char → Bool × List Char
  | '+' :: cs => (false, cs)
  | '-' :: cs => (true, cs)
  | cs => (false, cs)

def readExponent : List Char → Except JsonFault (Option (Bool × List Char) × List Char)
  | [] => .ok (none, [])
  | c :: cs =>
    if c = 'e' ∨ c = 'E' then
      let (down, cs) := readExponentSign cs
      let digits := cs.takeWhile Char.isDigit
      let rest := cs.dropWhile Char.isDigit
      if digits.isEmpty then numberBreak rest else .ok (some (down, digits), rest)
    else .ok (none, c :: cs)

/-- Digits of which the first is zero only if it is the only one. -/
def readWhole (cs : List Char) : Except JsonFault (List Char × List Char) :=
  let digits := cs.takeWhile Char.isDigit
  let rest := cs.dropWhile Char.isDigit
  match digits with
  | [] => numberBreak rest
  | '0' :: _ :: _ => .error .invalidNumber
  | _ => .ok (digits, rest)

def readNumber (cs : List Char) : Except JsonFault (NumberLiteral × List Char) := do
  let (negative, cs) := match cs with
    | '-' :: rest => (true, rest)
    | _ => (false, cs)
  let (whole, cs) ← readWhole cs
  let (fraction, cs) ← readFraction cs
  let (exponent, cs) ← readExponent cs
  return (⟨negative, whole, fraction, exponent⟩, cs)

def hexValue? (c : Char) : Option Nat :=
  if c.isDigit then some (c.toNat - '0'.toNat)
  else if 'a' ≤ c ∧ c ≤ 'f' then some (c.toNat - 'a'.toNat + 10)
  else if 'A' ≤ c ∧ c ≤ 'F' then some (c.toNat - 'A'.toNat + 10)
  else none

def hexCode? (a b c d : Char) : Option Nat := do
  return (((← hexValue? a) * 16 + (← hexValue? b)) * 16 + (← hexValue? c)) * 16 + (← hexValue? d)

def shortEscape? : Char → Option Char
  | '"' => some '"' | '\\' => some '\\' | '/' => some '/'
  | 'b' => some '\x08' | 'f' => some '\x0c' | 'n' => some '\n'
  | 'r' => some '\r' | 't' => some '\t' | _ => none

/-- The characters of a string read so far, latest first, or the first escape that denotes none. A
leading surrogate waits for its other half. -/
structure StringState where
  chars : Except JsonFault (List Char)
  leading : Option Nat

namespace StringState

def start : StringState := ⟨.ok [], none⟩

def fail (s : StringState) (f : JsonFault) : StringState :=
  match s.chars with
  | .ok _ => ⟨.error f, none⟩
  | .error _ => s

/-- A character that is no second half spoils a waiting first half. -/
def push (s : StringState) (c : Char) : StringState :=
  match s.leading with
  | some _ => s.fail .endOfHexEscape
  | none => ⟨s.chars.map (c :: ·), none⟩

/-- A code unit of UTF-16. -/
def pushUnit (s : StringState) (unit : Nat) : StringState :=
  match s.leading with
  | some first =>
    if 0xDC00 ≤ unit ∧ unit ≤ 0xDFFF then
      ⟨s.chars.map (Char.ofNat (0x10000 + (first - 0xD800) * 0x400 + (unit - 0xDC00)) :: ·), none⟩
    else s.fail .loneSurrogate
  | none =>
    if 0xDC00 ≤ unit ∧ unit ≤ 0xDFFF then s.fail .loneSurrogate
    else if 0xD800 ≤ unit ∧ unit ≤ 0xDBFF then { s with leading := some unit }
    else ⟨s.chars.map (Char.ofNat unit :: ·), none⟩

def finish (s : StringState) : Except JsonFault String :=
  match s.leading, s.chars with
  | none, .ok cs => .ok (String.ofList cs.reverse)
  | some _, .ok _ => .error .endOfHexEscape
  | _, .error f => .error f

end StringState

def readString (s : StringState) :
    List Char → Except JsonFault (Except JsonFault String × List Char)
  | [] => .error .endInString
  | '"' :: cs => .ok (s.finish, cs)
  | '\\' :: 'u' :: a :: b :: c :: d :: cs =>
    match hexCode? a b c d with
    | some unit => readString (s.pushUnit unit) cs
    | none => .error .invalidEscape
  | '\\' :: 'u' :: _ => .error .endInString
  | '\\' :: c :: cs =>
    match shortEscape? c with
    | some e => readString (s.push e) cs
    | none => .error .invalidEscape
  | ['\\'] => .error .endInString
  | c :: cs => if c.toNat < 0x20 then .error .controlCharacter else readString (s.push c) cs

abbrev Rest := Option (List Char)

def ofNumber (cs : List Char) : Document × Rest :=
  match readNumber cs with
  | .ok (literal, rest) =>
    match literal.value with
    | some n => (.number (.ok n), some rest)
    | none => (.number (.error .numberOutOfRange), some rest)
  | .error f => (.cut f, none)

def ofWord (word : List Char) (d : Document) (cs : List Char) : Document × Rest :=
  match expectWord word cs with
  | .ok rest => (d, some rest)
  | .error f => (.cut f, none)

mutual

/-- Read a value inside `depth` lists and objects. -/
def readValue : Nat → Nat → List Char → Document × Rest
  | 0, _, _ => (.cut .endInValue, none)
  | fuel + 1, depth, cs =>
    match skipBlanks cs with
    | [] => (.cut .endInValue, none)
    | 'n' :: rest => ofWord ['u', 'l', 'l'] .null rest
    | 't' :: rest => ofWord ['r', 'u', 'e'] (.bool true) rest
    | 'f' :: rest => ofWord ['a', 'l', 's', 'e'] (.bool false) rest
    | '"' :: rest =>
      match readString .start rest with
      | .ok (s, rest) => (.string s, some rest)
      | .error f => (.cut f, none)
    | '[' :: rest =>
      match skipBlanks rest with
      | [] => (.list (depthLimit ≤ depth) [.cut .endInList], none)
      | ']' :: rest => (.list (depthLimit ≤ depth) [], some rest)
      | rest =>
        let (items, rest) := readItems fuel (depth + 1) rest
        (.list (depthLimit ≤ depth) items, rest)
    | '\x7b' :: rest =>
      match skipBlanks rest with
      | [] => (.object (depthLimit ≤ depth) [(.error .endInObject, .cut .endInObject)], none)
      | '\x7d' :: rest => (.object (depthLimit ≤ depth) [], some rest)
      | rest =>
        let (fields, rest) := readFields fuel (depth + 1) rest
        (.object (depthLimit ≤ depth) fields, rest)
    | c :: rest => if c = '-' ∨ c.isDigit then ofNumber (c :: rest) else (.cut .expectedValue, none)

def readItems : Nat → Nat → List Char → List Document × Rest
  | 0, _, _ => ([.cut .endInList], none)
  | fuel + 1, depth, cs =>
    match readValue fuel depth cs with
    | (d, none) => ([d], none)
    | (d, some rest) =>
      match skipBlanks rest with
      | [] => ([d, .cut .endInList], none)
      | ']' :: rest => ([d], some rest)
      | ',' :: rest =>
        match skipBlanks rest with
        | [] => ([d, .cut .endInValue], none)
        | ']' :: _ => ([d, .cut .trailingComma], none)
        | rest =>
          let (ds, rest) := readItems fuel depth rest
          (d :: ds, rest)
      | _ => ([d, .cut .expectedListCommaOrEnd], none)

def readFields : Nat → Nat → List Char → List (Except JsonFault String × Document) × Rest
  | 0, _, _ => ([(.error .endInObject, .cut .endInObject)], none)
  | fuel + 1, depth, cs =>
    match cs with
    | '"' :: cs =>
      match readString .start cs with
      | .error f => ([(.error f, .cut f)], none)
      | .ok (key, rest) =>
        match skipBlanks rest with
        | [] => ([(key, .cut .endInObject)], none)
        | ':' :: rest =>
          match readValue fuel depth rest with
          | (d, none) => ([(key, d)], none)
          | (d, some rest) =>
            match skipBlanks rest with
            | [] => ([(key, d), (.error .endInObject, .cut .endInObject)], none)
            | '\x7d' :: rest => ([(key, d)], some rest)
            | ',' :: rest =>
              match skipBlanks rest with
              | [] => ([(key, d), (.error .endInValue, .cut .endInValue)], none)
              | '\x7d' :: _ => ([(key, d), (.error .trailingComma, .cut .trailingComma)], none)
              | rest =>
                let (fields, rest) := readFields fuel depth rest
                ((key, d) :: fields, rest)
            | _ =>
              ([(key, d), (.error .expectedObjectCommaOrEnd, .cut .expectedObjectCommaOrEnd)], none)
        | _ => ([(key, .cut .expectedColon)], none)
    | _ => ([(.error .keyNotString, .cut .keyNotString)], none)

end

end PatchTyping.JsonReading

namespace PatchTyping

open JsonReading in
def readDocument (text : String) : DocumentText :=
  let cs := text.toList
  match readValue (2 * cs.length + 2) 0 cs with
  | (d, none) => ⟨d, none⟩
  | (d, some rest) =>
    if (skipBlanks rest).isEmpty then ⟨d, none⟩ else ⟨d, some .trailingCharacters⟩

namespace Document

mutual

/-- The value a document stands for, if nothing is wrong with it. -/
def value? : Document → Option Json
  | null => some .null
  | bool b => some (.bool b)
  | number (.ok (.int n)) => some (.int n)
  | number (.ok (.float x)) => some (.float x)
  | number (.error _) => none
  | string (.ok s) => some (.str s)
  | string (.error _) => none
  | list deep items => if deep then none else (itemValues? items).map .arr
  | object deep fields => if deep then none else (fieldValues? fields).map .obj
  | cut _ => none

def itemValues? : List Document → Option (List Json)
  | [] => some []
  | d :: ds => do return (← value? d) :: (← itemValues? ds)

def fieldValues? : List (Except JsonFault String × Document) → Option (List (String × Json))
  | [] => some []
  | (k, d) :: fs => do return (← k.toOption, ← value? d) :: (← fieldValues? fs)

end

end Document

def Json.parse? (text : String) : Option Json :=
  let doc := readDocument text
  if doc.tail.isNone then doc.root.value? else none

end PatchTyping
