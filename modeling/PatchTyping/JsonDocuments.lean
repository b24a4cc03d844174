import PatchTyping.NumberLiterals

/-!
# Documents read from JSON text

A document is what a text denotes as far as it goes: where the text breaks off or stops being JSON, the
tree ends in a cut that holds the fault. A reader that goes through the tree from front to back thus
meets wrong content and wrong syntax in the order in which the text has them.

Some texts are well formed and still cannot be read: an escape may denote half a character, a number
may be out of range, nesting may be too deep. Such a part can be passed over, so it is a fault of the
part and not a cut.
-/

namespace PatchTyping

/-- What is wrong with a text as JSON. -/
inductive JsonFault where
  | endInList | endInObject | endInString | endInValue
  | expectedColon | expectedListCommaOrEnd | expectedObjectCommaOrEnd
  | expectedIdent | expectedValue
  | invalidEscape | invalidNumber | numberOutOfRange
  | controlCharacter | keyNotString | loneSurrogate | endOfHexEscape
  | trailingComma | trailingCharacters | tooDeep
deriving DecidableEq, Repr

namespace JsonFault

def message : JsonFault → String
  | endInList => "EOF while parsing a list"
  | endInObject => "EOF while parsing an object"
  | endInString => "EOF while parsing a string"
  | endInValue => "EOF while parsing a value"
  | expectedColon => "expected `:`"
  | expectedListCommaOrEnd => "expected `,` or `]`"
  | expectedObjectCommaOrEnd => "expected `,` or `\x7d`"
  | expectedIdent => "expected ident"
  | expectedValue => "expected value"
  | invalidEscape => "invalid escape"
  | invalidNumber => "invalid number"
  | numberOutOfRange => "number out of range"
  | controlCharacter => "control character (\\u0000-\\u001F) found while parsing a string"
  | keyNotString => "key must be a string"
  | loneSurrogate => "lone leading surrogate in hex escape"
  | endOfHexEscape => "unexpected end of hex escape"
  | trailingComma => "trailing comma"
  | trailingCharacters => "trailing characters"
  | tooDeep => "recursion limit exceeded"

end JsonFault

/-- The tree of a JSON text. A list or object marked `deep` is nested too deeply to be read. -/
inductive Document where
  | null
  | bool (b : Bool)
  | number (n : Except JsonFault Number)
  | string (s : Except JsonFault String)
  | list (deep : Bool) (items : List Document)
  | object (deep : Bool) (fields : List (Except JsonFault String × Document))
  | cut (fault : JsonFault)

namespace Document

/-- Lists and objects are read down to this many levels. -/
def depthLimit : Nat := 127

mutual

/-- The fault met when the document is passed over without being read. -/
def cut? : Document → Option JsonFault
  | cut f => some f
  | list _ items => cutInItems? items
  | object _ fields => cutInFields? fields
  | _ => none

def cutInItems? : List Document → Option JsonFault
  | [] => none
  | d :: ds => (cut? d).or (cutInItems? ds)

def cutInFields? : List (Except JsonFault String × Document) → Option JsonFault
  | [] => none
  | (_, d) :: fs => (cut? d).or (cutInFields? fs)

end

def textFault? {α : Type} : Except JsonFault α → Option JsonFault
  | .ok _ => none
  | .error f => some f

mutual

/-- The first fault met when all of the document is read. -/
def fault? : Document → Option JsonFault
  | cut f => some f
  | number n => textFault? n
  | string s => textFault? s
  | list deep items => if deep then some .tooDeep else faultInItems? items
  | object deep fields => if deep then some .tooDeep else faultInFields? fields
  | _ => none

def faultInItems? : List Document → Option JsonFault
  | [] => none
  | d :: ds => (fault? d).or (faultInItems? ds)

def faultInFields? : List (Except JsonFault String × Document) → Option JsonFault
  | [] => none
  | (k, d) :: fs => ((textFault? k).or (fault? d)).or (faultInFields? fs)

end

end Document

/-- A document and what is wrong with the text after it. -/
structure DocumentText where
  root : Document
  tail : Option JsonFault

end PatchTyping
