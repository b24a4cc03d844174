import PatchTyping.JsonReading
import PatchTyping.JsonValues
import PatchTyping.QuotedText

/-!
# Turning documents into data

A decoder goes through a document from front to back and stops at the first problem. Records are
described field by field; a record may be written as an object or as the list of its fields in order.
In an object, unknown fields are passed over, a field may not occur twice, and a field that is missing
takes its default or is reported once the object has been read to its end.

A tagged union is an object with a field that names the variant, wherever it stands, or a list that
starts with that name. The other fields are read as soon as the whole object is known to be well formed.
-/

namespace PatchTyping

/-- What a document holds, in the words of a message. -/
inductive Found where
  | null
  | boolean (b : Bool)
  | integer (n : Int)
  | floating (x : Float)
  | string (s : String)
  | sequence
  | map

/-- What is wrong with the content of a well-formed text. -/
inductive ContentFault where
  | missingField (name : String)
  | duplicateField (name : String)
  | wrongType (found : Found) (expected : String)
  | wrongValue (found : Found) (expected : String)
  | wrongLength (length : Nat) (expected : String)
  | unknownVariant (name : String) (known : List String)
  /-- The content is of the right shape, and rejected for the reason given. -/
  | rejected (reason : String)

inductive DecodeError where
  | malformed (fault : JsonFault)
  | content (fault : ContentFault)

def Found.text : Found → String
  | null => "null"
  | boolean true => "boolean `true`"
  | boolean false => "boolean `false`"
  | integer n => "integer `" ++ toString n ++ "`"
  | floating x => "floating point `" ++ Json.numberLayout.text x ++ "`"
  | string s => "string " ++ quotedText s
  | sequence => "sequence"
  | map => "map"

namespace ContentFault

def ticked (name : String) : String := "`" ++ name ++ "`"

def alternatives : List String → String
  | [] => "there are no variants"
  | [a] => "expected " ++ ticked a
  | [a, b] => "expected " ++ ticked a ++ " or " ++ ticked b
  | names => "expected one of " ++ ", ".intercalate (names.map ticked)

def message : ContentFault → String
  | missingField n => "missing field " ++ ticked n
  | duplicateField n => "duplicate field " ++ ticked n
  | wrongType found expected => "invalid type: " ++ found.text ++ ", expected " ++ expected
  | wrongValue found expected => "invalid value: " ++ found.text ++ ", expected " ++ expected
  | wrongLength n expected => "invalid length " ++ toString n ++ ", expected " ++ expected
  | unknownVariant n known => "unknown variant " ++ ticked n ++ ", " ++ alternatives known
  | rejected reason => reason

end ContentFault

namespace DecodeError

def message : DecodeError → String
  | malformed f => f.message
  | content f => f.message

end DecodeError

abbrev Decoder (α : Type) := Document → Except DecodeError α

namespace Decoder

variable {α β : Type}

def fault (f : ContentFault) : Except DecodeError α := .error (.content f)

def malformed (f : JsonFault) : Except DecodeError α := .error (.malformed f)

/-- Fail unless the fault is absent. -/
def unlessFault : Option JsonFault → Except DecodeError PUnit
  | some f => malformed f
  | none => .ok ()

def mismatch (expected : String) : Document → Except DecodeError α
  | .null => fault (.wrongType .null expected)
  | .bool b => fault (.wrongType (.boolean b) expected)
  | .number (.ok (.int n)) => fault (.wrongType (.integer n) expected)
  | .number (.ok (.float x)) => fault (.wrongType (.floating x) expected)
  | .number (.error f) => malformed f
  | .string (.ok s) => fault (.wrongType (.string s) expected)
  | .string (.error f) => malformed f
  | .list _ _ => fault (.wrongType .sequence expected)
  | .object _ _ => fault (.wrongType .map expected)
  | .cut f => malformed f

def string : Decoder String
  | .string (.ok s) => .ok s
  | d => mismatch "a string" d

def boolean : Decoder Bool
  | .bool b => .ok b
  | d => mismatch "a boolean" d

def real : Decoder Float
  | .number (.ok (.float x)) => .ok x
  | .number (.ok (.int n)) => .ok (NumberLiteral.signed (n < 0) n.natAbs.toUInt64.toFloat)
  | d => mismatch "f64" d

def word32 : Decoder UInt32
  | .number (.ok (.int n)) =>
    if 0 ≤ n ∧ n.toNat < UInt32.size then .ok n.toNat.toUInt32
    else fault (.wrongValue (.integer n) "u32")
  | d => mismatch "u32" d

def parsed (parse : String → Except String α) : Decoder α := fun d => do
  let s ← string d
  match parse s with
  | .ok a => .ok a
  | .error reason => fault (.rejected reason)

def list (item : Decoder α) : Decoder (List α)
  | .list deep items => if deep then malformed .tooDeep else items.mapM item
  | d => mismatch "a sequence" d

/-- `null` stands for a missing value. -/
def optional (value : Decoder α) : Decoder (Option α)
  | .null => .ok none
  | d => some <$> value d

def key : Except JsonFault String → Except DecodeError String
  | .ok s => .ok s
  | .error f => malformed f

/-- The entries of an object whose keys are free. -/
def entries (value : Decoder α) : Decoder (List (String × α))
  | .object deep fields =>
    if deep then malformed .tooDeep
    else fields.mapM fun (k, d) => do
      let k ← key k
      let a ← value d
      return (k, a)
  | d => mismatch "a map" d

end Decoder

/-- How a record is read: its fields in order, each with the values seen so far. -/
structure Record (α : Type) where
  Slots : Type
  start : Slots
  size : Nat
  /-- Take a field of an object; `none` when the record has no such field. -/
  accept : Slots → String → Document → Option (Except DecodeError Slots)
  /-- The record, once the object has ended. -/
  complete : Slots → Except DecodeError α
  /-- The record from the items of a list, of which the first `index` are used up. -/
  ofItems : (index : Nat) → (expected : String) → List Document →
    Except DecodeError (α × List Document)

namespace Record

variable {α β : Type}

def field (name : String) (value : Decoder α) (default : Option α) : Record α where
  Slots := Option α
  start := none
  size := 1
  accept slot k d :=
    if k = name then
      match slot with
      | some _ => some (Decoder.fault (.duplicateField name))
      | none => some (some <$> value d)
    else none
  complete slot :=
    match slot.or default with
    | some a => .ok a
    | none => Decoder.fault (.missingField name)
  ofItems index expected items :=
    match items, default with
    | d :: ds, _ => do return (← value d, ds)
    | [], some a => .ok (a, [])
    | [], none => Decoder.fault (.wrongLength index expected)

def required (name : String) (value : Decoder α) : Record α := field name value none

def defaulting (name : String) (value : Decoder α) (a : α) : Record α := field name value (some a)

/-- The fields of one record followed by those of another. -/
def and (r : Record α) (q : Record β) : Record (α × β) where
  Slots := r.Slots × q.Slots
  start := (r.start, q.start)
  size := r.size + q.size
  accept slots k d :=
    match r.accept slots.1 k d with
    | some result => some ((·, slots.2) <$> result)
    | none => (q.accept slots.2 k d).map fun result => (slots.1, ·) <$> result
  complete slots := do return (← r.complete slots.1, ← q.complete slots.2)
  ofItems index expected items := do
    let (a, items) ← r.ofItems index expected items
    let (b, items) ← q.ofItems (index + r.size) expected items
    return ((a, b), items)

def map (f : α → β) (r : Record α) : Record β where
  Slots := r.Slots
  start := r.start
  size := r.size
  accept := r.accept
  complete slots := f <$> r.complete slots
  ofItems index expected items := do
    let (a, items) ← r.ofItems index expected items
    return (f a, items)

def elements (n : Nat) : String := toString n ++ (if n = 1 then " element" else " elements")

/-- One more field of an object; unknown ones are passed over. -/
def step (r : Record α) (slots : r.Slots) (entry : Except JsonFault String × Document) :
    Except DecodeError r.Slots := do
  let k ← Decoder.key entry.1
  match r.accept slots k entry.2 with
  | some result => result
  | none =>
    Decoder.unlessFault entry.2.cut?
    return slots

def ofFields (r : Record α) (fields : List (Except JsonFault String × Document)) :
    Except DecodeError α := do
  r.complete (← fields.foldlM r.step r.start)

/-- Items beyond the last field are not even looked at. -/
def noMore : List Document → Except DecodeError PUnit
  | [] => .ok ()
  | .cut f :: _ => Decoder.malformed f
  | _ :: _ => Decoder.malformed .trailingCharacters

def decode (r : Record α) (name : String) : Decoder α
  | .object deep fields =>
    if deep then Decoder.malformed .tooDeep else r.ofFields fields
  | .list deep items =>
    if deep then Decoder.malformed .tooDeep
    else do
      let (a, rest) ← r.ofItems 0 ("struct " ++ name ++ " with " ++ elements r.size) items
      noMore rest
      return a
  | d => Decoder.mismatch ("struct " ++ name) d

end Record

/-- A variant of a union: its tag, and how its content is read from the fields of an object or from
the items of a list, both without the tag. -/
structure Variant (α : Type) where
  tag : String
  ofFields : List (Except JsonFault String × Document) → Except DecodeError α
  ofItems : List Document → Except DecodeError α

namespace Variant

variable {α : Type}

/-- Exactly `size` items were expected. -/
def noMore (size total : Nat) : Except DecodeError PUnit :=
  if total ≤ size then .ok ()
  else Decoder.fault (.wrongLength total (Record.elements size ++ " in sequence"))

/-- A variant without content. Fields are passed over, items are not. -/
def bare (tag : String) (a : α) : Variant α where
  tag := tag
  ofFields _ := .ok a
  ofItems items := do
    noMore 0 items.length
    return a

/-- A variant that holds a record; `title` names it in messages. -/
def record (tag title : String) (r : Record α) : Variant α where
  tag := tag
  ofFields := r.ofFields
  ofItems items := do
    let expected := "struct variant " ++ title ++ " with " ++ Record.elements r.size
    let (a, _) ← r.ofItems 0 expected items
    noMore r.size items.length
    return a

end Variant

/-- A union of variants told apart by a tag field. -/
structure TaggedUnion (α : Type) where
  title : String
  tagField : String
  variants : List (Variant α)

namespace TaggedUnion

variable {α : Type}

def variant (u : TaggedUnion α) : Decoder (Variant α)
  | .string (.ok s) =>
    match u.variants.find? (fun v => v.tag == s) with
    | some v => .ok v
    | none => Decoder.fault (.unknownVariant s (u.variants.map (·.tag)))
  | d => Decoder.mismatch "variant identifier" d

/-- The variant, once its tag has been met, and the other fields so far, latest first. -/
structure Seen (α : Type) where
  variant : Option (Variant α)
  fields : List (Except JsonFault String × Document)

def step (u : TaggedUnion α) (seen : Seen α) (entry : Except JsonFault String × Document) :
    Except DecodeError (Seen α) := do
  let k ← Decoder.key entry.1
  if k = u.tagField then
    match seen.variant with
    | some _ => Decoder.fault (.duplicateField u.tagField)
    | none => return { seen with variant := some (← u.variant entry.2) }
  else
    Decoder.unlessFault entry.2.fault?
    return { seen with fields := entry :: seen.fields }

def ofFields (u : TaggedUnion α) (fields : List (Except JsonFault String × Document)) :
    Except DecodeError α := do
  let seen ← fields.foldlM u.step ⟨none, []⟩
  match seen.variant with
  | none => Decoder.fault (.missingField u.tagField)
  | some v => v.ofFields seen.fields.reverse

def ofItems (u : TaggedUnion α) : List Document → Except DecodeError α
  | [] => Decoder.fault (.missingField u.tagField)
  | d :: items => do
    let v ← u.variant d
    Decoder.unlessFault (Document.faultInItems? items)
    v.ofItems items

def decode (u : TaggedUnion α) : Decoder α
  | .object deep fields =>
    if deep then Decoder.malformed .tooDeep else u.ofFields fields
  | .list deep items =>
    if deep then Decoder.malformed .tooDeep else u.ofItems items
  | d => Decoder.mismatch ("internally tagged enum " ++ u.title) d

end TaggedUnion

namespace Decoder

variable {α : Type}

def named (names : List (String × α)) (s : String) : Except DecodeError α :=
  match names.lookup s with
  | some a => .ok a
  | none => fault (.unknownVariant s (names.map (·.1)))

/-- A name out of a list; also as the only key of an object that holds nothing. -/
def choice (names : List (String × α)) : Decoder α
  | .string (.ok s) => named names s
  | .object _ [(k, d)] => do
    let a ← named names (← key k)
    match d with
    | .null => return a
    | .object _ [] => return a
    | d => mismatch "unit" d
  | .object _ _ => fault (.wrongValue .map "map with a single key")
  | d => mismatch "string or map" d

def run (decoder : Decoder α) (doc : DocumentText) : Except DecodeError α := do
  let a ← decoder doc.root
  unlessFault doc.tail
  return a

end Decoder

end PatchTyping
