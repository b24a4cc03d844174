import PatchTyping.TypeTextTokens

/-!
# Reading a type from its text

The text of a type is a payload, a colon and a unit, then optionally a cardinality after `@` and a
temporality after `!`. A cardinality or temporality that does not work out is left unread, so the
complaint is about its `@` or `!`. The first problem found decides the error.
-/

namespace PatchTyping

/-- What the reader was looking for. -/
inductive Wanted where
  | word
  | colon
  | endOfText
deriving DecidableEq, Repr

/-- Why a text is not a type. -/
inductive TypeTextFault where
  | stray (c : Char)
  | unexpected (found : Option Token) (wanted : Wanted)
  | unknownPayload (name : String)
  | unknownUnit (name : String)
  | disallowedPair (payload : Payload) (unit : UnitTag)
deriving DecidableEq

inductive TypeTextError where
  | malformed (text : String) (span : Span) (fault : TypeTextFault)
  | notConcrete (text : String) (error : TypeError)
deriving DecidableEq

namespace Wanted

def display : Wanted → String
  | word => "'<ident>'"
  | colon => "':'"
  | endOfText => "end of input"

end Wanted

namespace TypeTextFault

def foundText : Option Token → String
  | some t => "'" ++ t.display ++ "'"
  | none => "end of input"

def message : TypeTextFault → String
  | stray c => TypeText.strayMessage c
  | unexpected found wanted => "found " ++ foundText found ++ " expected " ++ wanted.display
  | unknownPayload n => "unknown payload '" ++ n ++ "'"
  | unknownUnit n => "unknown unit '" ++ n ++ "'"
  | disallowedPair p u => (TypeError.disallowedPair p u).message

end TypeTextFault

namespace TypeTextError

def message : TypeTextError → String
  | malformed text span fault =>
    "invalid type notation '" ++ text ++ "' at " ++ toString span.start ++ ".."
      ++ toString span.stop ++ ": " ++ fault.message
  | notConcrete text error => "invalid type notation '" ++ text ++ "': " ++ error.message

end TypeTextError

namespace TypeText

abbrev Fault := Placed TypeTextFault

/-- Complain about the next token, or about the end of a text of `size` bytes. -/
def refuse {α : Type} (size : Nat) (wanted : Wanted) : List (Placed Token) → Except Fault α
  | t :: _ => .error ⟨.unexpected (some t.val) wanted, t.span⟩
  | [] => .error ⟨.unexpected none wanted, ⟨size, size⟩⟩

/-- A variable, or a word that names a value of the axis. -/
def readAxis {α : Type} (size : Nat) (known : String → Option α)
    (unknown : String → TypeTextFault) :
    List (Placed Token) → Except Fault (Axis α × List (Placed Token))
  | ⟨.question, _⟩ :: ⟨.word n, _⟩ :: rest => .ok (.var n, rest)
  | ⟨.word n, s⟩ :: rest =>
    match known n with
    | some a => .ok (.inst a, rest)
    | none => .error ⟨unknown n, s⟩
  | ts => refuse size .word ts

def readColon (size : Nat) : List (Placed Token) → Except Fault (List (Placed Token))
  | ⟨.colon, _⟩ :: rest => .ok rest
  | ts => refuse size .colon ts

/-- A word followed by a parenthesised word is always read with it. -/
def readCardinality : List (Placed Token) → Axis Cardinality × List (Placed Token)
  | ⟨.atSign, a⟩ :: ⟨.question, b⟩ :: ts =>
    match ts with
    | ⟨.word n, _⟩ :: rest => (.var n, rest)
    | _ => (.inst .one, ⟨.atSign, a⟩ :: ⟨.question, b⟩ :: ts)
  | ⟨.atSign, a⟩ :: ⟨.word n, b⟩ :: ts =>
    match ts with
    | ⟨.leftParen, _⟩ :: ⟨.word d, _⟩ :: ⟨.rightParen, _⟩ :: rest =>
      if n = "many" then (.inst (.many d), rest)
      else (.inst .one, ⟨.atSign, a⟩ :: ⟨.word n, b⟩ :: ts)
    | _ =>
      if n = "zero" then (.inst .zero, ts)
      else if n = "one" then (.inst .one, ts)
      else (.inst .one, ⟨.atSign, a⟩ :: ⟨.word n, b⟩ :: ts)
  | ts => (.inst .one, ts)

def readTemporality : List (Placed Token) → Temporality × List (Placed Token)
  | ⟨.bang, a⟩ :: ⟨.word n, b⟩ :: rest =>
    if n = "continuous" then (.continuous, rest)
    else if n = "discrete" then (.discrete, rest)
    else (.continuous, ⟨.bang, a⟩ :: ⟨.word n, b⟩ :: rest)
  | ts => (.continuous, ts)

/-- The bytes of the tokens of `all` that come before `rest`. -/
def spanBefore (all rest : List (Placed Token)) : Span :=
  let read := all.take (all.length - rest.length)
  ⟨(read.head?.map (·.span.start)).getD 0, (read.getLast?.map (·.span.stop)).getD 0⟩

def parseTokens (size : Nat) (ts : List (Placed Token)) : Except Fault PortType := do
  let (payload, afterPayload) ← readAxis size Payload.ofName? .unknownPayload ts
  let afterColon ← readColon size afterPayload
  let (unit, afterUnit) ← readAxis size UnitTag.ofName? .unknownUnit afterColon
  let (cardinality, afterCardinality) := readCardinality afterUnit
  let (temporality, rest) := readTemporality afterCardinality
  let t : PortType := ⟨payload, unit, cardinality, temporality⟩
  match t.disallowedPair? with
  | some (p, u) => .error ⟨.disallowedPair p u, spanBefore ts rest⟩
  | none => if rest.isEmpty then .ok t else refuse size .endOfText rest

end TypeText

/-- Read a port type. A character that fits nowhere is reported before any other problem. -/
def parsePortType (text : String) : Except TypeTextError PortType :=
  let pieces := TypeText.scan text
  match TypeText.strays pieces with
  | c :: _ => .error (.malformed text c.span (.stray c.val))
  | [] =>
    match TypeText.parseTokens text.utf8ByteSize (TypeText.tokens pieces) with
    | .ok t => .ok t
    | .error fault => .error (.malformed text fault.span fault.val)

def parseConcreteType (text : String) : Except TypeTextError ConcreteType := do
  let t ← parsePortType text
  match t.toConcrete with
  | .ok c => .ok c
  | .error e => .error (.notConcrete text e)

end PatchTyping
