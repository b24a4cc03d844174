import PatchTyping.PortTypes
import PatchTyping.QuotedText

/-!
# Tokens of the type text

A type is written as words and six symbols, with blanks anywhere between them. A word is a maximal
run of word characters that begins with a letter or an underscore; its dots and dashes let node names
serve as domain names. A character that fits nowhere is set aside on its own and scanning goes on.
Offsets count bytes of the UTF-8 text.
-/

namespace PatchTyping

/-- Bytes from `start` up to and not including `stop`. -/
structure Span where
  start : Nat
  stop : Nat
deriving DecidableEq, Repr

inductive Token where
  | colon | atSign | question | bang | leftParen | rightParen
  | word (name : String)
deriving DecidableEq, Repr

/-- What scanning finds at one place: a token, or a character that belongs to none. -/
inductive Piece where
  | token (t : Token)
  | stray (c : Char)
deriving DecidableEq, Repr

/-- A value together with the bytes it was read from. -/
structure Placed (α : Type) where
  val : α
  span : Span
deriving DecidableEq, Repr

namespace Token

/-- How a message names the token; words are not spelled out. -/
def display : Token → String
  | colon => ":" | atSign => "@" | question => "?" | bang => "!"
  | leftParen => "(" | rightParen => ")" | word _ => "<ident>"

def ofSymbol? : Char → Option Token
  | ':' => some colon | '@' => some atSign | '?' => some question | '!' => some bang
  | '(' => some leftParen | ')' => some rightParen | _ => none

end Token

namespace TypeText

def isBlank (c : Char) : Bool := c == ' ' || c == '\t' || c == '\r' || c == '\n'

def isWordStart (c : Char) : Bool := c.isAlpha || c == '_'

def isWordChar (c : Char) : Bool := c.isAlphanum || c == '_' || c == '.' || c == '-'

/-- A text is a word when the scanner would return it whole. -/
def isWord (s : String) : Bool :=
  match s.toList with
  | [] => false
  | c :: cs => isWordStart c && cs.all isWordChar

/-- The word being read: where it starts and its characters, latest first. -/
structure OpenWord where
  start : Nat
  letters : List Char

/-- The finished word, ending before byte `stop`. -/
def OpenWord.close (w : OpenWord) (stop : Nat) : Placed Piece :=
  ⟨.token (.word (String.ofList w.letters.reverse)), ⟨w.start, stop⟩⟩

/-- What a character outside any word stands for; nothing, if it is a blank. -/
def single (c : Char) (pos : Nat) : List (Placed Piece) :=
  if isBlank c then []
  else match Token.ofSymbol? c with
    | some t => [⟨.token t, ⟨pos, pos + c.utf8Size⟩⟩]
    | none => [⟨.stray c, ⟨pos, pos + c.utf8Size⟩⟩]

def scanFrom : Option OpenWord → Nat → List Char → List (Placed Piece)
  | none, _, [] => []
  | some w, pos, [] => [w.close pos]
  | none, pos, c :: cs =>
    if isWordStart c then scanFrom (some ⟨pos, [c]⟩) (pos + c.utf8Size) cs
    else single c pos ++ scanFrom none (pos + c.utf8Size) cs
  | some w, pos, c :: cs =>
    if isWordChar c then scanFrom (some { w with letters := c :: w.letters }) (pos + c.utf8Size) cs
    else w.close pos :: single c pos ++ scanFrom none (pos + c.utf8Size) cs

/-- All pieces of the text, from left to right. -/
def scan (text : String) : List (Placed Piece) := scanFrom none 0 text.toList

def tokens (pieces : List (Placed Piece)) : List (Placed Token) :=
  pieces.filterMap fun p => match p.val with
    | .token t => some ⟨t, p.span⟩
    | .stray _ => none

def strays (pieces : List (Placed Piece)) : List (Placed Char) :=
  pieces.filterMap fun p => match p.val with
    | .token _ => none
    | .stray c => some ⟨c, p.span⟩

def strayMessage (c : Char) : String := "unexpected character: " ++ quotedText c.toString

end TypeText

end PatchTyping
