/-!
# Faults of a text

Why a text is no document, and where: a position counts the bytes consumed so far in the UTF-8 form
of the text, and is shown as a line and a column.
-/

namespace QueryTree.Document

inductive Reason where
  | endInValue
  | endInString
  | endInList
  | endInObject
  | unfinishedWord
  | expectedValue
  | expectedColon
  | expectedListEnd
  | expectedObjectEnd
  | invalidNumber
  | outOfRange
  | controlCharacter
  | invalidEscape
  | loneSurrogate
  | unpairedSurrogate
  | keyNotString
  | trailingComma
  | trailingText
  | tooDeep
deriving DecidableEq

def Reason.message : Reason → String
  | .endInValue => "EOF while parsing a value"
  | .endInString => "EOF while parsing a string"
  | .endInList => "EOF while parsing a list"
  | .endInObject => "EOF while parsing an object"
  | .unfinishedWord => "expected ident"
  | .expectedValue => "expected value"
  | .expectedColon => "expected `:`"
  | .expectedListEnd => "expected `,` or `]`"
  | .expectedObjectEnd => "expected `,` or `\x7d`"
  | .invalidNumber => "invalid number"
  | .outOfRange => "number out of range"
  | .controlCharacter => "control character (\\u0000-\\u001F) found while parsing a string"
  | .invalidEscape => "invalid escape"
  | .loneSurrogate => "lone leading surrogate in hex escape"
  | .unpairedSurrogate => "unexpected end of hex escape"
  | .keyNotString => "key must be a string"
  | .trailingComma => "trailing comma"
  | .trailingText => "trailing characters"
  | .tooDeep => "recursion limit exceeded"

/-- Reading stopped `ahead` bytes into `rest`, the last part of the text. -/
structure Halt where
  reason : Reason
  rest : List Char
  ahead : Nat

/-- The number of bytes in the UTF-8 form. -/
def byteLength : List Char → Nat
  | [] => 0
  | c :: rest => c.utf8Size + byteLength rest

/-- Line and column after some bytes of a text. -/
structure Position where
  line : Nat
  column : Nat
deriving DecidableEq

/-- Moves over the characters that lie wholly in the given number of bytes; what is left of the
number counts as columns. -/
def Position.advance (p : Position) : (bytes : Nat) → List Char → Position
  | bytes, [] => { p with column := p.column + bytes }
  | bytes, c :: rest =>
    if bytes < c.utf8Size then { p with column := p.column + bytes }
    else if c = '\n' then advance ⟨p.line + 1, 0⟩ (bytes - c.utf8Size) rest
    else advance { p with column := p.column + c.utf8Size } (bytes - c.utf8Size) rest

structure Fault where
  reason : Reason
  position : Position
deriving DecidableEq

def Halt.toFault (halt : Halt) (text : List Char) : Fault :=
  ⟨halt.reason,
    Position.advance ⟨1, 0⟩ (byteLength text - byteLength halt.rest + halt.ahead) text⟩

def Fault.message (fault : Fault) : String :=
  fault.reason.message ++ " at line " ++ toString fault.position.line ++ " column " ++
    toString fault.position.column

end QueryTree.Document
