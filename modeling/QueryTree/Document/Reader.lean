import QueryTree.Document.Numeral

/-!
# Reading documents

A strict reader of JSON text: no comments, no comma at the end of a list, nothing but blanks after
the document, and no more than 127 brackets inside one another. In an object a repeated name keeps
its first place and takes its last value.
-/

namespace QueryTree.Document

namespace Reader

open Scan

/-- The letters of a word after its first one. -/
def word (value : Document) : (letters : List Char) → Scan Document
  | [], rest => .ok (value, rest)
  | _ :: _, [] => halt .endInValue []
  | letter :: letters, c :: rest =>
    if c = letter then word value letters rest else haltAfter .unfinishedWord (c :: rest)

def hexValue? (c : Char) : Option Nat :=
  if c.isDigit then some (c.toNat - '0'.toNat)
  else if 'a' ≤ c ∧ c ≤ 'f' then some (c.toNat - 'a'.toNat + 10)
  else if 'A' ≤ c ∧ c ≤ 'F' then some (c.toNat - 'A'.toNat + 10)
  else none

/-- The number written by the next four bytes. -/
def hexUnit : Scan Nat := fun s =>
  if byteLength (s.take 4) < 4 then halt .endInString []
  else
    match (s.take 4).mapM hexValue? with
    | some ds => .ok (ds.foldl (fun n d => 16 * n + d) 0, s.drop 4)
    | none => .error ⟨.invalidEscape, s, 4⟩

def isLeading (unit : Nat) : Bool := decide (0xD800 ≤ unit ∧ unit < 0xDC00)

def isTrailing (unit : Nat) : Bool := decide (0xDC00 ≤ unit ∧ unit < 0xE000)

/-- The character of a surrogate pair. -/
def paired (leading trailing : Nat) : Char :=
  Char.ofNat (0x10000 + (leading - 0xD800) * 0x400 + (trailing - 0xDC00))

/-- A character that an escape cannot do without. -/
def expectInEscape (c : Char) : Scan Unit
  | [] => halt .endInString []
  | d :: rest => if d = c then .ok ((), rest) else haltAfter .unpairedSurrogate (d :: rest)

/-- The character of an escape by code, after its letter. -/
def coded : Scan Char := do
  let unit ← hexUnit
  if isTrailing unit then halt .loneSurrogate
  else if isLeading unit then
    expectInEscape '\\'
    expectInEscape 'u'
    let low ← hexUnit
    if isTrailing low then return paired unit low else halt .loneSurrogate
  else return Char.ofNat unit

/-- The character that a letter after a backslash stands for. -/
def lettered? (c : Char) : Option Char :=
  if c = '"' then some '"'
  else if c = '\\' then some '\\'
  else if c = '/' then some '/'
  else if c = 'b' then some '\x08'
  else if c = 'f' then some '\x0c'
  else if c = 'n' then some '\n'
  else if c = 'r' then some '\r'
  else if c = 't' then some '\t'
  else none

/-- The character of an escape, after its backslash. -/
def escaped : Scan Char
  | [] => halt .endInString []
  | c :: rest =>
    if c = 'u' then coded rest
    else
      match lettered? c with
      | some x => .ok (x, rest)
      | none => haltAfter .invalidEscape (c :: rest)

/-- The characters up to the closing quote; `fuel` bounds their number. -/
def characters : (fuel : Nat) → Scan (List Char)
  | 0 => halt .endInString
  | fuel + 1 => do
    match ← next? with
    | none => halt .endInString
    | some c =>
      if c = '"' then return []
      else if c = '\\' then
        let x ← escaped
        return x :: (← characters fuel)
      else if c.toNat < 32 then halt .controlCharacter
      else return c :: (← characters fuel)

/-- The rest of a string, after its opening quote. -/
def string : Scan String := do
  return String.ofList (← fun s => characters (s.length + 1) s)

/-- After an entry: whether a comma announces another one before the closing bracket. -/
def another (closing : Char) (atEnd otherwise : Reason) : Scan Bool := do
  skipBlank
  match ← peek? with
  | none => haltAt atEnd
  | some c =>
    if c = closing then
      advance
      return false
    else if c = ',' then
      advance
      skipBlank
      match ← peek? with
      | none => haltAt .endInValue
      | some d => if d = closing then haltAt .trailingComma else return true
    else haltAt otherwise

/-- After an opening bracket: whether entries follow before the closing one. -/
def nonempty (closing : Char) (atEnd : Reason) : Scan Bool := do
  skipBlank
  match ← peek? with
  | none => haltAt atEnd
  | some c =>
    if c = closing then
      advance
      return false
    else return true

/-- The entries from one of them on, up to the closing bracket; `fuel` bounds their number. -/
def entries {α : Type} (entry : Scan α) (closing : Char) (atEnd otherwise : Reason) :
    (fuel : Nat) → Scan (List α)
  | 0 => halt atEnd
  | fuel + 1 => do
    let first ← entry
    if ← another closing atEnd otherwise then
      return first :: (← entries entry closing atEnd otherwise fuel)
    else return [first]

/-- Bracketed entries, after the opening bracket. A text has fewer entries than characters. -/
def bracketed {α : Type} (entry : Scan α) (closing : Char) (atEnd otherwise : Reason) :
    Scan (List α) := do
  if ← nonempty closing atEnd then
    fun s => entries entry closing atEnd otherwise (s.length + 1) s
  else return []

/-- The name of a field, and the colon after it. -/
def fieldName : Scan String := do
  match ← take? (· == '"') with
  | none => haltAt .keyNotString
  | some _ =>
    let name ← string
    skipBlank
    match ← peek? with
    | none => haltAt .endInObject
    | some c =>
      if c = ':' then
        advance
        return name
      else haltAt .expectedColon

def field (value : Scan Document) : Scan (String × Document) :=
  return (← fieldName, ← value)

def array (value : Scan Document) : Scan Document :=
  return .array (← bracketed value ']' .endInList .expectedListEnd)

def object (value : Scan Document) : Scan Document :=
  return ofFields (← bracketed (field value) '}' .endInObject .expectedObjectEnd)

/-- A value without blanks in front; what stands in its brackets is read by `inner`, unless they are
too deep. -/
def valueWith (inner : Option (Scan Document)) : Scan Document
  | [] => haltAt .endInValue []
  | c :: rest =>
    if c = 'n' then word .null ['u', 'l', 'l'] rest
    else if c = 't' then word (.bool true) ['r', 'u', 'e'] rest
    else if c = 'f' then word (.bool false) ['a', 'l', 's', 'e'] rest
    else if c = '"' then (return Document.string (← string) : Scan Document) rest
    else if c = '-' then Numeral.read true rest
    else if c.isDigit then Numeral.read false (c :: rest)
    else if c = '[' ∨ c = '{' then
      match inner with
      | none => haltAt .tooDeep (c :: rest)
      | some value => if c = '[' then array value rest else object value rest
    else haltAt .expectedValue (c :: rest)

/-- A value with at most `depth` brackets inside one another. -/
def value : (depth : Nat) → Scan Document
  | 0 => do
    skipBlank
    valueWith none
  | depth + 1 => do
    skipBlank
    valueWith (some (value depth))

/-- How many brackets may stand inside one another. -/
def greatestDepth : Nat := 127

/-- A document and nothing else. -/
def document : Scan Document := do
  let d ← value greatestDepth
  skipBlank
  match ← peek? with
  | none => return d
  | some _ => haltAt .trailingText

end Reader

def parse (text : String) : Except Fault Document :=
  match Reader.document text.toList with
  | .ok (d, _) => .ok d
  | .error halt => .error (halt.toFault text.toList)

end QueryTree.Document
