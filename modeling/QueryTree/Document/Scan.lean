import QueryTree.Document.Fault

/-!
# Scanning

A scan takes a value from the front of a text and leaves what follows it, or halts. Where it halts
is told by what is left: in front of it, or one byte further on.
-/

namespace QueryTree.Document

abbrev Scan := StateT (List Char) (Except Halt)

namespace Scan

variable {α β : Type}

/-- Halts in front of what is left. -/
def halt (reason : Reason) : Scan α := fun s => .error ⟨reason, s, 0⟩

/-- Halts with the first byte of what is left consumed. -/
def haltAfter (reason : Reason) : Scan α := fun s => .error ⟨reason, s, 1⟩

/-- Halts looking at the first byte of what is left, or at the end. -/
def haltAt (reason : Reason) : Scan α := fun s =>
  .error ⟨reason, s, if s.isEmpty then 0 else 1⟩

@[simp] theorem pure_apply (a : α) (s : List Char) : (pure a : Scan α) s = .ok (a, s) := rfl

theorem bind_apply (x : Scan α) (f : α → Scan β) (s : List Char) :
    (x >>= f) s = match x s with
      | .ok (a, rest) => f a rest
      | .error halt => .error halt := by
  show StateT.bind x f s = _
  simp only [StateT.bind, bind, Except.bind]
  cases x s <;> rfl

theorem bind_ok {x : Scan α} {a : α} {s rest : List Char} (h : x s = .ok (a, rest))
    (f : α → Scan β) : (x >>= f) s = f a rest := by
  simp [bind_apply, h]

theorem bind_error {x : Scan α} {halt : Halt} {s : List Char} (h : x s = .error halt)
    (f : α → Scan β) : (x >>= f) s = .error halt := by
  simp [bind_apply, h]

/-- The characters in front that satisfy a test. -/
def takeWhile (test : Char → Bool) : Scan (List Char) :=
  fun s => .ok (s.takeWhile test, s.dropWhile test)

def isBlank (c : Char) : Bool := c == ' ' || c == '\n' || c == '\t' || c == '\r'

def skipBlank : Scan Unit := fun s => .ok ((), s.dropWhile isBlank)

/-- Takes the first character if it satisfies a test. -/
def take? (test : Char → Bool) : Scan (Option Char)
  | [] => .ok (none, [])
  | c :: rest => if test c then .ok (some c, rest) else .ok (none, c :: rest)

/-- Takes the first character, whatever it is. -/
def next? : Scan (Option Char)
  | [] => .ok (none, [])
  | c :: rest => .ok (some c, rest)

/-- The first character, which stays. -/
def peek? : Scan (Option Char) := fun s => .ok (s.head?, s)

/-- Passes over the first character. -/
def advance : Scan Unit := fun s => .ok ((), s.tail)

end Scan

end QueryTree.Document
