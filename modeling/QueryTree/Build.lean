import QueryTree.BuildError

/-!
# Building

A build runs with a count of the implicit variables bound around it. It ends with a value, with a
build error, or with an exception thrown by a host function. Variables are bound for one part of a
build only. Numbered by depth, as sessions do, the count is then what it was before, however that
part ends. Numbered afresh, the count goes on, and no two parts share a number.

The count is a natural number. This assumes that no more variables are bound at one time than a
machine word can count: the names of so many would not fit into memory.
-/

namespace QueryTree

/-- Why a build ends without a value. -/
inductive Stop where
  | failed (error : BuildError)
  | thrown (message : String)
deriving DecidableEq

/-- How a build ends, and the count of bound variables at its end. -/
abbrev Ending := EStateM.Result Stop Nat

abbrev Build := EStateM Stop Nat

/-- How implicit variables are numbered: by the variables bound around them, or afresh. -/
inductive Numbering where
  | byDepth
  | afresh
deriving DecidableEq

/-- The count after a scope, from the counts before it and at its end. -/
def Numbering.leave : Numbering → (before atEnd : Nat) → Nat
  | .byDepth, before, _ => before
  | .afresh, _, atEnd => atEnd

namespace Build

variable {α β : Type}

def fail (error : BuildError) : Build α := fun bound => .error (.failed error) bound

def throw (message : String) : Build α := fun bound => .error (.thrown message) bound

def ofExcept : Except BuildError α → Build α
  | .ok a => pure a
  | .error error => fail error

/-- Binds `count` more variables while `part` runs, which is given the number of the first. Their
sum is assumed to stay below `2 ^ 64`. -/
def binding (numbering : Numbering) (count : Nat) (part : Nat → Build α) : Build α :=
  fun bound => match part bound (bound + count) with
  | .ok a atEnd => .ok a (numbering.leave bound atEnd)
  | .error stop atEnd => .error stop (numbering.leave bound atEnd)

/-- A failure becomes a value; an exception passes. -/
def outcome (x : Build α) : Build (Except BuildError α) := fun bound =>
  match x bound with
  | .ok a bound => .ok (.ok a) bound
  | .error (.failed error) bound => .ok (.error error) bound
  | .error (.thrown message) bound => .error (.thrown message) bound

theorem pure_apply (a : α) (bound : Nat) : (pure a : Build α) bound = .ok a bound := rfl

theorem bind_apply (x : Build α) (f : α → Build β) (bound : Nat) :
    (x >>= f) bound = match x bound with
      | .ok a bound => f a bound
      | .error stop bound => .error stop bound := by
  show EStateM.bind x f bound = _
  simp only [EStateM.bind]
  cases x bound <;> rfl

theorem bind_eq_ok {x : Build α} {f : α → Build β} {bound atEnd : Nat} {b : β}
    (h : (x >>= f) bound = .ok b atEnd) :
    ∃ a middle, x bound = .ok a middle ∧ f a middle = .ok b atEnd := by
  rw [bind_apply] at h
  cases hx : x bound with
  | ok a middle =>
    rw [hx] at h
    exact ⟨a, middle, rfl, h⟩
  | error stop middle =>
    rw [hx] at h
    cases h

end Build

end QueryTree
