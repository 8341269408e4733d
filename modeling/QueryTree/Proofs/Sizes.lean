import QueryTree.Proofs.Consumption
import QueryTree.Proofs.Survey

/-!
# Sizes of documents that are read

A document has no more objects than its text has characters, and the check counts no more operations
than there are objects. So the number of operations in a text is within the bounds of its length.
-/

namespace QueryTree

/-- The weights of the elements together. -/
def total {α : Type} (weight : α → Nat) : List α → Nat
  | [] => 0
  | a :: rest => weight a + total weight rest

namespace Fields

variable {α : Type} (weight : α → Nat)

theorem total_put (name : String) (value : α) (fields : List (String × α)) :
    total (fun p => weight p.2) (put name value fields) ≤
      weight value + total (fun p => weight p.2) fields := by
  induction fields with
  | nil => exact Nat.le_refl _
  | cons field rest ih =>
    obtain ⟨n, v⟩ := field
    rw [put]
    split <;>
    · simp only [total]
      omega

/-- In arrival order a value takes the place of the one before. -/
theorem total_arrival (pairs : List (String × α)) :
    total (fun p => weight p.2) (arrival pairs) ≤ total (fun p => weight p.2) pairs := by
  suffices ∀ fields : List (String × α), total (fun p => weight p.2)
      (pairs.foldl (fun fields p => put p.1 p.2 fields) fields) ≤
        total (fun p => weight p.2) fields + total (fun p => weight p.2) pairs from
    Nat.le_trans (this []) (Nat.le_of_eq (Nat.zero_add _))
  induction pairs with
  | nil => exact fun _ => Nat.le_refl _
  | cons pair rest ih =>
    intro fields
    have hput := total_put weight pair.1 pair.2 fields
    have hrest := ih (put pair.1 pair.2 fields)
    rw [List.foldl_cons, total]
    omega

end Fields

namespace Document

/-! ## Objects of a document -/

mutual

/-- The number of objects, the document among them. -/
def objects : Document → Nat
  | .array items => objectsItems items
  | .object fields => objectsFields fields + 1
  | _ => 0

def objectsItems : List Document → Nat
  | [] => 0
  | d :: rest => objects d + objectsItems rest

def objectsFields : List (String × Document) → Nat
  | [] => 0
  | (_, d) :: rest => objects d + objectsFields rest

end

theorem objectsItems_eq_total (items : List Document) :
    objectsItems items = total objects items := by
  induction items with
  | nil => rfl
  | cons d rest ih => rw [objectsItems, total, ih]

theorem objectsFields_eq_total (fields : List (String × Document)) :
    objectsFields fields = total (fun p => p.2.objects) fields := by
  induction fields with
  | nil => rfl
  | cons field rest ih => rw [objectsFields, total, ih]

theorem objects_ofFields (pairs : List (String × Document)) :
    (ofFields pairs).objects ≤ total (fun p => p.2.objects) pairs + 1 := by
  rw [ofFields, objects, objectsFields_eq_total]
  exact Nat.succ_le_succ (Fields.total_arrival objects pairs)

/-- A number for each element bounds its weight, so the sum of the numbers bounds the total. -/
theorem Each.total_le {α : Type} {weight : α → Nat} {as : List α} {n : Nat}
    (h : Each (fun a m => weight a ≤ m) as n) : total weight as ≤ n := by
  induction h with
  | nil => exact Nat.le_refl _
  | cons ha _ ih => exact Nat.add_le_add ha ih

theorem objects_scalar {d : Document} (h : d.Scalar) : d.objects = 0 := by
  cases d with
  | array _ => exact h.elim
  | object _ => exact h.elim
  | null | bool _ | integer _ | float _ | string _ => rfl

theorem composed_objects : Composed fun d n => d.objects ≤ n where
  scalar h := Nat.le_of_eq (objects_scalar h)
  array {items n} h := by
    rw [objects, objectsItems_eq_total]
    exact h.total_le
  object {pairs n} h := Nat.le_trans (objects_ofFields pairs) (Nat.succ_le_succ h.total_le)

/-- A text has a character for each object of the document in it. -/
theorem objects_le_length {text : String} {d : Document} (h : parse text = .ok d) :
    d.objects ≤ text.length := by
  obtain ⟨n, hobjects, hlength⟩ := composed_objects.of_parse h
  exact Nat.le_trans hobjects hlength

end Document

namespace Check

open Document

/-! ## Operations that are counted -/

theorem surveyOperand_operations (fields : List (String × Document)) :
    (surveyNamed surveyOperand fields).operations = 0 := by
  induction fields with
  | nil => rfl
  | cons field rest ih =>
    have hoperand : (surveyOperand field.1 field.2).operations = 0 := by
      rw [surveyOperand]
      split <;> rfl
    exact Nat.add_eq_zero_iff.2 ⟨hoperand, ih⟩

mutual

theorem survey_operations_le : ∀ d : Document, (survey d).operations ≤ d.objects
  | .null | .bool _ | .integer _ | .float _ | .string _ => Nat.zero_le _
  | .array items => surveyItems_operations_le items 0
  | .object fields => by
    rw [survey, objects]
    cases Shape.ofNames (fields.map Prod.fst) with
    | objectLiteral => exact Nat.le_succ_of_le (surveyPayloads_operations_le fields)
    | literal => exact Nat.zero_le _
    | operation =>
      have hentries := surveyEntries_operations_le fields
      simp only [Survey.and, Survey.operation, surveyOperand_operations]
      omega
    | unrecognized => exact Nat.zero_le _

theorem surveyItems_operations_le : ∀ (items : List Document) (index : Nat),
    (surveyItems items index).operations ≤ objectsItems items
  | [], _ => Nat.zero_le _
  | item :: rest, index =>
    Nat.add_le_add (survey_operations_le item) (surveyItems_operations_le rest (index + 1))

theorem surveyEntries_operations_le : ∀ fields : List (String × Document),
    (surveyEntries fields).operations ≤ objectsFields fields
  | [] => Nat.zero_le _
  | (name, d) :: rest => by
    rw [surveyEntries]
    refine Nat.add_le_add ?_ (surveyEntries_operations_le rest)
    rw [Survey.under]
    split
    · exact surveyBindings_operations_le d
    · split
      · exact Nat.zero_le _
      · exact survey_operations_le d

theorem surveyObject_operations_le (message : String) : ∀ d : Document,
    (surveyObject message d).operations ≤ d.objects
  | .object fields => Nat.le_succ_of_le (surveyValues_operations_le fields)
  | .null | .bool _ | .integer _ | .float _ | .string _ | .array _ => Nat.zero_le _

theorem surveyPayloads_operations_le : ∀ fields : List (String × Document),
    (surveyPayloads fields).operations ≤ objectsFields fields
  | [] => Nat.zero_le _
  | (_, d) :: rest =>
    Nat.add_le_add (surveyObject_operations_le _ d) (surveyPayloads_operations_le rest)

theorem surveyValues_operations_le : ∀ fields : List (String × Document),
    (surveyValues fields).operations ≤ objectsFields fields
  | [] => Nat.zero_le _
  | (_, d) :: rest => Nat.add_le_add (survey_operations_le d) (surveyValues_operations_le rest)

theorem surveyBindings_operations_le : ∀ d : Document,
    (surveyBindings d).operations ≤ d.objects
  | .array items => surveyBindingItems_operations_le items 0
  | .object fields => Nat.le_succ_of_le (surveyValues_operations_le fields)
  | .null | .bool _ | .integer _ | .float _ | .string _ => Nat.zero_le _

theorem surveyBindingItems_operations_le : ∀ (items : List Document) (index : Nat),
    (surveyBindingItems items index).operations ≤ objectsItems items
  | [], _ => Nat.zero_le _
  | d :: rest, index =>
    Nat.add_le_add (surveyObject_operations_le _ d)
      (surveyBindingItems_operations_le rest (index + 1))

end

/-- Each operation that is counted has a character of the text to itself. -/
theorem operations_le_length {text : String} {d : Document} (h : parse text = .ok d) :
    (document d).operations ≤ text.length := by
  have hcount : (document d).operations = (survey d).operations := by
    rw [document_survey]
    exact Nat.zero_add _
  rw [hcount]
  exact Nat.le_trans (survey_operations_le d) (objects_le_length h)

end Check

end QueryTree
