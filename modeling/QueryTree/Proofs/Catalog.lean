import Mathlib.Data.List.Nodup
import Mathlib.Tactic.MkIffOfInductiveProp
import QueryTree.Builder

/-!
# Tags and field names of the catalog

The columns of the catalog agree with the builders. A tag belongs to one entry, the names of a
node's fields are distinct, and no two entries have each other's tag among their fields. A name is
compared through the number of its bytes, so that the tables are checked by arithmetic.
-/

namespace QueryTree

namespace Form

/-- Where the operand under the tag comes from, and the further fields. A constant holds null. The
forms that bind names and the object literal have no such layout. -/
def layout? : Form → Option (Position × List Slot)
  | .constant | .listing => some (.value, [])
  | .operation operand fields => some (operand, fields)
  | .traversal => some (.lambda, [.required "collection"])
  | .call => some (.value, [⟨"arguments", .items 0, false⟩])
  | .letIn | .lambda | .object => none

/-- The names of the fields after the tag. -/
def fieldNames : Form → List String
  | .letIn => ["in"]
  | .lambda => ["expr"]
  | form => ((form.layout?.map Prod.snd).getD []).map Slot.name

/-- The fields after the tag. A let and a lambda take a body there. -/
def slots : Form → List Slot
  | .letIn => [.required "in"]
  | .lambda => [.required "expr"]
  | form => (form.layout?.map Prod.snd).getD []

/-- The names of the fields that are always there, in their order. -/
def requiredNames (form : Form) : List String := (form.slots.filter (!·.optional)).map Slot.name

/-- The names of the fields that may be left out, in their order. -/
def optionalNames (form : Form) : List String := (form.slots.filter (·.optional)).map Slot.name

theorem slots_of_layout {form : Form} {position : Position} {slots : List Slot}
    (h : form.layout? = some (position, slots)) : form.slots = slots := by
  cases form <;> simp_all [layout?, Form.slots]

theorem fieldNames_of_layout {form : Form} {position : Position} {slots : List Slot}
    (h : form.layout? = some (position, slots)) : form.fieldNames = slots.map Slot.name := by
  cases form <;> simp_all [layout?, fieldNames]

end Form

def Entry.fieldNames (e : Entry) : List String := (e.form?.map Form.fieldNames).getD []

theorem Entry.fieldNames_of_form {e : Entry} {form : Form} (h : e.form? = some form) :
    e.fieldNames = form.fieldNames := by
  simp [Entry.fieldNames, h]

def Entry.requiredNames (e : Entry) : List String := (e.form?.map Form.requiredNames).getD []

def Entry.optionalNames (e : Entry) : List String := (e.form?.map Form.optionalNames).getD []

/-- No field that may be left out stands before one that may not. -/
def inOrder : List Slot → Bool
  | [] => true
  | slot :: rest => (!slot.optional || rest.all (·.optional)) && inOrder rest

theorem eq_append_of_inOrder {slots : List Slot} (h : inOrder slots = true) :
    slots = slots.filter (!·.optional) ++ slots.filter (·.optional) := by
  induction slots with
  | nil => rfl
  | cons slot rest ih =>
    simp only [inOrder, Bool.and_eq_true, Bool.or_eq_true, Bool.not_eq_true', List.all_eq_true] at h
    obtain ⟨hfirst, hrest⟩ := h
    cases hslot : slot.optional with
    | false =>
      simp only [List.filter_cons, hslot]
      exact congrArg (slot :: ·) (ih hrest)
    | true =>
      have hall := hfirst.resolve_left (by simp [hslot])
      have hnone : rest.filter (!·.optional) = [] :=
        List.filter_eq_nil_iff.2 fun slot hmem => by simp [hall slot hmem]
      simp [hslot, hnone, List.filter_eq_self.2 hall]

/-- Tags of leaves and of the forms without a layout, and a marker that no builder makes. -/
def Catalog.reservedTags : List String :=
  ["var", "let", "lambda", "object", "@bytes", "@ref", "@ts", "@date", "@obj"]

/-- What is checked of an entry by itself. Its recipe has its tag, and its column tells whether the
form needs operands. -/
@[mk_iff]
structure Entry.Consistent (e : Entry) : Prop where
  recipe_tag : ∀ r ∈ e.recipe?, r.tag = e.tag
  isVariadic_eq : e.isVariadic = (e.form? == some .variadic)
  tag_of_letIn : e.form? = some .letIn → e.tag = "let"
  tag_of_lambda : e.form? = some .lambda → e.tag = "lambda"
  tag_of_object : e.form? = some .object → e.tag = "object"
  tag_of_layout : (e.form? >>= Form.layout?).isSome → e.tag ∉ Catalog.reservedTags
  slots_inOrder : ∀ form ∈ e.form?, inOrder form.slots = true
  let_not_field : "let" ∉ e.fieldNames
  lambda_field : "lambda" ∈ e.fieldNames → e.tag = "merge"
  fields_nodup : e.fieldNames.Nodup
  tag_not_field : e.tag ∉ e.fieldNames

instance : DecidablePred Entry.Consistent := fun e =>
  decidable_of_iff' _ (Entry.consistent_iff e)

namespace Catalog

/-- The bytes of a name as the digits of a number. -/
def number (name : String) : Nat :=
  name.toByteArray.data.toList.foldl (fun n b => 256 * n + b.toNat) 0

def distinct : List Nat → Bool
  | [] => true
  | n :: rest => rest.all (fun m => !Nat.beq n m) && distinct rest

theorem nodup_of_distinct {ns : List Nat} (h : distinct ns = true) : ns.Nodup := by
  induction ns with
  | nil => exact List.nodup_nil
  | cons n rest ih =>
    simp only [distinct, Bool.and_eq_true, List.all_eq_true] at h
    refine List.nodup_cons.2 ⟨fun hn => ?_, ih h.2⟩
    have := h.1 n hn
    simp at this

theorem distinct_tags : distinct (entries.map fun e => number e.tag) = true := by decide +kernel

/-- A tag belongs to one entry. -/
theorem eq_of_tag_eq {e e' : Entry} (he : e ∈ entries) (he' : e' ∈ entries)
    (h : e.tag = e'.tag) : e = e' :=
  List.inj_on_of_nodup_map (nodup_of_distinct distinct_tags) he he' (by rw [h])

theorem lookup_tag {e : Entry} (he : e ∈ entries) : lookup e.tag = some e := by
  obtain ⟨found, hfound⟩ : ∃ found, lookup e.tag = some found :=
    Option.isSome_iff_exists.1 (List.find?_isSome.2 ⟨e, he, by simp⟩)
  have htag : found.tag = e.tag := by simpa using List.find?_some hfound
  rw [hfound, eq_of_tag_eq (List.mem_of_find?_eq_some hfound) he htag]

theorem isKnownTag_tag {e : Entry} (he : e ∈ entries) : isKnownTag e.tag = true := by
  simp [isKnownTag, lookup_tag he]

theorem consistent : ∀ e ∈ entries, e.Consistent := by decide +kernel

theorem isVariadic_iff {e : Entry} (he : e ∈ entries) :
    e.isVariadic = true ↔ e.form? = some .variadic := by
  rw [(consistent e he).isVariadic_eq, beq_iff_eq]

theorem layout_tag_not_reserved (e : Entry) (he : e ∈ entries) :
    (e.form? >>= Form.layout?).isSome → e.tag ∉ reservedTags := (consistent e he).tag_of_layout

theorem slots_eq_append {e : Entry} (he : e ∈ entries) {form : Form} (h : e.form? = some form) :
    form.slots = form.slots.filter (!·.optional) ++ form.slots.filter (·.optional) :=
  eq_append_of_inOrder ((consistent e he).slots_inOrder form h)

theorem fieldNames_nodup (e : Entry) (he : e ∈ entries) :
    e.fieldNames.Nodup ∧ e.tag ∉ e.fieldNames :=
  ⟨(consistent e he).fields_nodup, (consistent e he).tag_not_field⟩

/-- The field names of the entries without a layout. -/
theorem fieldNames_special : ∀ p ∈ [("@bytes", []), ("object", []), ("@ref", []), ("@ts", []),
      ("@date", []), ("var", []), ("let", ["in"]), ("lambda", ["expr"])],
    (lookup p.1).map Entry.fieldNames = some p.2 := by
  decide +kernel

/-- What is said of a field whose name is the tag of another entry. -/
def crossed (e : Entry) (name : String) (other : Entry) : Bool :=
  !Nat.beq (number other.tag) (number name) ||
    !other.fieldNames.contains e.tag &&
      (!other.isVariadic || e.tag == "ngram" && (name == "min" || name == "max"))

theorem all_crossed :
    (entries.all fun e => e.fieldNames.all fun name => entries.all (crossed e name)) = true := by
  decide +kernel

theorem crossed_tag {e other : Entry} (he : e ∈ entries) (ho : other ∈ entries)
    (h : other.tag ∈ e.fieldNames) :
    e.tag ∉ other.fieldNames ∧
      (other.isVariadic = true → e.tag = "ngram" ∧ (other.tag = "min" ∨ other.tag = "max")) := by
  have := List.all_eq_true.1 (List.all_eq_true.1 (List.all_eq_true.1 all_crossed e he) _ h) other ho
  simp only [crossed, Nat.beq_refl, Bool.not_true, Bool.false_or, Bool.and_eq_true,
    Bool.not_eq_true', List.contains_eq_mem, decide_eq_false_iff_not, Bool.or_eq_true,
    beq_iff_eq] at this
  refine ⟨this.1, fun hv => ?_⟩
  rcases this.2 with hn | hn
  · simp [hv] at hn
  · exact hn

/-- No two entries have each other's tag among their fields. -/
theorem tag_not_mem_of_mem {e other : Entry} (he : e ∈ entries) (ho : other ∈ entries)
    (h : other.tag ∈ e.fieldNames) : e.tag ∉ other.fieldNames :=
  (crossed_tag he ho h).1

/-- A field named like an operation on a list is one of the bounds of n-grams. -/
theorem variadic_field {e other : Entry} (he : e ∈ entries) (ho : other ∈ entries)
    (h : other.tag ∈ e.fieldNames) (hv : other.isVariadic = true) :
    e.tag = "ngram" ∧ (other.tag = "min" ∨ other.tag = "max") :=
  (crossed_tag he ho h).2 hv

end Catalog

namespace Builder

variable {b : Builder}

theorem entry_tag (b : Builder) : b.entry.tag = b.tag :=
  ((Catalog.consistent b.entry b.listed).recipe_tag _ b.recipe).symm

theorem tag_of_letIn (h : b.form = .letIn) : b.tag = "let" := by
  rw [← b.entry_tag]
  exact (Catalog.consistent _ b.listed).tag_of_letIn (h ▸ b.formed)

theorem tag_of_lambda (h : b.form = .lambda) : b.tag = "lambda" := by
  rw [← b.entry_tag]
  exact (Catalog.consistent _ b.listed).tag_of_lambda (h ▸ b.formed)

end Builder

end QueryTree
