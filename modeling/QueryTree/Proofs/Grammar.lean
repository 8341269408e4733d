import QueryTree.Proofs.Checked

/-!
# The grammar of wire documents

A document is well-formed if each of its objects is a marked literal, or an operation with a known
tag whose entries are good. The check reports no issue exactly on the well-formed documents. Each
walk is a step on a report, which adds no issue if and only if a condition holds; the conditions of
steps in a row add up to those of the grammar.
-/

namespace QueryTree

namespace Catalog

/-- A name that marks an operation: the tag of an entry, or one that only the engine sends. -/
def IsTag (name : String) : Prop :=
  (∃ entry ∈ entries, entry.tag = name) ∨ name ∈ ["@obj", "@set", "@query"]

/-- A tag that holds a list of at least one operand. -/
def NeedsOperands (name : String) : Prop :=
  ∃ entry ∈ entries, entry.tag = name ∧ entry.isVariadic = true

theorem lookup_eq_some_iff {name : String} {entry : Entry} :
    lookup name = some entry ↔ entry ∈ entries ∧ entry.tag = name := by
  constructor
  · intro hfound
    exact ⟨List.mem_of_find?_eq_some hfound, by simpa using List.find?_some hfound⟩
  · rintro ⟨hentry, rfl⟩
    exact lookup_tag hentry

theorem isKnownTag_iff {name : String} : isKnownTag name = true ↔ IsTag name := by
  rw [isKnownTag, Bool.or_eq_true, List.contains_iff_mem, Option.isSome_iff_exists]
  simp only [lookup_eq_some_iff]
  rfl

theorem needsOperands_iff {name : String} :
    (lookup name).any Entry.isVariadic = true ↔ NeedsOperands name := by
  simp only [Option.any_eq_true, lookup_eq_some_iff, NeedsOperands, and_assoc]

end Catalog

namespace Document

/-- Names that mark an object literal where they stand alone. -/
def objectMarkers : List String := ["object", "@obj"]

/-- Names that mark a literal of another kind where they stand alone. -/
def literalMarkers : List String := ["@ref", "@ts", "@date", "@bytes"]

mutual

inductive WellFormed : Document → Prop
  | null : WellFormed .null
  | bool (b : Bool) : WellFormed (.bool b)
  | integer (n : Int) : WellFormed (.integer n)
  | float (x : Binary64) : WellFormed (.float x)
  | string (s : String) : WellFormed (.string s)
  | array {items : List Document} : (∀ d ∈ items, WellFormed d) → WellFormed (.array items)
  | objectLiteral {marker : String} {payload : Document} : marker ∈ objectMarkers →
      WellFormedValues payload → WellFormed (.object [(marker, payload)])
  | literal {marker : String} (payload : Document) : marker ∈ literalMarkers →
      WellFormed (.object [(marker, payload)])
  | operation {fields : List (String × Document)} :
      (∀ marker payload, fields = [(marker, payload)] →
        marker ∉ objectMarkers ∧ marker ∉ literalMarkers) →
      (∃ p ∈ fields, Catalog.IsTag p.1) →
      (∀ p ∈ fields, Catalog.NeedsOperands p.1 → p.2 ≠ .array []) →
      (∀ p ∈ fields, WellFormedEntry p.1 p.2) → WellFormed (.object fields)

/-- An object of well-formed values. -/
inductive WellFormedValues : Document → Prop
  | object {fields : List (String × Document)} : (∀ p ∈ fields, WellFormed p.2) →
      WellFormedValues (.object fields)

/-- What may stand under a name in an operation. -/
inductive WellFormedEntry : String → Document → Prop
  | bindings {items : List Document} : (∀ d ∈ items, WellFormedValues d) →
      WellFormedEntry "let" (.array items)
  | bindingObject {d : Document} : WellFormedValues d → WellFormedEntry "let" d
  | names {d : Document} : d.isObject = false → WellFormedEntry "lambda" d
  | value {name : String} {d : Document} : name ≠ "let" →
      (name = "lambda" → d.isObject = true) → WellFormed d → WellFormedEntry name d

end

/-- The marker of a literal stands alone in its object. -/
def Marked (fields : List (String × Document)) : Prop :=
  ∃ marker payload, fields = [(marker, payload)] ∧
    (marker ∈ objectMarkers ∨ marker ∈ literalMarkers)

theorem wellFormed_array {items : List Document} :
    WellFormed (.array items) ↔ ∀ d ∈ items, WellFormed d := by
  constructor
  · rintro ⟨⟩
    assumption
  · exact .array

theorem markers_disjoint : ∀ marker ∈ objectMarkers, marker ∉ literalMarkers := by decide

theorem wellFormed_objectLiteral {marker : String} (hmarker : marker ∈ objectMarkers)
    {payload : Document} : WellFormed (.object [(marker, payload)]) ↔ WellFormedValues payload := by
  constructor
  · intro h
    cases h with
    | objectLiteral _ hpayload => exact hpayload
    | literal _ hliteral => exact absurd hliteral (markers_disjoint marker hmarker)
    | operation hplain => exact absurd hmarker (hplain marker payload rfl).1
  · exact .objectLiteral hmarker

theorem wellFormed_operation {fields : List (String × Document)} (hplain : ¬ Marked fields) :
    WellFormed (.object fields) ↔ (∃ p ∈ fields, Catalog.IsTag p.1) ∧
      (∀ p ∈ fields, Catalog.NeedsOperands p.1 → p.2 ≠ .array []) ∧
      ∀ p ∈ fields, WellFormedEntry p.1 p.2 := by
  constructor
  · intro h
    cases h with
    | objectLiteral hmarker _ => exact absurd ⟨_, _, rfl, .inl hmarker⟩ hplain
    | literal _ hmarker => exact absurd ⟨_, _, rfl, .inr hmarker⟩ hplain
    | operation _ htag hoperands hentries => exact ⟨htag, hoperands, hentries⟩
  · rintro ⟨htag, hoperands, hentries⟩
    refine .operation ?_ htag hoperands hentries
    rintro marker payload rfl
    constructor <;> intro hmarker <;> apply hplain
    · exact ⟨marker, payload, rfl, .inl hmarker⟩
    · exact ⟨marker, payload, rfl, .inr hmarker⟩

theorem wellFormedValues_object {fields : List (String × Document)} :
    WellFormedValues (.object fields) ↔ ∀ p ∈ fields, WellFormed p.2 := by
  constructor
  · rintro ⟨⟩
    assumption
  · exact .object

theorem wellFormedEntry_let {d : Document} : WellFormedEntry "let" d ↔
    (∃ items, d = .array items ∧ ∀ item ∈ items, WellFormedValues item) ∨ WellFormedValues d := by
  constructor
  · intro h
    generalize hname : "let" = name at h
    cases h with
    | bindings hitems => exact .inl ⟨_, rfl, hitems⟩
    | bindingObject hvalues => exact .inr hvalues
    | names _ => simp at hname
    | value hlet _ _ => exact absurd hname.symm hlet
  · rintro (⟨items, rfl, hitems⟩ | hvalues)
    · exact .bindings hitems
    · exact .bindingObject hvalues

theorem wellFormedEntry_lambda {d : Document} : WellFormedEntry "lambda" d ↔
    d.isObject = false ∨ WellFormed d := by
  constructor
  · intro h
    generalize hname : "lambda" = name at h
    cases h with
    | bindings _ => simp at hname
    | bindingObject _ => simp at hname
    | names hnames => exact .inl hnames
    | value _ _ hvalue => exact .inr hvalue
  · rintro (hnames | hvalue)
    · exact .names hnames
    · cases hobject : d.isObject with
      | false => exact .names hobject
      | true => exact .value (by simp) (fun _ => hobject) hvalue

theorem wellFormedEntry_value {name : String} (hlet : name ≠ "let") (hlambda : name ≠ "lambda")
    {d : Document} : WellFormedEntry name d ↔ WellFormed d := by
  constructor
  · intro h
    cases h with
    | bindings _ => exact absurd rfl hlet
    | bindingObject _ => exact absurd rfl hlet
    | names _ => exact absurd rfl hlambda
    | value _ _ hvalue => exact hvalue
  · exact .value hlet fun hname => absurd hname hlambda

end Document

namespace Check

open Document Report

/-- The step keeps the issues of a report, and adds none exactly if the condition holds. -/
def Passes (P : Prop) (step : Report → Report) : Prop :=
  ∀ r : Report, ∃ more, r.Extends more (step r) ∧ (more = false ↔ P)

section

variable {P Q : Prop} {step step' : Report → Report}

theorem passes_refl : Passes True fun r => r := fun r => ⟨false, extends_refl r, by simp⟩

theorem passes_countOperation : Passes True countOperation :=
  fun r => ⟨false, extends_countOperation r, by simp⟩

theorem passes_add (path message : String) : Passes False fun r => r.add path message :=
  fun r => ⟨true, extends_add r path message, by simp⟩

theorem Passes.congr (h : Passes P step) (hiff : P ↔ Q) : Passes Q step := by
  intro r
  obtain ⟨more, hextends, hmore⟩ := h r
  exact ⟨more, hextends, hmore.trans hiff⟩

theorem Passes.and_then (h : Passes P step) (h' : Passes Q step') :
    Passes (P ∧ Q) fun r => step' (step r) := by
  intro r
  obtain ⟨more, hextends, hmore⟩ := h r
  obtain ⟨more', hextends', hmore'⟩ := h' (step r)
  refine ⟨more || more', hextends.trans hextends', ?_⟩
  rw [Bool.or_eq_false_iff, hmore, hmore']

end

/-! ## Objects -/

theorem lacksOperands_iff {name : String} {d : Document} :
    lacksOperands name d = true ↔ Catalog.NeedsOperands name ∧ d = .array [] := by
  rw [← Catalog.needsOperands_iff]
  cases d with
  | array items => cases items <;> simp [lacksOperands]
  | _ => simp [lacksOperands]

theorem passes_checkOperands (path : String) (fields : List (String × Document)) :
    Passes (∀ p ∈ fields, Catalog.NeedsOperands p.1 → p.2 ≠ .array [])
      (checkOperands path fields) := by
  induction fields with
  | nil => exact passes_refl.congr (by simp)
  | cons field rest ih =>
    obtain ⟨name, d⟩ := field
    have hfirst : Passes (Catalog.NeedsOperands name → d ≠ .array []) fun r =>
        if lacksOperands name d then r.add (fieldPath path name) (noOperands name) else r := by
      by_cases hlacks : lacksOperands name d = true
      · simp only [hlacks, if_true]
        apply (passes_add _ _).congr
        simpa using lacksOperands_iff.1 hlacks
      · simp only [hlacks]
        apply passes_refl.congr
        simpa [lacksOperands_iff] using hlacks
    apply (hfirst.and_then ih).congr
    rw [List.forall_mem_cons]

theorem any_isKnownTag_iff {fields : List (String × Document)} :
    (fields.map Prod.fst).any Catalog.isKnownTag = true ↔ ∃ p ∈ fields, Catalog.IsTag p.1 := by
  simp [Catalog.isKnownTag_iff]

/-- Where no marker stands alone, an object is an operation exactly if one of its names is a tag. -/
theorem shape_of_not_marked {fields : List (String × Document)} (hplain : ¬ Marked fields) :
    Shape.ofNames (fields.map Prod.fst) =
      if (fields.map Prod.fst).any Catalog.isKnownTag then .operation else .unrecognized := by
  match fields with
  | [] => rfl
  | [(name, d)] =>
    have hmarker : name ∉ objectMarkers ∧ name ∉ literalMarkers := by
      constructor <;> intro hmem <;> apply hplain
      · exact ⟨name, d, rfl, .inl hmem⟩
      · exact ⟨name, d, rfl, .inr hmem⟩
    simp only [objectMarkers, literalMarkers] at hmarker
    simp [Shape.ofNames, objectTags, literalTags, hmarker]
  | _ :: _ :: _ => rfl

/-! ## Walks -/

/-- A walk of an object, from the walks of what stands in it. -/
theorem passes_object {fields : List (String × Document)} {path : String}
    (hpayloads : Passes (∀ p ∈ fields, WellFormedValues p.2) (walkPayloads fields path))
    (hentries : Passes (∀ p ∈ fields, WellFormedEntry p.1 p.2) (walkEntries fields path)) :
    Passes (WellFormed (.object fields)) (walk (.object fields) path) := by
  by_cases hmarked : Marked fields
  · obtain ⟨marker, payload, rfl, hobject | hliteral⟩ := hmarked
    · rw [wellFormed_objectLiteral hobject]
      simp only [walk, List.map_cons, List.map_nil, shape_markers marker hobject]
      simpa using hpayloads
    · simp only [walk, List.map_cons, List.map_nil, shape_literals marker hliteral]
      exact passes_refl.congr (iff_of_true trivial (.literal payload hliteral))
  · rw [Passes, wellFormed_operation hmarked, ← any_isKnownTag_iff]
    by_cases hknown : (fields.map Prod.fst).any Catalog.isKnownTag = true
    · have hsteps := (passes_countOperation.and_then (passes_checkOperands path fields)).and_then
        hentries
      simp only [walk, shape_of_not_marked hmarked, hknown, if_true]
      exact hsteps.congr (by simp)
    · simp only [walk, shape_of_not_marked hmarked, hknown]
      exact (passes_add path _).congr (by simp)

mutual

theorem passes_walk : ∀ (d : Document) (path : String), Passes (WellFormed d) (walk d path)
  | .null, _ => passes_refl.congr (iff_of_true trivial .null)
  | .bool b, _ => passes_refl.congr (iff_of_true trivial (.bool b))
  | .integer n, _ => passes_refl.congr (iff_of_true trivial (.integer n))
  | .float x, _ => passes_refl.congr (iff_of_true trivial (.float x))
  | .string s, _ => passes_refl.congr (iff_of_true trivial (.string s))
  | .array items, path => (passes_walkItems items 0 path).congr wellFormed_array.symm
  | .object fields, path =>
    passes_object (passes_walkPayloads fields path) (passes_walkEntries fields path)

theorem passes_walkItems : ∀ (items : List Document) (index : Nat) (path : String),
    Passes (∀ d ∈ items, WellFormed d) (walkItems items index path)
  | [], _, _ => passes_refl.congr (by simp)
  | d :: rest, index, path =>
    ((passes_walk d (itemPath path index)).and_then
      (passes_walkItems rest (index + 1) path)).congr List.forall_mem_cons.symm

theorem passes_walkEntries : ∀ (fields : List (String × Document)) (path : String),
    Passes (∀ p ∈ fields, WellFormedEntry p.1 p.2) (walkEntries fields path)
  | [], _ => passes_refl.congr (by simp)
  | (name, d) :: rest, path => by
    have hbindings := passes_walkBindings d (fieldPath path name)
    have hwalk := passes_walk d (fieldPath path name)
    have hfirst : Passes (WellFormedEntry name d) fun r =>
        if name = "let" then walkBindings d (fieldPath path name) r
        else if name = "lambda" ∧ !d.isObject then r
        else walk d (fieldPath path name) r := by
      by_cases hlet : name = "let"
      · subst hlet
        simpa only [if_true] using hbindings
      · simp only [hlet, if_false]
        by_cases hlambda : name = "lambda"
        · subst hlambda
          rw [wellFormedEntry_lambda]
          cases hobject : d.isObject with
          | false => simpa [hobject] using passes_refl
          | true => simpa [hobject] using hwalk
        · simpa [hlambda, wellFormedEntry_value hlet hlambda] using hwalk
    apply (hfirst.and_then (passes_walkEntries rest path)).congr
    rw [List.forall_mem_cons]

theorem passes_walkPayloads : ∀ (fields : List (String × Document)) (path : String),
    Passes (∀ p ∈ fields, WellFormedValues p.2) (walkPayloads fields path)
  | [], _ => passes_refl.congr (by simp)
  | (name, d) :: rest, path => by
    apply ((passes_walkPayload d (fieldPath path name)).and_then
      (passes_walkPayloads rest path)).congr
    rw [List.forall_mem_cons]

theorem passes_walkPayload : ∀ (d : Document) (path : String),
    Passes (WellFormedValues d) (walkPayload d path)
  | .object values, path => (passes_walkValues values path).congr wellFormedValues_object.symm
  | .null, path | .bool _, path | .integer _, path | .float _, path | .string _, path
  | .array _, path => (passes_add path payloadNotObject).congr (iff_of_false not_false nofun)

theorem passes_walkValues : ∀ (fields : List (String × Document)) (path : String),
    Passes (∀ p ∈ fields, WellFormed p.2) (walkValues fields path)
  | [], _ => passes_refl.congr (by simp)
  | (name, d) :: rest, path => by
    apply ((passes_walk d (fieldPath path name)).and_then (passes_walkValues rest path)).congr
    rw [List.forall_mem_cons]

theorem passes_walkBindings : ∀ (d : Document) (path : String),
    Passes (WellFormedEntry "let" d) (walkBindings d path)
  | .array bindings, path => by
    apply (passes_walkBindingItems bindings 0 path).congr
    rw [wellFormedEntry_let]
    constructor
    · exact fun hitems => .inl ⟨bindings, rfl, hitems⟩
    · rintro (⟨_, ⟨⟩, hitems⟩ | ⟨⟨⟩⟩)
      exact hitems
  | .object fields, path => by
    apply (passes_walkValues fields path).congr
    rw [wellFormedEntry_let, wellFormedValues_object]
    simp
  | .null, path | .bool _, path | .integer _, path | .float _, path | .string _, path => by
    apply (passes_add path bindingsNotList).congr
    rw [wellFormedEntry_let]
    exact iff_of_false not_false nofun

theorem passes_walkBindingItems : ∀ (items : List Document) (index : Nat) (path : String),
    Passes (∀ d ∈ items, WellFormedValues d) (walkBindingItems items index path)
  | [], _, _ => passes_refl.congr (by simp)
  | .object fields :: rest, index, path => by
    apply ((passes_walkValues fields (itemPath path index)).and_then
      (passes_walkBindingItems rest (index + 1) path)).congr
    rw [List.forall_mem_cons, wellFormedValues_object]
  | .null :: rest, index, path | .bool _ :: rest, index, path | .integer _ :: rest, index, path
  | .float _ :: rest, index, path | .string _ :: rest, index, path
  | .array _ :: rest, index, path => by
    apply ((passes_add (itemPath path index) bindingNotObject).and_then
      (passes_walkBindingItems rest (index + 1) path)).congr
    rw [List.forall_mem_cons]
    exact and_congr_left fun _ => iff_of_false not_false nofun

end

/-- The check reports no issue exactly on the well-formed documents. -/
theorem issues_eq_nil_iff (d : Document) : (document d).issues = [] ↔ WellFormed d := by
  obtain ⟨more, ⟨issues, hissues, hmore⟩, hiff⟩ := passes_walk d "$" .empty
  rw [document, hissues, ← hiff, ← hmore]
  rfl

end Check

end QueryTree
