import QueryTree.Proofs.Data
import QueryTree.Proofs.Places

/-!
# The check as a survey

What a walk adds to a report depends neither on this report nor on the path at which the walk
starts: it is a number of operations, and messages at places below the start. A survey collects both
from the parts of a document, one named part after the other. So the order of the names matters for
the order of the issues only, and the number of operations and the paths of issues stay what they
are when the fields of objects are rearranged at any depth.
-/

namespace QueryTree

namespace Document

/-- The path one step further on. -/
def Step.extend (path : String) : Step → String
  | .name n => Check.fieldPath path n
  | .index i => Check.itemPath path i

/-- The path of a place, from the path at which the place starts. -/
def pathFrom (start : String) (place : Place) : String := place.foldl Step.extend start

end Document

namespace Check

open Document

/-- A message about what stands at a place. -/
structure Finding where
  place : Place
  message : String

/-- What a walk adds to a report. -/
structure Survey where
  operations : Nat
  findings : List Finding

namespace Survey

def nothing : Survey := ⟨0, []⟩

def operation : Survey := ⟨1, []⟩

/-- A message about the whole. -/
def finding (message : String) : Survey := ⟨0, [⟨[], message⟩]⟩

/-- Both surveys, one after the other. -/
def and (s t : Survey) : Survey := ⟨s.operations + t.operations, s.findings ++ t.findings⟩

/-- The survey of a part, as one of the whole. -/
def under (step : Step) (s : Survey) : Survey :=
  ⟨s.operations, s.findings.map fun f => ⟨step :: f.place, f.message⟩⟩

def places (s : Survey) : List Place := s.findings.map Finding.place

/-- The report with what is surveyed from a path on. -/
def report (s : Survey) (path : String) (r : Report) : Report :=
  ⟨r.operations + s.operations,
    r.issues ++ s.findings.map fun f => ⟨pathFrom path f.place, f.message⟩⟩

variable (s t : Survey) (step : Step) (path message : String) (r : Report)

theorem report_nothing : nothing.report path r = r := by simp [report, nothing]

theorem report_operation : operation.report path r = r.countOperation := by
  simp [report, operation, Report.countOperation]

theorem report_finding : (finding message).report path r = r.add path message := rfl

theorem report_and : (s.and t).report path r = t.report path (s.report path r) := by
  simp [report, and, Nat.add_assoc]

theorem report_under : (s.under step).report path r = s.report (step.extend path) r := by
  simp [report, under, pathFrom]

theorem places_and : (s.and t).places = s.places ++ t.places := by simp [places, and]

theorem places_under : (s.under step).places = s.places.map (step :: ·) := by
  simp [places, under]

end Survey

/-! ## Surveys of lists -/

variable {α : Type}

/-- The surveys of named parts. -/
def surveyNamed (f : String → α → Survey) (fields : List (String × α)) : Survey :=
  fields.foldr (fun p s => ((f p.1 p.2).under (.name p.1)).and s) .nothing

/-- The surveys of the items of a list, from an index on. -/
def surveyIndexed (f : α → Survey) : List α → Nat → Survey
  | [], _ => .nothing
  | item :: rest, index => ((f item).under (.index index)).and (surveyIndexed f rest (index + 1))

theorem surveyNamed_cons (f : String → α → Survey) (name : String) (a : α)
    (rest : List (String × α)) : surveyNamed f ((name, a) :: rest) =
      ((f name a).under (.name name)).and (surveyNamed f rest) := rfl

/-! ## Surveys of documents -/

/-- An operation without operands under its tag. -/
def surveyOperand (name : String) (value : Document) : Survey :=
  if lacksOperands name value then .finding (noOperands name) else .nothing

mutual

def survey : Document → Survey
  | .array items => surveyItems items 0
  | .object fields =>
    match Shape.ofNames (fields.map Prod.fst) with
    | .objectLiteral => surveyPayloads fields
    | .literal => .nothing
    | .operation =>
      (Survey.operation.and (surveyNamed surveyOperand fields)).and (surveyEntries fields)
    | .unrecognized => .finding (unrecognized (fields.map Prod.fst))
  | _ => .nothing

def surveyItems : List Document → Nat → Survey
  | [], _ => .nothing
  | item :: rest, index =>
    ((survey item).under (.index index)).and (surveyItems rest (index + 1))

def surveyEntries : List (String × Document) → Survey
  | [] => .nothing
  | (name, value) :: rest =>
    ((if name = "let" then surveyBindings value
      else if name = "lambda" ∧ !value.isObject then .nothing
      else survey value).under (.name name)).and (surveyEntries rest)

/-- An object of values, or a message that it should be one. -/
def surveyObject (message : String) : Document → Survey
  | .object fields => surveyValues fields
  | _ => .finding message

def surveyPayloads : List (String × Document) → Survey
  | [] => .nothing
  | (name, payload) :: rest =>
    ((surveyObject payloadNotObject payload).under (.name name)).and (surveyPayloads rest)

def surveyValues : List (String × Document) → Survey
  | [] => .nothing
  | (name, value) :: rest => ((survey value).under (.name name)).and (surveyValues rest)

def surveyBindings : Document → Survey
  | .array bindings => surveyBindingItems bindings 0
  | .object fields => surveyValues fields
  | _ => .finding bindingsNotList

def surveyBindingItems : List Document → Nat → Survey
  | [], _ => .nothing
  | binding :: rest, index =>
    ((surveyObject bindingNotObject binding).under (.index index)).and
      (surveyBindingItems rest (index + 1))

end

/-- What stands under a name of an operation. -/
def surveyEntry (name : String) (value : Document) : Survey :=
  if name = "let" then surveyBindings value
  else if name = "lambda" ∧ !value.isObject then .nothing
  else survey value

theorem surveyItems_eq (items : List Document) (index : Nat) :
    surveyItems items index = surveyIndexed survey items index := by
  induction items generalizing index with
  | nil => rfl
  | cons item rest ih => rw [surveyItems, ih, surveyIndexed]

theorem surveyEntries_eq (fields : List (String × Document)) :
    surveyEntries fields = surveyNamed surveyEntry fields := by
  induction fields with
  | nil => rfl
  | cons field rest ih =>
    obtain ⟨name, d⟩ := field
    rw [surveyEntries, ih, surveyNamed_cons, surveyEntry]

theorem surveyPayloads_eq (fields : List (String × Document)) :
    surveyPayloads fields = surveyNamed (fun _ => surveyObject payloadNotObject) fields := by
  induction fields with
  | nil => rfl
  | cons field rest ih =>
    obtain ⟨name, d⟩ := field
    rw [surveyPayloads, ih, surveyNamed_cons]

theorem surveyValues_eq (fields : List (String × Document)) :
    surveyValues fields = surveyNamed (fun _ => survey) fields := by
  induction fields with
  | nil => rfl
  | cons field rest ih =>
    obtain ⟨name, d⟩ := field
    rw [surveyValues, ih, surveyNamed_cons]

theorem surveyBindingItems_eq (items : List Document) (index : Nat) :
    surveyBindingItems items index = surveyIndexed (surveyObject bindingNotObject) items index := by
  induction items generalizing index with
  | nil => rfl
  | cons item rest ih => rw [surveyBindingItems, ih, surveyIndexed]

/-! ## Walks -/

theorem checkOperands_survey (fields : List (String × Document)) (path : String) (r : Report) :
    checkOperands path fields r = (surveyNamed surveyOperand fields).report path r := by
  induction fields generalizing r with
  | nil => rw [surveyNamed, List.foldr_nil, Survey.report_nothing, checkOperands]
  | cons field rest ih =>
    obtain ⟨name, d⟩ := field
    rw [checkOperands, ih, surveyNamed_cons, Survey.report_and, Survey.report_under, surveyOperand]
    congr 1
    split
    · exact (Survey.report_finding _ _ _).symm
    · exact (Survey.report_nothing _ _).symm

mutual

/-- A walk adds the survey of the document. -/
theorem walk_survey : ∀ (d : Document) (path : String) (r : Report),
    walk d path r = (survey d).report path r
  | .null, _, _ | .bool _, _, _ | .integer _, _, _ | .float _, _, _ | .string _, _, _ =>
    (Survey.report_nothing _ _).symm
  | .array items, path, r => walkItems_survey items 0 path r
  | .object fields, path, r => by
    rw [walk, survey]
    cases Shape.ofNames (fields.map Prod.fst) with
    | objectLiteral => exact walkPayloads_survey fields path r
    | literal => exact (Survey.report_nothing _ _).symm
    | operation =>
      simp only [Survey.report_and, Survey.report_operation, ← checkOperands_survey]
      exact walkEntries_survey fields path _
    | unrecognized => exact (Survey.report_finding _ _ _).symm

theorem walkItems_survey : ∀ (items : List Document) (index : Nat) (path : String) (r : Report),
    walkItems items index path r = (surveyItems items index).report path r
  | [], _, _, _ => (Survey.report_nothing _ _).symm
  | item :: rest, index, path, r => by
    rw [walkItems, walk_survey item, walkItems_survey rest, surveyItems, Survey.report_and,
      Survey.report_under, Step.extend]

theorem walkEntries_survey : ∀ (fields : List (String × Document)) (path : String) (r : Report),
    walkEntries fields path r = (surveyEntries fields).report path r
  | [], _, _ => (Survey.report_nothing _ _).symm
  | (name, d) :: rest, path, r => by
    rw [walkEntries, walkEntries_survey rest, surveyEntries, Survey.report_and, Survey.report_under,
      Step.extend]
    congr 1
    split
    · exact walkBindings_survey d _ r
    · split
      · exact (Survey.report_nothing _ _).symm
      · exact walk_survey d _ r

theorem walkPayload_survey : ∀ (d : Document) (path : String) (r : Report),
    walkPayload d path r = (surveyObject payloadNotObject d).report path r
  | .object fields, path, r => walkValues_survey fields path r
  | .null, _, _ | .bool _, _, _ | .integer _, _, _ | .float _, _, _ | .string _, _, _
  | .array _, _, _ => (Survey.report_finding _ _ _).symm

theorem walkPayloads_survey : ∀ (fields : List (String × Document)) (path : String) (r : Report),
    walkPayloads fields path r = (surveyPayloads fields).report path r
  | [], _, _ => (Survey.report_nothing _ _).symm
  | (name, d) :: rest, path, r => by
    rw [walkPayloads, walkPayload_survey d, walkPayloads_survey rest, surveyPayloads,
      Survey.report_and, Survey.report_under, Step.extend]

theorem walkValues_survey : ∀ (fields : List (String × Document)) (path : String) (r : Report),
    walkValues fields path r = (surveyValues fields).report path r
  | [], _, _ => (Survey.report_nothing _ _).symm
  | (name, d) :: rest, path, r => by
    rw [walkValues, walk_survey d, walkValues_survey rest, surveyValues, Survey.report_and,
      Survey.report_under, Step.extend]

theorem walkBindings_survey : ∀ (d : Document) (path : String) (r : Report),
    walkBindings d path r = (surveyBindings d).report path r
  | .array items, path, r => walkBindingItems_survey items 0 path r
  | .object fields, path, r => walkValues_survey fields path r
  | .null, _, _ | .bool _, _, _ | .integer _, _, _ | .float _, _, _ | .string _, _, _ =>
    (Survey.report_finding _ _ _).symm

theorem walkBindingItems_survey : ∀ (items : List Document) (index : Nat) (path : String)
    (r : Report), walkBindingItems items index path r =
      (surveyBindingItems items index).report path r
  | [], _, _, _ => (Survey.report_nothing _ _).symm
  | .object fields :: rest, index, path, r => by
    rw [walkBindingItems, walkValues_survey fields, walkBindingItems_survey rest,
      surveyBindingItems, surveyObject, Survey.report_and, Survey.report_under, Step.extend]
  | .null :: rest, index, path, r | .bool _ :: rest, index, path, r
  | .integer _ :: rest, index, path, r | .float _ :: rest, index, path, r
  | .string _ :: rest, index, path, r | .array _ :: rest, index, path, r => by
    rw [walkBindingItems, walkBindingItems_survey rest, surveyBindingItems, Survey.report_and,
      Survey.report_under, Step.extend, surveyObject, Survey.report_finding]
    all_goals exact nofun

end

theorem document_survey (d : Document) : document d = (survey d).report "$" .empty :=
  walk_survey d "$" .empty

theorem paths_document (d : Document) :
    (document d).issues.map Issue.path = (survey d).places.map (pathFrom "$") := by
  simp [document_survey, Survey.report, Survey.places, Report.empty, Function.comp_def]

/-! ## The order of fields -/

/-- As many operations, and findings at the same places, in whatever order. -/
structure Survey.Alike (s t : Survey) : Prop where
  operations : s.operations = t.operations
  places : s.places.Perm t.places

namespace Survey

variable {s s' t t' u : Survey}

theorem Alike.refl (s : Survey) : s.Alike s := ⟨rfl, .refl _⟩

theorem Alike.symm (h : s.Alike t) : t.Alike s := ⟨h.operations.symm, h.places.symm⟩

theorem Alike.trans (h : s.Alike t) (h' : t.Alike u) : s.Alike u :=
  ⟨h.operations.trans h'.operations, h.places.trans h'.places⟩

theorem Alike.and (h : s.Alike t) (h' : s'.Alike t') : (s.and s').Alike (t.and t') := by
  constructor
  · exact congrArg₂ (· + ·) h.operations h'.operations
  · rw [places_and, places_and]
    exact h.places.append h'.places

theorem Alike.under (h : s.Alike t) (step : Step) : (s.under step).Alike (t.under step) := by
  constructor
  · exact h.operations
  · rw [places_under, places_under]
    exact h.places.map _

theorem alike_left_comm (s t u : Survey) : (s.and (t.and u)).Alike (t.and (s.and u)) := by
  constructor
  · exact Nat.add_left_comm _ _ _
  · simp only [places_and]
    exact List.perm_append_comm_assoc _ _ _

end Survey

section

variable {f g : String → α → Survey}

theorem alike_of_perm {fields fields' : List (String × α)} (h : fields.Perm fields') :
    (surveyNamed f fields).Alike (surveyNamed f fields') := by
  induction h with
  | nil => exact .refl _
  | cons _ _ ih => exact (Survey.Alike.refl _).and ih
  | swap _ _ _ => exact Survey.alike_left_comm _ _ _
  | trans _ _ ih ih' => exact ih.trans ih'

/-- Named parts are surveyed alike if each is, in whatever order they stand. -/
theorem alike_surveyNamed {fields : List (String × α × α)} {as bs : List (String × α)}
    (h : ∀ p ∈ fields, (f p.1 p.2.1).Alike (f p.1 p.2.2))
    (has : as.Perm (fields.map fun p => (p.1, p.2.1)))
    (hbs : bs.Perm (fields.map fun p => (p.1, p.2.2))) :
    (surveyNamed f as).Alike (surveyNamed f bs) := by
  have hparts : (surveyNamed f (fields.map fun p => (p.1, p.2.1))).Alike
      (surveyNamed f (fields.map fun p => (p.1, p.2.2))) := by
    clear has hbs
    induction fields with
    | nil => exact .refl _
    | cons field rest ih =>
      obtain ⟨hfield, hrest⟩ := List.forall_mem_cons.1 h
      exact (hfield.under _).and (ih hrest)
  exact ((alike_of_perm has).trans hparts).trans (alike_of_perm hbs).symm

theorem alike_surveyIndexed {f : α → Survey} {pairs : List (α × α)}
    (h : ∀ p ∈ pairs, (f p.1).Alike (f p.2)) (index : Nat) :
    (surveyIndexed f (pairs.map Prod.fst) index).Alike
      (surveyIndexed f (pairs.map Prod.snd) index) := by
  induction pairs generalizing index with
  | nil => exact .refl _
  | cons pair rest ih =>
    obtain ⟨hpair, hrest⟩ := List.forall_mem_cons.1 h
    exact (hpair.under _).and (ih hrest _)

end

/-- Two documents are surveyed alike wherever one stands in the place of the other. -/
structure Interchangeable (d d' : Document) : Prop where
  value : (survey d).Alike (survey d')
  object : ∀ message, (surveyObject message d).Alike (surveyObject message d')
  entry : ∀ name, (surveyEntry name d).Alike (surveyEntry name d')
  operand : ∀ name, (surveyOperand name d).Alike (surveyOperand name d')

theorem interchangeable_refl (d : Document) : Interchangeable d d :=
  ⟨.refl _, fun _ => .refl _, fun _ => .refl _, fun _ => .refl _⟩

theorem alike_surveyEntry {d d' : Document} (hkind : d.isObject = d'.isObject)
    (hvalue : (survey d).Alike (survey d'))
    (hbindings : (surveyBindings d).Alike (surveyBindings d')) (name : String) :
    (surveyEntry name d).Alike (surveyEntry name d') := by
  rw [surveyEntry, surveyEntry, hkind]
  by_cases hlet : name = "let"
  · rw [if_pos hlet, if_pos hlet]
    exact hbindings
  · rw [if_neg hlet, if_neg hlet]
    by_cases hskip : name = "lambda" ∧ !d'.isObject
    · rw [if_pos hskip, if_pos hskip]
      exact .refl _
    · rw [if_neg hskip, if_neg hskip]
      exact hvalue

theorem interchangeable_array {pairs : List (Document × Document)}
    (h : ∀ p ∈ pairs, Interchangeable p.1 p.2) :
    Interchangeable (.array (pairs.map Prod.fst)) (.array (pairs.map Prod.snd)) := by
  have hvalue : (survey (.array (pairs.map Prod.fst))).Alike
      (survey (.array (pairs.map Prod.snd))) := by
    simp only [survey, surveyItems_eq]
    exact alike_surveyIndexed (fun p hp => (h p hp).value) 0
  have hbindings : (surveyBindings (.array (pairs.map Prod.fst))).Alike
      (surveyBindings (.array (pairs.map Prod.snd))) := by
    simp only [surveyBindings, surveyBindingItems_eq]
    exact alike_surveyIndexed (fun p hp => (h p hp).object _) 0
  refine ⟨hvalue, fun _ => .refl _, alike_surveyEntry rfl hvalue hbindings, fun name => ?_⟩
  cases pairs <;> exact .refl _

/-- What an object is does not depend on the order of its names. -/
theorem shape_perm {names names' : List String} (h : names.Perm names') :
    Shape.ofNames names = Shape.ofNames names' := by
  have hany : names.any Catalog.isKnownTag = names'.any Catalog.isKnownTag := h.any_eq
  match names, names', h.length_eq with
  | [], [], _ => rfl
  | [name], [name'], _ => rw [List.singleton_perm_singleton.1 h]
  | _ :: _ :: _, _ :: _ :: _, _ => simp only [Shape.ofNames, hany]

theorem interchangeable_object {fields : List (String × Document × Document)}
    {as bs : List (String × Document)} (h : ∀ p ∈ fields, Interchangeable p.2.1 p.2.2)
    (has : as.Perm (fields.map fun p => (p.1, p.2.1)))
    (hbs : bs.Perm (fields.map fun p => (p.1, p.2.2))) :
    Interchangeable (.object as) (.object bs) := by
  have hnames : (as.map Prod.fst).Perm (bs.map Prod.fst) := by
    have has' := has.map Prod.fst
    have hbs' := hbs.map Prod.fst
    simp only [List.map_map, Function.comp_def] at has' hbs'
    exact has'.trans hbs'.symm
  have hvalues : (surveyValues as).Alike (surveyValues bs) := by
    simp only [surveyValues_eq]
    exact alike_surveyNamed (fun p hp => (h p hp).value) has hbs
  have hvalue : (survey (.object as)).Alike (survey (.object bs)) := by
    simp only [survey, shape_perm hnames]
    cases Shape.ofNames (bs.map Prod.fst) with
    | objectLiteral =>
      simp only [surveyPayloads_eq]
      exact alike_surveyNamed (fun p hp => (h p hp).object _) has hbs
    | literal => exact .refl _
    | operation =>
      simp only [surveyEntries_eq]
      have hoperands := alike_surveyNamed (f := surveyOperand)
        (fun p hp => (h p hp).operand p.1) has hbs
      exact ((Survey.Alike.refl _).and hoperands).and
        (alike_surveyNamed (fun p hp => (h p hp).entry p.1) has hbs)
    | unrecognized => exact ⟨rfl, .refl _⟩
  exact ⟨hvalue, fun _ => hvalues, alike_surveyEntry rfl hvalue hvalues, fun _ => .refl _⟩

theorem interchangeable_of_rearranged {d d' : Document} (h : Rearranged d d') :
    Interchangeable d d' := by
  induction h with
  | refl d => exact interchangeable_refl d
  | array _ ih => exact interchangeable_array ih
  | object _ has hbs ih => exact interchangeable_object ih has hbs

/-- However the fields of objects are arranged, the check counts as many operations, reports issues
at the same paths, and gives the same verdict. -/
theorem document_rearranged {d d' : Document} (h : Rearranged d d') :
    (document d).operations = (document d').operations ∧
      ((document d).issues.map Issue.path).Perm ((document d').issues.map Issue.path) ∧
      (document d).isOk = (document d').isOk := by
  have halike := (interchangeable_of_rearranged h).value
  have hperm : ((document d).issues.map Issue.path).Perm ((document d').issues.map Issue.path) := by
    rw [paths_document, paths_document]
    exact halike.places.map _
  refine ⟨?_, hperm, ?_⟩
  · simp only [document_survey, Survey.report, halike.operations]
  · have hlength := hperm.length_eq
    simp only [List.length_map] at hlength
    rw [Report.isOk, Report.isOk, Bool.eq_iff_iff, List.isEmpty_iff, List.isEmpty_iff,
      ← List.length_eq_zero_iff, ← List.length_eq_zero_iff, hlength]

/-- The issues come in another order, and one message lists its keys in another order. -/
theorem reversed_document_rearranged :
    let d : Document := .object [("add", .object [("x", .null), ("y", .null)]), ("b", .object [])]
    let d' : Document := .object [("b", .object []), ("add", .object [("y", .null), ("x", .null)])]
    Rearranged d d' ∧ (document d).issues.map Issue.path = ["$.add", "$.b"] ∧
      (document d').issues.map Issue.path = ["$.b", "$.add"] ∧
      (document d).operations = (document d').operations ∧
      ((document d).issues.map Issue.path).Perm ((document d').issues.map Issue.path) ∧
      (document d).isOk = (document d').isOk := by
  intro d d'
  have hinner : Rearranged (.object [("x", .null), ("y", .null)])
      (.object [("y", .null), ("x", .null)]) := by
    refine @Rearranged.object [("x", .null, .null), ("y", .null, .null)] _ _ ?_ (.refl _)
      (.swap _ _ _)
    exact List.forall_mem_cons.2 ⟨.refl _, List.forall_mem_singleton.2 (.refl _)⟩
  have h : Rearranged d d' := by
    refine @Rearranged.object [("add", _, _), ("b", .object [], .object [])] _ _ ?_ (.refl _)
      (.swap _ _ _)
    exact List.forall_mem_cons.2 ⟨hinner, List.forall_mem_singleton.2 (.refl _)⟩
  exact ⟨h, by decide +kernel, by decide +kernel, document_rearranged h⟩

end Check

end QueryTree
