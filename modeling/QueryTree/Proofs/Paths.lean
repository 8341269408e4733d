import QueryTree.Proofs.Grammar
import QueryTree.Proofs.Keyed
import QueryTree.Proofs.Objects
import QueryTree.Proofs.Survey

/-!
# Paths of issues

No place of a document is reported twice: an operation without operands is reported by the object
around it, but the empty list under its tag has no issue of its own. A path writes the names of a
place without escapes, so that two places may be written alike where a name has a dot or a bracket.
Only there can two issues have the same path.
-/

namespace QueryTree

namespace Document

/-! ## Written places -/

/-- A step as it stands in a path. -/
def Step.letters : Step → List Char
  | .name n => '.' :: n.toList
  | .index i => '[' :: (Nat.toDigits 10 i ++ [']'])

theorem toList_pathFrom (start : String) (place : Place) :
    (pathFrom start place).toList = start.toList ++ place.flatMap Step.letters := by
  induction place generalizing start with
  | nil => simp [pathFrom]
  | cons step place ih =>
    have hrest := ih (step.extend start)
    rw [pathFrom] at hrest ⊢
    rw [List.foldl_cons, hrest, List.flatMap_cons, ← List.append_assoc]
    congr 1
    cases step with
    | name n => simp [Step.extend, Step.letters, Check.fieldPath]
    | index i => simp [Step.extend, Step.letters, Check.itemPath]

/-- Not one of the characters with which a step begins. -/
def isPlain (c : Char) : Bool := c != '.' && c != '['

/-- What is written for the step has no second beginning of a step. -/
def Step.isPlain : Step → Bool
  | .name n => n.toList.all Document.isPlain
  | .index _ => true

/-- Nothing, or a character that fails the test first. -/
def StopsAt (test : Char → Bool) (s : List Char) : Prop := ∀ c ∈ s.head?, test c = false

theorem takeWhile_stops {test : Char → Bool} {front rest : List Char}
    (hfront : ∀ c ∈ front, test c = true) (hrest : StopsAt test rest) :
    (front ++ rest).takeWhile test = front := by
  rw [List.takeWhile_append_of_pos hfront]
  cases rest with
  | nil => exact List.append_nil front
  | cons c rest =>
    have hc : test c = false := hrest c rfl
    rw [List.takeWhile_cons, hc, if_neg Bool.false_ne_true, List.append_nil]

/-- Two texts agree in what is in front of the first character that fails a test. -/
theorem append_inj_of_stops {test : Char → Bool} {front front' rest rest' : List Char}
    (h : front ++ rest = front' ++ rest') (hfront : ∀ c ∈ front, test c = true)
    (hfront' : ∀ c ∈ front', test c = true) (hrest : StopsAt test rest)
    (hrest' : StopsAt test rest') : front = front' ∧ rest = rest' := by
  have htaken := congrArg (List.takeWhile test) h
  rw [takeWhile_stops hfront hrest, takeWhile_stops hfront' hrest'] at htaken
  subst htaken
  exact ⟨rfl, List.append_cancel_left h⟩

theorem stops_letters (place : Place) : StopsAt isPlain (place.flatMap Step.letters) := by
  cases place with
  | nil => nofun
  | cons step place =>
    cases step <;>
    · intro c hc
      cases hc
      rfl

theorem letters_injective {p q : Place} (hp : ∀ step ∈ p, step.isPlain = true)
    (hq : ∀ step ∈ q, step.isPlain = true) (h : p.flatMap Step.letters = q.flatMap Step.letters) :
    p = q := by
  induction p generalizing q with
  | nil =>
    cases q with
    | nil => rfl
    | cons step q => cases step <;> cases h
  | cons step p ih =>
    obtain ⟨hstep, hrestp⟩ := List.forall_mem_cons.1 hp
    cases q with
    | nil => cases step <;> cases h
    | cons step' q =>
      obtain ⟨hstep', hrestq⟩ := List.forall_mem_cons.1 hq
      rw [List.flatMap_cons, List.flatMap_cons] at h
      cases step with
      | name n =>
        cases step' with
        | name n' =>
          obtain ⟨hname, hrest⟩ := append_inj_of_stops (List.cons.inj h).2
            (List.all_eq_true.1 hstep) (List.all_eq_true.1 hstep') (stops_letters p)
            (stops_letters q)
          rw [String.toList_inj.1 hname, ih hrestp hrestq hrest]
        | index i' => cases h
      | index i =>
        cases step' with
        | name n' => cases h
        | index i' =>
          have hdigits : ∀ i c, c ∈ Nat.toDigits 10 i → c.isDigit = true := fun i c hc =>
            Nat.isDigit_of_mem_toDigits (by decide) (by decide) hc
          have hbracket : ∀ s, StopsAt Char.isDigit (']' :: s) := by
            rintro s c ⟨⟩
            rfl
          have h' : Nat.toDigits 10 i ++ ']' :: p.flatMap Step.letters =
              Nat.toDigits 10 i' ++ ']' :: q.flatMap Step.letters := by
            simpa [Step.letters] using h
          obtain ⟨hindex, hrest⟩ := append_inj_of_stops h' (hdigits i) (hdigits i')
            (hbracket _) (hbracket _)
          have hi : i = i' := by simpa using congrArg (Nat.ofDigitChars 10 · 0) hindex
          rw [hi, ih hrestp hrestq (List.cons.inj hrest).2]

/-- Places with plain names are written differently. -/
theorem pathFrom_injective {start : String} {p q : Place} (hp : ∀ step ∈ p, step.isPlain = true)
    (hq : ∀ step ∈ q, step.isPlain = true) (h : pathFrom start p = pathFrom start q) : p = q := by
  have hletters := congrArg String.toList h
  rw [toList_pathFrom, toList_pathFrom] at hletters
  exact letters_injective hp hq (List.append_cancel_left hletters)

end Document

namespace Check

open Document

/-! ## Distinct places -/

/-- The findings are at distinct places, and these lead to parts of the document. -/
structure Survey.Locates (s : Survey) (d : Document) : Prop where
  nodup : s.places.Nodup
  leads : ∀ place ∈ s.places, (d.at? place).isSome

namespace Survey

variable {s t : Survey} {d : Document}

theorem locates_nothing (d : Document) : nothing.Locates d := ⟨.nil, List.forall_mem_nil _⟩

theorem locates_finding (message : String) (d : Document) : (finding message).Locates d :=
  ⟨List.nodup_singleton _, List.forall_mem_singleton.2 rfl⟩

theorem Locates.of_perm (h : t.Locates d) (hperm : s.places.Perm t.places) : s.Locates d :=
  ⟨hperm.nodup_iff.2 h.nodup, fun place hplace => h.leads place (hperm.mem_iff.1 hplace)⟩

/-- Surveys of parts to which different steps lead. -/
theorem locates_parts {β : Type} {parts : List β} {step : β → Step} {part : β → Document}
    {g : β → Survey} (hplaces : s.places = parts.flatMap fun p => (g p).places.map (step p :: ·))
    (hsteps : (parts.map step).Nodup) (hstep : ∀ p ∈ parts, d.step? (step p) = some (part p))
    (h : ∀ p ∈ parts, (g p).Locates (part p)) : s.Locates d := by
  rw [List.Nodup, List.pairwise_map] at hsteps
  constructor
  · rw [hplaces, List.nodup_flatMap]
    refine ⟨fun p hp => (h p hp).nodup.map fun _ _ => List.cons_inj_right _ |>.1, ?_⟩
    refine hsteps.imp fun hne place hplace hplace' => hne ?_
    obtain ⟨rest, -, rfl⟩ := List.mem_map.1 hplace
    obtain ⟨rest', -, heq⟩ := List.mem_map.1 hplace'
    exact (List.cons.inj heq).1.symm
  · rw [hplaces]
    intro place hplace
    obtain ⟨p, hp, hplace⟩ := List.mem_flatMap.1 hplace
    obtain ⟨rest, hrest, rfl⟩ := List.mem_map.1 hplace
    rw [at?_cons, hstep p hp]
    exact (h p hp).leads rest hrest

end Survey

section

variable {α : Type}

theorem places_surveyNamed (f : String → α → Survey) (fields : List (String × α)) :
    (surveyNamed f fields).places =
      fields.flatMap fun p => (f p.1 p.2).places.map (.name p.1 :: ·) := by
  induction fields with
  | nil => rfl
  | cons field rest ih =>
    rw [surveyNamed_cons, Survey.places_and, Survey.places_under, ih, List.flatMap_cons]

theorem places_surveyIndexed (f : α → Survey) (items : List α) (index : Nat) :
    (surveyIndexed f items index).places =
      (items.zipIdx index).flatMap fun p => (f p.1).places.map (.index p.2 :: ·) := by
  induction items generalizing index with
  | nil => rfl
  | cons item rest ih =>
    rw [surveyIndexed, Survey.places_and, Survey.places_under, ih, List.zipIdx_cons,
      List.flatMap_cons]

/-- Two surveys of the same parts, one after the other, and part by part. -/
theorem places_surveyNamed_and (f g : String → α → Survey) (fields : List (String × α)) :
    ((surveyNamed f fields).and (surveyNamed g fields)).places.Perm
      (surveyNamed (fun name a => (f name a).and (g name a)) fields).places := by
  induction fields with
  | nil => exact .refl _
  | cons field rest ih =>
    obtain ⟨name, a⟩ := field
    simp only [surveyNamed_cons, Survey.places_and, Survey.places_under, List.map_append,
      List.append_assoc] at ih ⊢
    refine List.Perm.append_left _ ?_
    exact (List.perm_append_comm_assoc _ _ _).trans (ih.append_left _)

end

theorem locates_surveyNamed {f : String → Document → Survey} {fields : List (String × Document)}
    (hnames : (Fields.names fields).Nodup) (h : ∀ p ∈ fields, (f p.1 p.2).Locates p.2) :
    (surveyNamed f fields).Locates (.object fields) := by
  refine Survey.locates_parts (places_surveyNamed f fields) ?_
    (fun p hp => Fields.lookup_of_mem hnames hp) h
  have hsteps := hnames.map (f := Step.name) fun _ _ => Step.name.inj
  rwa [List.map_map] at hsteps

theorem locates_surveyIndexed {f : Document → Survey} {items : List Document}
    (h : ∀ d ∈ items, (f d).Locates d) : (surveyIndexed f items 0).Locates (.array items) := by
  have hsteps : (items.zipIdx.map fun p => Step.index p.2).Nodup := by
    have hindices := (List.nodup_range' (s := 0) (n := items.length)).map (f := Step.index)
      fun _ _ => Step.index.inj
    rwa [← List.zipIdx_map_snd, List.map_map] at hindices
  have hstep : ∀ p ∈ items.zipIdx, (Document.array items).step? (.index p.2) = some p.1 :=
    fun p hp => List.mem_zipIdx_iff_getElem?.1 hp
  exact Survey.locates_parts (places_surveyIndexed f items 0) hsteps hstep fun p hp =>
    h p.1 (List.fst_mem_of_mem_zipIdx hp)

/-- The findings in a document are at distinct places wherever it stands. -/
structure Located (d : Document) : Prop where
  value : (survey d).Locates d
  object : ∀ message, (surveyObject message d).Locates d
  entry : ∀ name, ((surveyOperand name d).and (surveyEntry name d)).Locates d

/-- An empty list under a tag that needs operands is reported once, by the operation. -/
theorem Located.of_bindings {d : Document} (hvalue : (survey d).Locates d)
    (hobject : ∀ message, (surveyObject message d).Locates d)
    (hbindings : (surveyBindings d).Locates d) : Located d := by
  refine ⟨hvalue, hobject, fun name => ?_⟩
  by_cases hlacks : lacksOperands name d = true
  · obtain ⟨-, rfl⟩ := lacksOperands_iff.1 hlacks
    have hentry : surveyEntry name (.array []) = .nothing := by
      rw [surveyEntry]
      split
      · rfl
      · split <;> rfl
    rw [surveyOperand, if_pos hlacks, hentry]
    exact (Survey.locates_finding _ _).of_perm (.refl _)
  · have hentry : (surveyEntry name d).Locates d := by
      rw [surveyEntry]
      split
      · exact hbindings
      · split
        · exact Survey.locates_nothing d
        · exact hvalue
    rw [surveyOperand, if_neg hlacks]
    exact hentry.of_perm (.refl _)

theorem located_array {items : List Document} (h : ∀ d ∈ items, Located d) :
    Located (.array items) := by
  apply Located.of_bindings
  · rw [survey, surveyItems_eq]
    exact locates_surveyIndexed fun d hd => (h d hd).value
  · exact fun message => Survey.locates_finding message _
  · rw [surveyBindings, surveyBindingItems_eq]
    exact locates_surveyIndexed fun d hd => (h d hd).object _

theorem located_object {fields : List (String × Document)} (hnames : (Fields.names fields).Nodup)
    (h : ∀ p ∈ fields, Located p.2) : Located (.object fields) := by
  have hvalues : (surveyValues fields).Locates (.object fields) := by
    rw [surveyValues_eq]
    exact locates_surveyNamed hnames fun p hp => (h p hp).value
  refine .of_bindings ?_ (fun _ => hvalues) hvalues
  rw [survey]
  cases Shape.ofNames (fields.map Prod.fst) with
  | objectLiteral =>
    simp only [surveyPayloads_eq]
    exact locates_surveyNamed hnames fun p hp => (h p hp).object _
  | literal => exact Survey.locates_nothing _
  | operation =>
    simp only [surveyEntries_eq]
    have hparts : (surveyNamed (fun name d => (surveyOperand name d).and (surveyEntry name d))
        fields).Locates (.object fields) :=
      locates_surveyNamed hnames fun p hp => (h p hp).entry p.1
    exact hparts.of_perm (places_surveyNamed_and surveyOperand surveyEntry fields)
  | unrecognized => exact Survey.locates_finding _ _

theorem located_of_keyed {d : Document} (h : d.Keyed) : Located d := by
  induction h with
  | array _ ih => exact located_array ih
  | object hnames _ ih => exact located_object hnames ih
  | _ =>
    exact .of_bindings (Survey.locates_nothing _) (fun _ => Survey.locates_finding _ _)
      (Survey.locates_finding _ _)

/-! ## Paths -/

/-- The issues of a document in which each object has each name once are at distinct places of it,
and their paths are these places written out. So the paths are distinct if and only if no two of
the places are written alike, and in particular where the names on the way are plain. -/
theorem issue_paths_distinct {d : Document} (h : d.Keyed) :
    (document d).issues.map Issue.path = (survey d).places.map (pathFrom "$") ∧
      (survey d).Locates d ∧
      (((document d).issues.map Issue.path).Nodup ↔ ∀ p ∈ (survey d).places,
        ∀ q ∈ (survey d).places, pathFrom "$" p = pathFrom "$" q → p = q) ∧
      ((∀ p ∈ (survey d).places, ∀ step ∈ p, step.isPlain = true) →
        ((document d).issues.map Issue.path).Nodup) := by
  have hlocates := (located_of_keyed h).value
  have hdistinct : ((document d).issues.map Issue.path).Nodup ↔ ∀ p ∈ (survey d).places,
      ∀ q ∈ (survey d).places, pathFrom "$" p = pathFrom "$" q → p = q := by
    rw [paths_document]
    constructor
    · intro hnodup p hp q hq
      exact List.inj_on_of_nodup_map hnodup hp hq
    · intro hinjective
      exact hlocates.nodup.map_on hinjective
  refine ⟨paths_document d, hlocates, hdistinct, fun hplain => hdistinct.2 fun p hp q hq => ?_⟩
  exact pathFrom_injective (hplain p hp) (hplain q hq)

/-- What holds of the document in a text is found by reading it. -/
theorem exists_parse {text : String} {P : Document → Prop} [DecidablePred P]
    (h : (parse text).toOption.any (fun d => decide (P d)) = true) :
    ∃ d, parse text = .ok d ∧ P d := by
  cases hread : parse text with
  | error fault =>
    rw [hread] at h
    cases h
  | ok d =>
    rw [hread] at h
    exact ⟨d, rfl, of_decide_eq_true h⟩

/-- A document with issues in a list, in an operation and in an object literal. -/
def scattered : String :=
  "[\x7b\"add\":[]\x7d,\x7b\"object\":\x7b\"a\":\x7b\x7d,\"b\":[\x7b\x7d]\x7d\x7d]"

theorem scattered_issue_paths_distinct :
    ∃ d, parse scattered = .ok d ∧
      (document d).issues.map Issue.path = ["$[0].add", "$[1].object.a", "$[1].object.b[0]"] ∧
      (survey d).places.Nodup ∧ ((document d).issues.map Issue.path).Nodup := by
  have hscattered : ∃ d, parse scattered = .ok d ∧
      (document d).issues.map Issue.path = ["$[0].add", "$[1].object.a", "$[1].object.b[0]"] ∧
      ∀ p ∈ (survey d).places, ∀ step ∈ p, step.isPlain = true := exists_parse (by decide +kernel)
  obtain ⟨d, hread, hpaths, hplain⟩ := hscattered
  obtain ⟨-, hlocates, -, hdistinct⟩ := issue_paths_distinct (keyed_of_parse hread)
  exact ⟨d, hread, hpaths, hlocates.nodup, hdistinct hplain⟩

/-- An object literal in which the first item of `a` and the field `a[0]` are written alike. -/
def writtenAlike : String :=
  "\x7b\"object\":\x7b\"a\":[\x7b\x7d],\"a[0]\":\x7b\x7d\x7d\x7d"

theorem issue_path_repeated :
    ∃ d, parse writtenAlike = .ok d ∧
      (survey d).places = [[.name "object", .name "a", .index 0], [.name "object", .name "a[0]"]] ∧
      (document d).issues.map Issue.path = ["$.object.a[0]", "$.object.a[0]"] ∧
      ¬ ((document d).issues.map Issue.path).Nodup :=
  exists_parse (by decide +kernel)

end Check

end QueryTree
