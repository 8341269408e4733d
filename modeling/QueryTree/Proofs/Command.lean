import QueryTree.Command
import QueryTree.Proofs.Paths
import QueryTree.Proofs.Reading
import QueryTree.Proofs.Sizes

/-!
# The check on the command line

However a text is given to the check, the run ends with status 0 exactly if it holds a document
without issues. A report is printed exactly if the text holds a document, and in either layout it is
read back as it is, whatever the keys in paths and messages. The number of operations in it is
written as it is too, since a text has no more of them than characters.
-/

namespace QueryTree

/-! ## Reports as documents -/

namespace Report

/-- What is printed of an issue. -/
def issueDocument (issue : Issue) : Document :=
  .object [("path", .string issue.path), ("message", .string issue.message)]

theorem regular_toDocument {r : Report} (h : r.operations < 0x8000000000000000) :
    r.toDocument.Regular fun _ => False := by
  have hrange : Literal.InRange r.operations := ⟨by omega, by omega⟩
  simp [toDocument, hrange]

theorem depth_toDocument (r : Report) : r.toDocument.depth ≤ 3 := by
  have hissues : Document.depthItems (r.issues.map issueDocument) ≤ 1 := by
    induction r.issues with
    | nil => exact Nat.zero_le _
    | cons issue rest ih => exact Nat.max_le.2 ⟨Nat.le_refl _, ih⟩
  have hdepth : r.toDocument.depth =
      max 0 (max (Document.depthItems (r.issues.map issueDocument) + 1) 0) + 1 := rfl
  rw [hdepth]
  omega

/-- A report is read back from what is printed of it, whatever its paths and messages. -/
theorem parse_toDocument {r : Report} (h : r.operations < 0x8000000000000000) (layout : Layout) :
    Document.parse (r.toDocument.text layout) = .ok r.toDocument :=
  Document.parse_text (regular_toDocument h) (Nat.le_trans r.depth_toDocument (by decide)) layout

end Report

namespace Command

/-! ## Command lines -/

/-- The arguments that ask for a layout of the report. -/
def layoutArguments : Layout → List (List String)
  | .compact => [[]]
  | .indented => [["-p"], ["--pretty"]]

/-- The command lines that check a text, each with a standard input: the text is attached to its
option, follows it, or stands on the standard input. An argument that follows is no option. The
layout is asked for on either side of the text. -/
inductive Supplies (text : String) (layout : Layout) : List String → ByteArray → Prop
  | attached (before after : List String) (stdin : ByteArray) :
      before ++ after ∈ layoutArguments layout →
      Supplies text layout ("check" :: before ++ ["--input=" ++ text] ++ after) stdin
  | separate (before after : List String) (option : String) (stdin : ByteArray) :
      before ++ after ∈ layoutArguments layout → option ∈ ["-i", "--input"] →
      text.toList.head? ≠ some '-' →
      Supplies text layout ("check" :: before ++ [option, text] ++ after) stdin
  | standard (arguments : List String) : arguments ∈ layoutArguments layout →
      Supplies text layout ("check" :: arguments) text.toUTF8

/-- The run of a command line, if there is a command for it. -/
def runLine (args : List String) (stdin : ByteArray) : Option Outcome :=
  (parse? args).map (run stdin)

theorem isPrefixOf?_append (front rest : List Char) :
    front.isPrefixOf? (front ++ rest) = some rest := by
  induction front with
  | nil => rfl
  | cons c front ih => simp [List.isPrefixOf?, ih]

/-- The arguments for a layout stand before those for the text, or after them. -/
theorem append_mem_layoutArguments {layout : Layout} {before after : List String}
    (h : before ++ after ∈ layoutArguments layout) :
    before ∈ layoutArguments layout ∧ after = [] ∨
      before = [] ∧ after ∈ layoutArguments layout := by
  cases before with
  | nil => exact .inr ⟨rfl, h⟩
  | cons argument before =>
    have hlength : ∀ arguments ∈ layoutArguments layout, arguments.length ≤ 1 := by
      cases layout <;> decide
    have hafter : after = [] := by
      rw [← List.length_eq_zero_iff]
      have := hlength _ h
      rw [List.length_append, List.length_cons] at this
      omega
    subst hafter
    rw [List.append_nil] at h
    exact .inl ⟨h, rfl⟩

section

variable (input : Option String) {layout : Layout} {arguments : List String}

theorem parseCheck_nil (layout : Layout) :
    parseCheck input (layout == .indented) [] = some (.check input layout) := by
  cases layout <;> rw [parseCheck] <;> rfl

theorem parseCheck_layout (h : arguments ∈ layoutArguments layout) (rest : List String) :
    parseCheck input false (arguments ++ rest) = parseCheck input (layout == .indented) rest := by
  cases layout with
  | compact =>
    cases List.mem_singleton.1 h
    rfl
  | indented =>
    rcases List.mem_pair.1 h with rfl | rfl <;>
    · rw [List.singleton_append, parseCheck.eq_def]
      rfl

theorem parse?_check (h : arguments ∈ layoutArguments layout) :
    parse? ("check" :: arguments) = some (.check none layout) := by
  have hlayout := parseCheck_layout none h []
  rw [List.append_nil, parseCheck_nil] at hlayout
  exact hlayout

end

section

variable (text : String) (pretty : Bool) (rest : List String)

theorem parseCheck_attached :
    parseCheck none pretty (("--input=" ++ text) :: rest) = parseCheck (some text) pretty rest := by
  have hlist : ("--input=" ++ text).toList = "--input=".toList ++ text.toList :=
    String.toList_append
  have hne : ∀ s : String, ¬ "--input=".toList <+: s.toList → "--input=" ++ text ≠ s := by
    rintro s hs rfl
    exact hs (hlist ▸ List.prefix_append _ _)
  have hlayout := not_or.2 ⟨hne "-p" (by decide), hne "--pretty" (by decide)⟩
  have hinput := not_or.2 ⟨hne "-i" (by decide), hne "--input" (by decide)⟩
  rw [parseCheck.eq_def]
  dsimp only
  rw [if_neg hlayout, if_neg (by decide), if_neg hinput, hlist, isPrefixOf?_append]
  simp only [String.ofList_toList]

theorem parseCheck_separate {option : String} (h : option ∈ ["-i", "--input"])
    (htext : text.toList.head? ≠ some '-') :
    parseCheck none pretty (option :: text :: rest) = parseCheck (some text) pretty rest := by
  have hoption : ¬isOption text = true := by simp [isOption, htext]
  rcases List.mem_pair.1 h with rfl | rfl <;>
  · rw [parseCheck.eq_def]
    exact if_neg hoption

end

/-- Arguments that give the text may stand on either side of those for the layout. -/
theorem parse?_supplied {text : String} {layout : Layout} {before given after : List String}
    (h : before ++ after ∈ layoutArguments layout)
    (hgiven : ∀ pretty rest,
      parseCheck none pretty (given ++ rest) = parseCheck (some text) pretty rest) :
    parse? ("check" :: before ++ given ++ after) = some (.check (some text) layout) := by
  show parseCheck none false (before ++ given ++ after) = _
  rcases append_mem_layoutArguments h with ⟨hbefore, rfl⟩ | ⟨rfl, hafter⟩
  · rw [List.append_assoc, parseCheck_layout none hbefore, hgiven, parseCheck_nil]
  · rw [List.nil_append, hgiven, ← List.append_nil after, parseCheck_layout _ hafter,
      parseCheck_nil]

theorem runLine_supplies {text : String} {layout : Layout} {args : List String}
    {stdin : ByteArray} (h : Supplies text layout args stdin) :
    runLine args stdin = some (checkText layout text) := by
  cases h with
  | attached before after _ harguments =>
    rw [runLine, parse?_supplied harguments fun pretty rest => parseCheck_attached text pretty rest]
    rfl
  | separate before after option _ harguments hoption htext =>
    rw [runLine, parse?_supplied harguments fun pretty rest =>
      parseCheck_separate text pretty rest hoption htext]
    rfl
  | standard arguments harguments =>
    have hread : String.fromUTF8? text.toUTF8 = some text := dif_pos text.isValidUTF8
    rw [runLine, parse?_check harguments, Option.map_some, run, hread]

/-! ## Runs of the check -/

theorem checkText_of_parse {text : String} {d : Document} (h : Document.parse text = .ok d)
    (layout : Layout) : checkText layout text = report layout (Check.document d) := by
  rw [checkText, Check.text, h]

theorem checkText_of_fault {text : String} {fault : Document.Fault}
    (h : Document.parse text = .error fault) (layout : Layout) :
    checkText layout text = ⟨1, "", "Invalid JSON: " ++ fault.message ++ "\n"⟩ := by
  rw [checkText, Check.text, h]
  rfl

theorem stdout_report (layout : Layout) (r : Report) :
    (report layout r).stdout = r.toDocument.text layout ++ "\n" := by
  rw [report]
  split <;> rfl

theorem report_of_isOk {r : Report} (h : r.issues = []) (layout : Layout) :
    (report layout r).code = 0 ∧ (report layout r).stderr = "" := by
  have hok : r.isOk = true := by rw [Report.isOk, h, List.isEmpty_nil]
  rw [report, if_pos hok]
  exact ⟨rfl, rfl⟩

theorem report_of_issues {r : Report} (h : r.issues ≠ []) (layout : Layout) :
    (report layout r).code = 1 ∧
      (report layout r).stderr = toString r.issues.length ++ " issue(s) found\n" := by
  have hok : ¬ r.isOk = true := by rwa [Report.isOk, List.isEmpty_iff]
  rw [report, if_neg hok]
  refine ⟨rfl, ?_⟩
  show toString r.issues.length ++ " issue(s) found" ++ "\n" = _
  rw [String.append_assoc]
  rfl

/-- A run of the check depends on the text and the layout only, not on how the text is supplied. It
ends with status 0 exactly if the text holds a document without issues. It prints something exactly
if the text holds a document: the report in the layout and a line break. What is printed before the
break is read back as an object with the operations and issues of the report, as long as the text
has fewer than 2 ^ 63 characters, as every text in memory has. If there are issues, the run ends
with status 1 and their number, and if there is no document, with status 1 and the fault. -/
theorem check_consistent (text : String) (layout : Layout) : ∃ outcome : Outcome,
    (∀ args stdin, Supplies text layout args stdin → runLine args stdin = some outcome) ∧
    (outcome.code = 0 ↔ ∃ d, Document.parse text = .ok d ∧ (Check.document d).issues = []) ∧
    (outcome.stdout ≠ "" ↔ ∃ d, Document.parse text = .ok d) ∧
    (∀ d, Document.parse text = .ok d →
      outcome.stdout = (Check.document d).toDocument.text layout ++ "\n" ∧
      (text.length < 0x8000000000000000 →
        Document.parse ((Check.document d).toDocument.text layout) = .ok (.object
          [("operations", .integer (Check.document d).operations),
            ("issues", .array ((Check.document d).issues.map fun issue =>
              .object [("path", .string issue.path), ("message", .string issue.message)]))])) ∧
      ((Check.document d).issues = [] → outcome.code = 0 ∧ outcome.stderr = "") ∧
      ((Check.document d).issues ≠ [] → outcome.code = 1 ∧
        outcome.stderr = toString (Check.document d).issues.length ++ " issue(s) found\n")) ∧
    ∀ fault, Document.parse text = .error fault →
      outcome = ⟨1, "", "Invalid JSON: " ++ fault.message ++ "\n"⟩ := by
  refine ⟨checkText layout text, fun args stdin => runLine_supplies, ?_⟩
  cases hread : Document.parse text with
  | error fault =>
    rw [checkText_of_fault hread]
    simp
  | ok d =>
    have hok := fun h => @report_of_isOk (Check.document d) h layout
    have hissues := fun h => @report_of_issues (Check.document d) h layout
    rw [checkText_of_parse hread, stdout_report]
    refine ⟨?_, ?_, ?_, nofun⟩
    · constructor
      · intro hcode
        refine ⟨d, rfl, ?_⟩
        by_contra h
        rw [(hissues h).1] at hcode
        cases hcode
      · rintro ⟨_, ⟨⟩, h⟩
        exact (hok h).1
    · refine ⟨fun _ => ⟨d, rfl⟩, fun _ h => ?_⟩
      have hlength := congrArg String.length h
      rw [String.length_append] at hlength
      cases hlength
    · rintro _ ⟨⟩
      refine ⟨rfl, fun hlength => ?_, hok, hissues⟩
      have hcount := Check.operations_le_length hread
      exact Report.parse_toDocument (Nat.lt_of_le_of_lt hcount hlength) layout

/-- A document with three issues, attached to its option and on the standard input. -/
theorem scattered_check_consistent : ∃ outcome : Outcome,
    runLine ["check", "--input=" ++ Check.scattered, "--pretty"] .empty = some outcome ∧
      runLine ["check", "-p"] Check.scattered.toUTF8 = some outcome ∧
      outcome.code = 1 ∧ outcome.stderr = "3 issue(s) found\n" ∧
      ∃ d, Document.parse Check.scattered = .ok d ∧
        outcome.stdout = (Check.document d).toDocument.text .indented ++ "\n" ∧
        Document.parse ((Check.document d).toDocument.text .indented) =
          .ok (Check.document d).toDocument := by
  have hscattered : ∃ d, Document.parse Check.scattered = .ok d ∧
      (Check.document d).issues.length = 3 := Check.exists_parse (by decide +kernel)
  obtain ⟨d, hread, hcount⟩ := hscattered
  obtain ⟨outcome, hsupplied, -, -, hreport, -⟩ := check_consistent Check.scattered .indented
  obtain ⟨hstdout, hprinted, -, hissues⟩ := hreport d hread
  have hne : (Check.document d).issues ≠ [] := by
    intro h
    rw [h] at hcount
    cases hcount
  obtain ⟨hcode, hstderr⟩ := hissues hne
  rw [hcount] at hstderr
  refine ⟨outcome, ?_, ?_, hcode, hstderr, d, hread, hstdout, hprinted (by decide +kernel)⟩
  · exact hsupplied _ _ (.attached [] ["--pretty"] _ (by decide))
  · exact hsupplied _ _ (.standard ["-p"] (by decide))

end Command

end QueryTree
