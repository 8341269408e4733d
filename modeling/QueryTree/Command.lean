import QueryTree.Check
import QueryTree.Document.Reader
import QueryTree.Document.Writer
import QueryTree.Manual

/-!
# The command line

`docs` and `doc` print the manual, `check` reads a wire document and prints a report. A run ends
with status 1 and a message on the error output if it is refused, or if the report has issues.
-/

namespace QueryTree

inductive CommandError where
  | invalidDocument (fault : Document.Fault)
  | invalidEncoding
  | noInput
  | unknownCategory (name : String)
  | issues (count : Nat)
deriving DecidableEq

def CommandError.message : CommandError → String
  | .invalidDocument fault => "Invalid JSON: " ++ fault.message
  | .invalidEncoding => "IO error: stream did not contain valid UTF-8"
  | .noInput => "No input provided. Use --input or pipe JSON to stdin."
  | .unknownCategory name =>
    "Unknown category: '" ++ name ++ "'\nRun 'fql docs' to see available categories."
  | .issues count => toString count ++ " issue(s) found"

/-- The report on a text that holds a document. -/
def Check.text (input : Option String) : Except CommandError Report :=
  match input with
  | none => .error .noInput
  | some text =>
    match Document.parse text with
    | .ok d => .ok (Check.document d)
    | .error fault => .error (.invalidDocument fault)

def Manual.find (name : String) : Except CommandError String :=
  match Category.find? name with
  | some c => .ok (Manual.page c)
  | none => .error (.unknownCategory name)

inductive Command where
  | docs
  | doc (category : String)
  | check (input : Option String) (layout : Layout)

/-- What a run prints, and its exit status. -/
structure Outcome where
  code : Nat
  stdout : String
  stderr : String
deriving DecidableEq

namespace Outcome

def success (stdout : String) : Outcome := ⟨0, stdout, ""⟩

def failure (stdout : String) (error : CommandError) : Outcome :=
  ⟨1, stdout, error.message ++ "\n"⟩

end Outcome

namespace Command

/-- The argument is taken for an option wherever it stands. A dash alone is a text. -/
def isOption (arg : String) : Bool := arg.toList.head? == some '-' && arg != "-"

/-- The options of `check`, each given once at most. -/
def parseCheck (input : Option String) (pretty : Bool) : List String → Option Command
  | [] => some (.check input (if pretty then .indented else .compact))
  | arg :: rest =>
    if arg = "-p" ∨ arg = "--pretty" then
      if pretty then none else parseCheck input true rest
    else if input.isSome then none
    else if arg = "-i" ∨ arg = "--input" then
      match rest with
      | [] => none
      | text :: rest => if isOption text then none else parseCheck (some text) pretty rest
    else
      match "--input=".toList.isPrefixOf? arg.toList with
      | some text => parseCheck (some (String.ofList text)) pretty rest
      | none => none

def parse? : List String → Option Command
  | ["docs"] => some .docs
  | ["doc", category] => if isOption category then none else some (.doc category)
  | "check" :: options => parseCheck none false options
  | _ => none

def report (layout : Layout) (r : Report) : Outcome :=
  let text := r.toDocument.text layout ++ "\n"
  if r.isOk then .success text else .failure text (.issues r.issues.length)

def checkText (layout : Layout) (text : String) : Outcome :=
  match Check.text (some text) with
  | .ok r => report layout r
  | .error error => .failure "" error

/-- Runs a command; `check` reads the standard input if it has no text of its own. -/
def run (stdin : ByteArray) : Command → Outcome
  | .docs => .success Manual.overview
  | .doc category =>
    match Manual.find category with
    | .ok text => .success text
    | .error error => .failure "" error
  | .check (some text) layout => checkText layout text
  | .check none layout =>
    match String.fromUTF8? stdin with
    | some text => checkText layout text
    | none => .failure "" .invalidEncoding

end Command

end QueryTree
