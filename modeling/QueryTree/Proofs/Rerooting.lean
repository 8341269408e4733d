import QueryTree.Proofs.Survey

/-!
# Walks from other paths

A walk adds to a report what the check of the document reports by itself, with the path of the walk
in place of the `$` at the start of each path. So the report on a list is put together from the
reports on its items, each moved to the path of its item.
-/

namespace QueryTree

/-- The issue with a path in place of the first character of its own. -/
def Issue.rerooted (path : String) (issue : Issue) : Issue :=
  { issue with path := path ++ String.ofList (issue.path.toList.drop 1) }

namespace Report

/-- Both reports, one after the other. -/
def and (r s : Report) : Report := ⟨r.operations + s.operations, r.issues ++ s.issues⟩

/-- All reports, one after the other. -/
def concat (reports : List Report) : Report := reports.foldr and .empty

def rerooted (path : String) (r : Report) : Report := ⟨r.operations, r.issues.map (·.rerooted path)⟩

theorem empty_and (r : Report) : empty.and r = r := by simp [and, empty]

theorem and_empty (r : Report) : r.and empty = r := by simp [and, empty]

theorem and_assoc (r s t : Report) : (r.and s).and t = r.and (s.and t) := by
  simp [and, Nat.add_assoc]

end Report

namespace Document

theorem pathFrom_append (start path : String) (place : Place) :
    pathFrom (start ++ path) place = start ++ pathFrom path place := by
  induction place generalizing path with
  | nil => rfl
  | cons step place ih =>
    have hstep : step.extend (start ++ path) = start ++ step.extend path := by
      cases step <;> simp [Step.extend, Check.fieldPath, Check.itemPath, String.append_assoc]
    exact (congrArg (pathFrom · place) hstep).trans (ih (step.extend path))

theorem pathFrom_eq_append (start : String) (place : Place) :
    pathFrom start place = start ++ pathFrom "" place := by
  simpa using pathFrom_append start "" place

end Document

namespace Check

open Document

theorem rerooted_root (path rest message : String) :
    Issue.rerooted path ⟨"$" ++ rest, message⟩ = ⟨path ++ rest, message⟩ := by
  simp [Issue.rerooted]

/-- What a survey adds to a report is its own report, moved. -/
theorem Survey.report_eq (s : Survey) (path : String) (r : Report) :
    s.report path r = r.and ((s.report "$" .empty).rerooted path) := by
  have hissue : ∀ f : Finding, Issue.rerooted path ⟨pathFrom "$" f.place, f.message⟩ =
      ⟨pathFrom path f.place, f.message⟩ := by
    intro f
    rw [pathFrom_eq_append "$", rerooted_root, ← pathFrom_eq_append]
  simp [Survey.report, Report.and, Report.rerooted, Report.empty, Function.comp_def, hissue]

theorem walk_eq (d : Document) (path : String) (r : Report) :
    walk d path r = r.and ((document d).rerooted path) := by
  rw [walk_survey, Survey.report_eq, document_survey]

theorem walkItems_eq_concat (items : List Document) (index : Nat) (path : String) (r : Report) :
    walkItems items index path r = r.and (.concat (items.mapIdx fun i item =>
      (document item).rerooted (itemPath path (index + i)))) := by
  induction items generalizing index r with
  | nil => exact r.and_empty.symm
  | cons item rest ih =>
    rw [walkItems, ih, walk_eq, Report.and_assoc, List.mapIdx_cons]
    simp only [Report.concat, List.foldr_cons, Nat.add_zero, Nat.add_assoc, Nat.add_comm 1]

/-- A walk adds the report of the document to the one it is given: the operations to their number,
and the issues after those that are there, each with the path of the walk in place of `$`. The
report on a list is that on its items, one after the other, each at the path of its item. -/
theorem walk_rerooted (d : Document) (path : String) (r : Report) :
    (walk d path r).operations = r.operations + (document d).operations ∧
    (walk d path r).issues = r.issues ++ (document d).issues.map (·.rerooted path) ∧
    (∀ issue ∈ (document d).issues, ∃ rest, issue.path = "$" ++ rest ∧
      issue.rerooted path = ⟨path ++ rest, issue.message⟩) ∧
    ∀ items, document (.array items) =
      .concat (items.mapIdx fun i item => (document item).rerooted (itemPath "$" i)) := by
  refine ⟨?_, ?_, ?_, ?_⟩
  · rw [walk_eq]
    rfl
  · rw [walk_eq]
    rfl
  · intro issue hissue
    have hpath : issue.path ∈ (survey d).places.map (pathFrom "$") := by
      rw [← paths_document]
      exact List.mem_map_of_mem hissue
    obtain ⟨place, -, hplace⟩ := List.mem_map.1 hpath
    have hrooted : issue = ⟨"$" ++ pathFrom "" place, issue.message⟩ := by
      rw [← pathFrom_eq_append, hplace]
    refine ⟨pathFrom "" place, congrArg Issue.path hrooted, ?_⟩
    exact (congrArg (Issue.rerooted path) hrooted).trans (rerooted_root ..)
  · intro items
    have hitems := walkItems_eq_concat items 0 "$" .empty
    simp only [Report.empty_and, Nat.zero_add] at hitems
    exact hitems

/-- Two issues of an item, at the path of the item. -/
example :
    let item : Document := .object [("add", .array []), ("x", .object [])]
    document (.array [.null, item]) = (document item).rerooted "$[1]" := by
  decide +kernel

end Check

end QueryTree
