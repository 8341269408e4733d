import QueryTree.Proofs.Parallel.Run
import QueryTree.Proofs.Renaming

/-!
# Shifted runs

A term that reads no name from around it is run below any number of implicit variables. The numbers
of its own variables count on from there, and nothing else changes.
-/

namespace QueryTree

open QueryTree.Expr

/-- A term that reads only names that it binds, and uses no implicit name of its own accord. -/
def Usage.closed : Usage := ⟨Explicit, fun _ => False, fun _ => False⟩

/-- The name of a variable below more variables. -/
def shiftedName (more number : Nat) : String := implicitName (number + more)

/-- The node below more variables. -/
def Expr.shifted (more : Nat) (e : Expr) : Expr := e.rename (renumber (shiftedName more))

/-- The ending below more variables. -/
def shiftedEnding (more : Nat) : Ending Expr → Ending Expr
  | .ok e atEnd => .ok (e.shifted more) (atEnd + more)
  | .error stop atEnd => .error stop (atEnd + more)

theorem renumber_shiftedName (more number : Nat) :
    renumber (shiftedName more) (implicitName number) = implicitName (number + more) :=
  renumber_implicitName _ number

theorem map_implicitNames (more first count : Nat) :
    (implicitNames first count).map (renumber (shiftedName more)) =
      implicitNames (first + more) count := by
  rw [implicitNames_eq_map_range, implicitNames_eq_map_range, List.map_map]
  apply List.map_congr_left
  intro j _
  rw [Function.comp_apply, renumber_shiftedName, Nat.add_right_comm]

/-- One run for each number of further variables. -/
def shifts : ByDepth Nat where
  apart more := more
  Named := Explicit
  Node := Renumbered 0 shiftedName
  string_eq h i j := by rw [h i, h j, string?_rename, string?_rename]
  names_eq h tag i j := by rw [h i, h j, nodeNames_rename, nodeNames_rename]
  node_literal := renumbered_literal
  node_array _ := renumbered_array
  node_object _ _ := renumbered_object
  node_leaf _ := renumbered_leaf
  node_operation := by
    intro entry form position slots operand fields hentry hform hlayout hfits hfilled
    have hreserved := Catalog.layout_tag_not_reserved entry hentry (by simp [hform, hlayout])
    simp only [Catalog.reservedTags, List.mem_cons, not_or] at hreserved
    exact renumbered_operation (by simp [hreserved]) (hfits.node fun _ => renumbered_array)
      (hfilled.node fun _ => renumbered_array)
  node_let _ _ _ hvalues hbody := renumbered_let hvalues hbody
  node_lambda := renumbered_declared
  node_variable number := by
    apply renumbered_variable
    intro more
    rw [Nat.add_zero, renumber_shiftedName]
  node_reified first n _ hbody := by
    refine renumbered_lambda (fun more => ?_) hbody
    rw [Nat.add_zero, map_implicitNames]

/-- Below so many more variables a closed term is built as it is without them, with the numbers of
its own variables shifted. It also fails and throws alike. -/
theorem Program.build_shifted {term : Program} (h : term.Within .closed) (env : Env)
    (bound more : Nat) : term.build .byDepth env (bound + more) =
      shiftedEnding more (term.build .byDepth env bound) := by
  have henv : shifts.parallel.Envs .closed bound (fun _ => env) :=
    ⟨fun _ hname => hname, fun _ hx => hx.elim, fun _ _ hx => hx.elim⟩
  obtain ⟨w, rfl, hends⟩ := Parallel.ends_term henv h
  rcases hends with ⟨e, he, hok⟩ | ⟨stop, hstop⟩
  · have hbase : term.build .byDepth env bound = .ok (e 0) bound := hok 0
    have hbelow : term.build .byDepth env (bound + more) = .ok (e more) (bound + more) := hok more
    rw [hbase, hbelow, he more]
    rfl
  · have hbase : term.build .byDepth env bound = .error stop bound := hstop 0
    have hbelow : term.build .byDepth env (bound + more) = .error stop (bound + more) := hstop more
    rw [hbase, hbelow]
    rfl

/-- Variables are renamed where they are declared and referred to, and not in a text. -/
theorem build_shifted_nested :
    let inner : Program :=
      .function ["y"] (.list [.get "x", .get "y", .literal (.string "_implicit0")])
    let caught : Program := .attempt (.lambdaOf (.function ["z"] (.throw "late"))) (.lambdaOf inner)
    let term : Program := .lambdaOf (.function ["x"] caught)
    term.Within .closed ∧
      term.build .byDepth [] (0 + 2) = shiftedEnding 2 (term.build .byDepth [] 0) ∧
      term.build .byDepth [] (0 + 2) = .ok (lambdaNode (.string "_implicit2")
        (lambdaNode (.string "_implicit3") (.array [variableNode "_implicit2",
          variableNode "_implicit3", .string "_implicit0"]))) 2 := by
  intro inner caught term
  have hterm : term.Within .closed := by
    simp [term, caught, inner, Program.lambdaOf, Program.Within, Program.WithinItems, Usage.under,
      Usage.closed]
  exact ⟨hterm, Program.build_shifted hterm [] 0 2, rfl⟩

end QueryTree
