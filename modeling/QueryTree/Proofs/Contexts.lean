import QueryTree.Proofs.Depth

/-!
# Terms that run other terms

A term that runs another one is a context with this term in its hole. By depth it runs what stands
there at its own count: a term that gives the same at this count may stand there instead.
-/

namespace QueryTree

section

variable {α β γ : Type} {first : α → Build γ} {join : γ → β → β}

/-- In a list that runs in order, a place matters by what it gives at the count at which the places
before it end. -/
theorem run_append_congr (run : List α → Build β) {none : β} (hnil : run [] = pure none)
    (hcons : ∀ x xs, run (x :: xs) = do return join (← first x) (← run xs)) {x y : α} {c c' : Nat}
    {before : List α} {b : β} (hbefore : run before c = .ok b c') (hxy : first x c' = first y c')
    (rest : List α) : run (before ++ x :: rest) c = run (before ++ y :: rest) c := by
  induction before generalizing b c with
  | nil =>
    rw [hnil] at hbefore
    cases hbefore
    rw [List.nil_append, List.nil_append, hcons, hcons, Build.bind_apply, Build.bind_apply, hxy]
  | cons z before ih =>
    rw [hcons] at hbefore
    obtain ⟨g, middle, hfirst, hbefore⟩ := Build.bind_eq_ok hbefore
    obtain ⟨b', _, hrun, hbefore⟩ := Build.bind_eq_ok hbefore
    cases hbefore
    have hrest := ih hrun
    simp only [List.cons_append, hcons, Build.bind_apply, hfirst, hrest]

end

namespace Program

/-- A term with a hole for another one that it runs. -/
inductive Context where
  | item (before rest : List Program)
  | field (before : List (String × Program)) (name : String) (rest : List (String × Program))
  | key (before : List (String × Program)) (name : String) (rest : List (String × Program))
  | operand (b : Builder) (before : List (Label × Program)) (label : Label)
      (rest : List (Label × Program))
  | normalize (tag : String)
  | normalizeLambda (tag : String)
  | part (path : List Expr.Step)
  | attempt (fallback : Program)
  | caught (term : Program)
  | orElse (fallback : Program)
  | replaced (term : Program)

namespace Context

def fill (hole : Program) : Context → Program
  | .item before rest => .list (before ++ hole :: rest)
  | .field before name rest => .object (before ++ (name, hole) :: rest)
  | .key before name rest => .keyed (before ++ (name, hole) :: rest)
  | .operand b before label rest => .call b (before ++ (label, hole) :: rest)
  | .normalize tag => .normalize hole tag
  | .normalizeLambda tag => .normalizeLambda hole tag
  | .part path => .part hole path
  | .attempt fallback => .attempt hole fallback
  | .caught term => .attempt term hole
  | .orElse fallback => .orElse hole fallback
  | .replaced term => .orElse term hole

end Context

variable {env : Env} {term other : Program} {c c' : Nat}

theorem runItems_congr {before : List Program} {as : List Argument}
    (hbefore : runItems .byDepth env before c = .ok as c')
    (h : term.runElements .byDepth env c' = other.runElements .byDepth env c')
    (rest : List Program) : runItems .byDepth env (before ++ term :: rest) c =
      runItems .byDepth env (before ++ other :: rest) c :=
  run_append_congr (runItems .byDepth env) rfl (runItems_cons .byDepth env) hbefore h rest

theorem runFields_congr {before : List (String × Program)} {fields : List (String × Argument)}
    (hbefore : runFields .byDepth env before c = .ok fields c')
    (h : term.run .byDepth env c' = other.run .byDepth env c') (name : String)
    (rest : List (String × Program)) :
    runFields .byDepth env (before ++ (name, term) :: rest) c =
      runFields .byDepth env (before ++ (name, other) :: rest) c := by
  let first : String × Program → Build (String × Argument) := fun p => do
    return (p.1, ← p.2.run .byDepth env)
  have hcons : ∀ p ps, runFields .byDepth env (p :: ps) = do
      return (← first p) :: (← runFields .byDepth env ps) := by
    intro p ps
    simp [first, runFields]
  apply run_append_congr (runFields .byDepth env) rfl hcons hbefore
  simp only [first, Build.bind_apply, h]

theorem runOperands_congr {before : List (Label × Program)} {operands : Operands}
    (hbefore : runOperands .byDepth env before c = .ok operands c')
    (h : term.runElements .byDepth env c' = other.runElements .byDepth env c') (label : Label)
    (rest : List (Label × Program)) :
    runOperands .byDepth env (before ++ (label, term) :: rest) c =
      runOperands .byDepth env (before ++ (label, other) :: rest) c := by
  let first : Label × Program → Build Operands := fun p => do
    return (← p.2.runElements .byDepth env).map (p.1, ·)
  have hcons : ∀ p ps, runOperands .byDepth env (p :: ps) = do
      return (← first p) ++ (← runOperands .byDepth env ps) := by
    rintro ⟨label, term⟩ ps
    simp only [first, runOperands_cons, bind_assoc, pure_bind]
  apply run_append_congr (runOperands .byDepth env) rfl hcons hbefore
  simp only [first, Build.bind_apply, h]

end Program

/-- A term that runs another one has it in a hole, runs it at its own count, and depends on it by what
it gives there only. Spread nodes are no argument, so that they are not compared with one. -/
theorem Starts.exists_context {env env' : Env} {outer term : Program} {c n c' : Nat}
    (h : Starts (.term env outer) c n (.term env' term) c') :
    env' = env ∧ c' = c ∧ ∃ context : Program.Context, outer = context.fill term ∧
      ∀ other : Program, (∀ name, term ≠ .spread name) → (∀ name, other ≠ .spread name) →
        other.run .byDepth env c' = term.run .byDepth env c' →
        (context.fill other).run .byDepth env c = outer.run .byDepth env c := by
  have hcount := h.count_eq
  have helements : ∀ other : Program, (∀ name, term ≠ .spread name) →
      (∀ name, other ≠ .spread name) →
      other.run .byDepth env c' = term.run .byDepth env c' →
      other.runElements .byDepth env c' = term.runElements .byDepth env c' := by
    intro other hterm hother hrun
    rw [Program.runElements_of_ne _ _ hterm, Program.runElements_of_ne _ _ hother,
      Build.bind_apply, Build.bind_apply, hrun]
  cases h with
  | item hbefore =>
    refine ⟨rfl, hcount, .item _ _, rfl, fun other hterm hother hrun => ?_⟩
    have hitems := Program.runItems_congr hbefore (helements other hterm hother hrun).symm
    simp only [Program.Context.fill, Program.run, Build.bind_apply, hitems]
  | field hbefore =>
    refine ⟨rfl, hcount, .field _ _ _, rfl, fun other _ _ hrun => ?_⟩
    have hfields := Program.runFields_congr hbefore hrun.symm
    simp only [Program.Context.fill, Program.run, Build.bind_apply, hfields]
  | key hbefore =>
    refine ⟨rfl, hcount, .key _ _ _, rfl, fun other _ _ hrun => ?_⟩
    have hfields := Program.runFields_congr hbefore hrun.symm
    simp only [Program.Context.fill, Program.run, Build.bind_apply, hfields]
  | operand hbefore =>
    refine ⟨rfl, hcount, .operand _ _ _ _, rfl, fun other hterm hother hrun => ?_⟩
    have hoperands := Program.runOperands_congr hbefore (helements other hterm hother hrun).symm
    simp only [Program.Context.fill, Program.run, Build.bind_apply, hoperands]
  | normalize =>
    refine ⟨rfl, hcount, .normalize _, rfl, fun other _ _ hrun => ?_⟩
    simp only [Program.Context.fill, Program.run, Build.bind_apply, hrun]
  | normalizeLambda =>
    refine ⟨rfl, hcount, .normalizeLambda _, rfl, fun other _ _ hrun => ?_⟩
    simp only [Program.Context.fill, Program.run, Build.bind_apply, hrun]
  | part =>
    refine ⟨rfl, hcount, .part _, rfl, fun other _ _ hrun => ?_⟩
    simp only [Program.Context.fill, Program.run, Build.bind_apply, hrun]
  | attempt =>
    refine ⟨rfl, hcount, .attempt _, rfl, fun other _ _ hrun => ?_⟩
    simp only [Program.Context.fill, Program.run, Build.catching, hrun]
  | caught hterm =>
    refine ⟨rfl, hcount, .caught _, rfl, fun other _ _ hrun => ?_⟩
    simp only [Program.Context.fill, Program.run, Build.catching, hterm, hrun]
  | orElse =>
    refine ⟨rfl, hcount, .orElse _, rfl, fun other _ _ hrun => ?_⟩
    simp only [Program.Context.fill, Program.run, Build.replacingFailure, Build.bind_apply, hrun]
  | replaced hterm =>
    refine ⟨rfl, hcount, .replaced _, rfl, fun other _ _ hrun => ?_⟩
    simp only [Program.Context.fill, Program.run, Build.replacingFailure, Build.bind_apply, hterm,
      hrun]

/-- What a host function gives is what its body gives at the same count, with the nodes for its
parameters. -/
theorem Starts.hosted_eq {env env' : Env} {f body : Program} {es : List Expr} {c n c' : Nat}
    (h : Starts (.host env f es) c n (.term env' body) c') :
    c' = c ∧ f.hosted .byDepth env es c' = body.run .byDepth env' c' := by
  cases h with
  | function => exact ⟨rfl, rfl⟩
  | functionOf => exact ⟨rfl, rfl⟩

end QueryTree
