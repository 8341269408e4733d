import QueryTree.Proofs.Parallel.Run

/-!
# The count of bound variables

A term ends at the count at which it starts, however it ends. So does all that runs within it, and
starts at this count too, but for the body of a function that becomes a lambda: there the parameters
are counted.
-/

namespace QueryTree

/-! ## Runs with the same nodes -/

section

variable {ι : Type}

/-- Runs that start at one count and give the same nodes. -/
def equals (ι : Type) : ByDepth ι where
  apart _ := 0
  Named _ := True
  Node e := ∀ i j, e i = e j
  string_eq h i j := by rw [h i j]
  names_eq h tag i j := by rw [h i j]
  node_literal _ _ _ := rfl
  node_array _ h i j := congrArg Expr.array (List.map_congr_left fun e he => h e he i j)
  node_object _ _ h i j := congrArg Expr.object
    (List.map_congr_left fun p hp => congrArg (Prod.mk p.1) (h p hp i j))
  node_leaf _ _ _ _ := rfl
  node_operation := by
    intro entry form position slots operand fields _ _ _ hfits hfilled i j
    have harray : ∀ es : List (ι → Expr), (∀ e ∈ es, ∀ i j, e i = e j) →
        ∀ i j, Expr.array (es.map (· i)) = .array (es.map (· j)) :=
      fun es h i j => congrArg Expr.array (List.map_congr_left fun e he => h e he i j)
    have hfields : (fields.map fun p => (p.1, p.2 i)) = fields.map fun p => (p.1, p.2 j) :=
      List.map_congr_left fun p hp => congrArg (Prod.mk p.1) (hfilled.node harray p hp i j)
    exact congrArg₂ (Expr.operation entry.tag) (hfits.node harray i j) hfields
  node_let values _ _ h hbody i j := by
    have hvalues : (values.map fun p => Expr.binding p.1 (p.2 i)) =
        values.map fun p => .binding p.1 (p.2 j) :=
      List.map_congr_left fun p hp => congrArg (Expr.binding p.1) (h p hp i j)
    exact congrArg₂ (fun values body => Expr.operation "let" (.array values) [("in", body)])
      hvalues (hbody i j)
  node_lambda hparameters _ _ hbody i j := congrArg₂ lambdaNode (hparameters i j) (hbody i j)
  node_variable _ _ _ := rfl
  node_reified _ _ _ hbody i j := congrArg (lambdaNode _) (hbody i j)

theorem accessible_equals [Nonempty ι] : (equals ι).parallel.Accessible := by
  intro w e step he
  obtain ⟨i₀⟩ := ‹Nonempty ι›
  cases hfound : (e i₀).step? step with
  | none => exact .inl fun i => by rw [he i i₀, hfound]
  | some found => exact .inr ⟨fun _ => found, fun _ _ => rfl, fun i => by rw [he i i₀, hfound]⟩

end

/-! ## Balanced builds -/

namespace Build

variable {α β : Type}

/-- The count at which a build ends. -/
def endCount : EStateM.Result Stop Nat α → Nat
  | .ok _ atEnd => atEnd
  | .error _ atEnd => atEnd

/-- The build ends at the count at which it starts, also where it fails or throws. -/
def Balanced (x : Build α) : Prop := ∀ bound, endCount (x bound) = bound

theorem Balanced.of_ok {x : Build α} (h : x.Balanced) {bound atEnd : Nat} {a : α}
    (hok : x bound = .ok a atEnd) : atEnd = bound := by
  have hend := h bound
  rw [hok] at hend
  exact hend

theorem Balanced.of_error {x : Build α} (h : x.Balanced) {bound atEnd : Nat} {stop : Stop}
    (herror : x bound = .error stop atEnd) : atEnd = bound := by
  have hend := h bound
  rw [herror] at hend
  exact hend

theorem balanced_pure (a : α) : Balanced (pure a) := fun _ => rfl

theorem balanced_ofExcept (x : Except BuildError α) : (ofExcept x).Balanced := by
  intro bound
  cases x <;> rfl

theorem balanced_bind {x : Build α} {f : α → Build β} (hx : x.Balanced)
    (hf : ∀ a, (f a).Balanced) : (x >>= f).Balanced := by
  intro bound
  rw [bind_apply]
  cases hrun : x bound with
  | ok a atEnd => rw [hf a atEnd, hx.of_ok hrun]
  | error stop atEnd => exact hx.of_error hrun

/-- A scope is left at the count before it, whatever its part does to the count. -/
theorem balanced_binding (count : Nat) (part : Nat → Build α) :
    (binding .byDepth count part).Balanced := by
  intro bound
  simp only [binding]
  cases part bound (bound + count) <;> rfl

end Build

open Build

theorem Argument.balanced_normalizeLambda (tag : String) (a : Argument) :
    (a.normalizeLambda .byDepth tag).Balanced := by
  cases a with
  | function arity body =>
    cases arity with
    | zero => exact fun _ => rfl
    | succ n =>
      rw [normalizeLambda_function .byDepth tag n body]
      exact balanced_binding _ _
  | _ =>
    simp only [normalizeLambda]
    exact balanced_ofExcept _

theorem Operands.balanced_normalizeAt (operands : Operands) (tag name : String)
    (position : Position) : (operands.normalizeAt .byDepth tag name position).Balanced := by
  cases position with
  | lambda => exact Argument.balanced_normalizeLambda tag _
  | value => exact balanced_ofExcept _
  | items least => exact balanced_ofExcept _

theorem Operands.balanced_normalizeSlots (operands : Operands) (tag : String)
    (slots : List Slot) : (operands.normalizeSlots .byDepth tag slots).Balanced := by
  induction slots with
  | nil => exact balanced_pure _
  | cons slot rest ih =>
    rw [normalizeSlots]
    split
    · exact ih
    · apply balanced_bind (operands.balanced_normalizeAt tag slot.name slot.position)
      intro e
      exact balanced_bind ih fun fields => balanced_pure _

namespace Program

variable (env : Env)

/-- However it ends, a single run ends at the count of a later world. -/
theorem exists_endCount {P : Parallel Unit} (haccessible : P.Accessible) {w : P.World}
    (henv : P.Envs .free w fun _ => env) (term : Program) :
    ∃ w', P.Later w w' ∧
      endCount (term.run (P.numbering ()) env (P.count w ())) = P.count w' () := by
  obtain ⟨w', hlater, ⟨a, -, hok⟩ | ⟨stop, hstop⟩⟩ := Parallel.ends_uses
    (fun _ => haccessible) term henv (uses_of_free term (fun _ => trivial) fun _ => trivial)
  · exact ⟨w', hlater, congrArg endCount (hok ())⟩
  · exact ⟨w', hlater, congrArg endCount (hstop ())⟩

/-- A term ends at the count at which it starts. -/
theorem balanced_run (term : Program) : (term.run .byDepth env).Balanced := by
  intro bound
  have henv : (equals Unit).parallel.Envs .free bound fun _ => env :=
    .of_captured (fun _ _ => trivial) (fun _ _ _ _ => trivial) fun _ _ _ _ _ _ => rfl
  obtain ⟨_, rfl, hend⟩ := exists_endCount env accessible_equals henv term
  exact hend

theorem balanced_runElements (term : Program) : (term.runElements .byDepth env).Balanced := by
  cases term with
  | spread name => exact balanced_pure _
  | _ => exact balanced_bind (balanced_run env _) fun _ => balanced_pure _

theorem balanced_runItems (items : List Program) : (runItems .byDepth env items).Balanced := by
  induction items with
  | nil => exact balanced_pure _
  | cons term rest ih =>
    rw [runItems_cons]
    apply balanced_bind (balanced_runElements env term)
    exact fun _ => balanced_bind ih fun _ => balanced_pure _

theorem balanced_runFields (fields : List (String × Program)) :
    (runFields .byDepth env fields).Balanced := by
  induction fields with
  | nil => exact balanced_pure _
  | cons field rest ih =>
    rw [runFields]
    apply balanced_bind (balanced_run env field.2)
    exact fun _ => balanced_bind ih fun _ => balanced_pure _

theorem balanced_runOperands (operands : List (Label × Program)) :
    (runOperands .byDepth env operands).Balanced := by
  induction operands with
  | nil => exact balanced_pure _
  | cons operand rest ih =>
    rw [runOperands_cons]
    apply balanced_bind (balanced_runElements env operand.2)
    exact fun _ => balanced_bind ih fun _ => balanced_pure _

theorem balanced_build (term : Program) : (term.build .byDepth env).Balanced :=
  balanced_bind (balanced_run env term) fun _ => balanced_ofExcept _

theorem balanced_hosted (f : Program) (es : List Expr) : (f.hosted .byDepth env es).Balanced := by
  cases f with
  | function parameters body => exact balanced_run _ body
  | functionOf arity name body => exact balanced_run _ body
  | _ => exact balanced_pure _

end Program

/-! ## What runs within a run -/

/-- A part of a run: a term in an environment, a call of a host function, a builder with its
operands, an argument in a lambda position, or one under declared names. -/
inductive Task where
  | term (env : Env) (term : Program)
  | host (env : Env) (f : Program) (es : List Expr)
  | call (b : Builder) (operands : Operands)
  | lambda (tag : String) (a : Argument)
  | body (tag : String) (names : List String) (a : Argument)

/-- The argument that a function term gives. -/
def Program.given (env : Env) (f : Program) (n : Nat) : Argument :=
  .function n (f.hosted .byDepth env)

/-- The first task, run from a count, comes to run the second one, with so many more variables
bound, from a count. -/
inductive Starts : Task → Nat → Nat → Task → Nat → Prop
  | item {env before term rest c as c'} : Program.runItems .byDepth env before c = .ok as c' →
      Starts (.term env (.list (before ++ term :: rest))) c 0 (.term env term) c'
  | field {env before name term rest c as c'} :
      Program.runFields .byDepth env before c = .ok as c' →
      Starts (.term env (.object (before ++ (name, term) :: rest))) c 0 (.term env term) c'
  | key {env before name term rest c as c'} :
      Program.runFields .byDepth env before c = .ok as c' →
      Starts (.term env (.keyed (before ++ (name, term) :: rest))) c 0 (.term env term) c'
  | operand {env b before label term rest c as c'} :
      Program.runOperands .byDepth env before c = .ok as c' →
      Starts (.term env (.call b (before ++ (label, term) :: rest))) c 0 (.term env term) c'
  | call {env b terms c operands c'} :
      Program.runOperands .byDepth env terms c = .ok operands c' →
      Starts (.term env (.call b terms)) c 0 (.call b operands) c'
  | normalize {env term tag c} : Starts (.term env (.normalize term tag)) c 0 (.term env term) c
  | normalizeLambda {env term tag c} :
      Starts (.term env (.normalizeLambda term tag)) c 0 (.term env term) c
  | normalized {env term tag c a c'} : term.run .byDepth env c = .ok a c' →
      Starts (.term env (.normalizeLambda term tag)) c 0 (.lambda tag a) c'
  | part {env term path c} : Starts (.term env (.part term path)) c 0 (.term env term) c
  | attempt {env term fallback c} :
      Starts (.term env (.attempt term fallback)) c 0 (.term env term) c
  | caught {env term fallback c message c'} :
      term.run .byDepth env c = .error (.thrown message) c' →
      Starts (.term env (.attempt term fallback)) c 0 (.term env fallback) c'
  | orElse {env term fallback c} :
      Starts (.term env (.orElse term fallback)) c 0 (.term env term) c
  | replaced {env term fallback c error c'} : term.run .byDepth env c = .ok (.failed error) c' →
      Starts (.term env (.orElse term fallback)) c 0 (.term env fallback) c'
  | function {env parameters body es c} :
      Starts (.host env (.function parameters body) es) c 0
        (.term (env.bindAll parameters es) body) c
  | functionOf {env arity name body es c} :
      Starts (.host env (.functionOf arity name body) es) c 0
        (.term (env.bindNumbered name es) body) c
  | position {b operands slots c} : b.form.layout? = some (.lambda, slots) →
      Starts (.call b operands) c 0 (.lambda b.tag (operands.field b.tag)) c
  | slot {b operands position before slot rest c e c' fields c''} :
      b.form.layout? = some (position, before ++ slot :: rest) → slot.position = .lambda →
      (slot.optional && !operands.fills slot) = false →
      operands.normalizeAt .byDepth b.tag b.tag position c = .ok e c' →
      operands.normalizeSlots .byDepth b.tag before c' = .ok fields c'' →
      Starts (.call b operands) c 0 (.lambda b.tag (operands.field slot.name)) c''
  | letIn {b operands values c} : b.form = .letIn →
      Argument.normalizeFields b.tag operands.entries = .ok values →
      Starts (.call b operands) c 0 (.body b.tag (values.map Prod.fst) (operands.field "in")) c
  | declared {b operands parameters names c} : b.form = .lambda →
      (operands.field b.tag).bindingNames b.tag = .ok (parameters, names) →
      Starts (.call b operands) c 0 (.body b.tag names (operands.field "expr")) c
  | reified {env} {f : Program} {n tag c} : f.arity? = some (n + 1) →
      Starts (.lambda tag (f.given env (n + 1))) c (n + 1)
        (.host env f ((implicitNames c (n + 1)).map variableNode)) (c + (n + 1))
  | result {env} {f : Program} {n tag c a c'} : f.arity? = some (n + 1) →
      f.hosted .byDepth env ((implicitNames c (n + 1)).map variableNode) (c + (n + 1)) =
        .ok a c' →
      Starts (.lambda tag (f.given env (n + 1))) c (n + 1) (.lambda tag a) c'
  | applied {env} {f : Program} {names tag c} : f.arity? = some names.length →
      Starts (.body tag names (f.given env names.length)) c 0
        (.host env f (names.map variableNode)) c
  | appliedResult {env} {f : Program} {names tag c a c'} : f.arity? = some names.length →
      f.hosted .byDepth env (names.map variableNode) c = .ok a c' →
      Starts (.body tag names (f.given env names.length)) c 0 (.lambda tag a) c'

/-- The first task, run from a count, comes at some time to run the second one. -/
inductive Reaches : Task → Nat → Nat → Task → Nat → Prop
  | here {task c} : Reaches task c 0 task c
  | within {task c n task' c' m task'' c''} : Reaches task c n task' c' →
      Starts task' c' m task'' c'' → Reaches task c (n + m) task'' c''

/-- The body of a function that becomes a lambda runs with its parameters counted. -/
theorem Reaches.body {f : Program} {n : Nat} (h : f.arity? = some (n + 1)) (env : Env)
    (bound : Nat) : Reaches (.term env (.lambdaOf f)) bound (n + 1)
      (.host env f ((implicitNames bound (n + 1)).map variableNode)) (bound + (n + 1)) := by
  have hgiven : f.run .byDepth env bound = .ok (f.given env (n + 1)) bound := by
    rw [Program.run_function h]
    rfl
  have hlambda : Reaches (.term env (.lambdaOf f)) bound 0
      (.lambda "lambda" (f.given env (n + 1))) bound := .within .here (.normalized hgiven)
  simpa using hlambda.within (.reified h)

/-- A task starts at the count of the task around it and the variables that are bound for it. -/
theorem Starts.count_eq {task task' : Task} {c n c' : Nat} (h : Starts task c n task' c') :
    c' = c + n := by
  cases h with
  | item hbefore => exact (Program.balanced_runItems _ _).of_ok hbefore
  | field hbefore => exact (Program.balanced_runFields _ _).of_ok hbefore
  | key hbefore => exact (Program.balanced_runFields _ _).of_ok hbefore
  | operand hbefore => exact (Program.balanced_runOperands _ _).of_ok hbefore
  | call hoperands => exact (Program.balanced_runOperands _ _).of_ok hoperands
  | normalized hterm => exact (Program.balanced_run _ _).of_ok hterm
  | caught hterm => exact (Program.balanced_run _ _).of_error hterm
  | replaced hterm => exact (Program.balanced_run _ _).of_ok hterm
  | slot _ _ _ hoperand hslots =>
    have hatSlots := (Operands.balanced_normalizeSlots _ _ _).of_ok hslots
    exact hatSlots.trans ((Operands.balanced_normalizeAt _ _ _ _).of_ok hoperand)
  | result _ hbody => exact (Program.balanced_hosted _ _ _).of_ok hbody
  | appliedResult _ hbody => exact (Program.balanced_hosted _ _ _).of_ok hbody
  | _ => rfl

/-- So all that a task comes to run starts at its count and the variables bound in between. -/
theorem Reaches.count_eq {task task' : Task} {c n c' : Nat} (h : Reaches task c n task' c') :
    c' = c + n := by
  induction h with
  | here => rfl
  | within _ hstarts ih => rw [hstarts.count_eq, ih, Nat.add_assoc]

end QueryTree
