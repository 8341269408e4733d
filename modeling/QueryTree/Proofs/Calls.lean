import QueryTree.Proofs.Origin.Run
import QueryTree.Proofs.Placement

/-!
# Calls of host functions

A host function is called in a lambda position, or as the body of a form that declares names. It is
handed one variable for each name that is declared there, in their order, and what it gives stands
in the node under these names. A function that takes another number of nodes than there are explicit
names is refused, whatever it would do.
-/

namespace QueryTree

open QueryTree.Expr

/-! ## Bodies under names -/

namespace Expr

/-- The body stands under the names in the node: in a lambda with one name alone or a list of names,
or in a let with an entry for each name. -/
inductive Under (body : Expr) (names : List String) : Expr → Prop
  | lambda {parameters : Expr} : parameters.Lists names →
      Under body names (lambdaNode parameters body)
  | letIn {values : List (String × Expr)} : values.map Prod.fst = names →
      Under body names
        (.operation "let" (.array (values.map fun p => .binding p.1 p.2)) [("in", body)])

theorem Under.declares_eq {body e : Expr} {names : List String} (h : body.Under names e) :
    e.declares = names := by
  cases h with
  | lambda hlists =>
    have hnames : Argument.nodeNames "lambda" _ = .ok names :=
      Argument.nodeNames_ok_iff.2 hlists
    exact Argument.offered_of_nodeNames hnames
  | letIn hnames => rw [declares, binds_let, hnames]

theorem Under.subset {body e : Expr} {names : List String} (h : body.Under names e) :
    body.subterms ⊆ e.subterms := by
  intro s hs
  have hbody : ∀ name, s ∈ subtermsFields [(name, body)] := fun name =>
    mem_subtermsFields.2 ⟨(name, body), List.mem_singleton.2 rfl, hs⟩
  cases h with
  | lambda => exact List.mem_cons_of_mem _ (List.mem_append_right _ (hbody "expr"))
  | letIn => exact List.mem_cons_of_mem _ (List.mem_append_right _ (hbody "in"))

theorem lists_parameterNode (names : List String) : (parameterNode names).Lists names :=
  Argument.nodeNames_ok_iff.1 (Parallel.nodeNames_parameterNode "lambda" names)

end Expr

theorem Argument.normalizeBody_function (numbering : Numbering) (tag : String)
    (names : List String) (function : List Expr → Build Argument) :
    (Argument.function names.length function).normalizeBody numbering tag names =
      enter numbering tag function (names.map variableNode) := if_pos rfl

theorem Argument.normalizeBody_of_ne {names : List String} {n : Nat} (h : n ≠ names.length)
    (numbering : Numbering) (tag : String) (function : List Expr → Build Argument) :
    (Argument.function n function).normalizeBody numbering tag names =
      Build.fail (.lambdaArity tag names.length n) := if_neg h

/-- A lambda position calls a function with parameters once, on their variables and while they are
counted. What it gives becomes the body of the lambda that declares them. -/
theorem Argument.normalizeLambda_of_ne_zero {n : Nat} (h : n ≠ 0) (numbering : Numbering)
    (tag : String) (function : List Expr → Build Argument) (bound : Nat) :
    (Argument.function n function).normalizeLambda numbering tag bound =
      match function ((implicitNames bound n).map variableNode) (bound + n) with
      | .ok given middle =>
        match given.normalizeLambda numbering tag middle with
        | .ok body atEnd =>
          .ok (lambdaNode (parameterNode (implicitNames bound n)) body)
            (numbering.leave bound atEnd)
        | .error stop atEnd => .error stop (numbering.leave bound atEnd)
      | .error stop atEnd => .error stop (numbering.leave bound atEnd) := by
  obtain ⟨m, rfl⟩ := Nat.exists_eq_succ_of_ne_zero h
  rw [normalizeLambda_function]
  simp only [Build.binding, enter, Build.bind_apply]
  cases function ((implicitNames bound (m + 1)).map variableNode) (bound + (m + 1)) with
  | error stop atEnd => rfl
  | ok given middle =>
    cases hbody : given.normalizeLambda numbering tag middle with
    | error stop atEnd => simp only [hbody]
    | ok body atEnd =>
      simp only [hbody]
      rfl

/-- What a form that declares names makes of its body. -/
theorem Builder.build_under {b : Builder} {operands : Operands} {names : List String}
    {a : Argument} {bound : Nat}
    (h : Starts (.call b operands) bound 0 (.body b.tag names a) bound) :
    ∃ form : Expr → Expr, (∀ body : Expr, body.Under names (form body)) ∧
      b.build .byDepth operands bound =
        (do return form (← a.normalizeBody .byDepth b.tag names)) bound := by
  cases h with
  | @letIn _ _ values _ hform hvalues =>
    have htag : b.tag = "let" := Builder.tag_of_letIn hform
    refine ⟨fun body => .operation "let" (.array (values.map fun p => .binding p.1 p.2))
      [("in", body)], fun body => .letIn rfl, ?_⟩
    rw [Builder.build, hform, Form.build, Form.buildLet, hvalues, htag]
    rfl
  | @declared _ _ parameters _ _ hform hnames =>
    refine ⟨lambdaNode parameters, fun body => .lambda (Argument.bindingNames_ok_iff.1 hnames).2, ?_⟩
    rw [Builder.build, hform, Form.build, Form.buildLambda, hnames]
    rfl

/-! ## What a task gives -/

namespace Task

/-- The task is left to the client: a term or a host function runs. -/
def isClient : Task → Bool
  | .term .. | .host .. => true
  | _ => false

/-- The task, run from the count, gives the node. -/
def Gives (bound : Nat) (e : Expr) : Task → Prop
  | .term env program => ∃ atEnd, program.run .byDepth env bound = .ok (.node e) atEnd
  | .host env f es => ∃ atEnd, f.hosted .byDepth env es bound = .ok (.node e) atEnd
  | .call b operands => ∃ atEnd, b.build .byDepth operands bound = .ok e atEnd
  | .lambda tag a => ∃ atEnd, a.normalizeLambda .byDepth tag bound = .ok e atEnd
  | .body tag names a => ∃ atEnd, a.normalizeBody .byDepth tag names bound = .ok e atEnd

/-- The task calls the host function on the nodes, itself or in a task that is not left to the
client. -/
inductive Calls (env : Env) (f : Program) (es : List Expr) (bound' : Nat) : Task → Nat → Prop
  | now {task bound more} : Starts task bound more (.host env f es) bound' →
      Calls env f es bound' task bound
  | later {task bound more task' start} : Starts task bound more task' start →
      task'.isClient = false → Calls env f es bound' task' start → Calls env f es bound' task bound

end Task

theorem Operands.normalizeSlots_append (operands : Operands) (tag : String)
    (before after : List Slot) :
    operands.normalizeSlots .byDepth tag (before ++ after) = do
      return (← operands.normalizeSlots .byDepth tag before) ++
        (← operands.normalizeSlots .byDepth tag after) := by
  induction before with
  | nil => simp [normalizeSlots]
  | cons slot rest ih =>
    rw [List.cons_append, normalizeSlots, normalizeSlots]
    split
    · exact ih
    · simp [ih]

/-- A form with a lambda position has a layout and no other rule. -/
theorem Builder.build_layout {b : Builder} {position : Position} {slots : List Slot}
    (h : b.form.layout? = some (position, slots))
    (hlambda : position = .lambda ∨ ∃ slot ∈ slots, slot.position = .lambda)
    (operands : Operands) : b.build .byDepth operands =
      Form.buildOperation .byDepth b.tag operands position slots := by
  unfold Builder.build
  cases hform : b.form with
  | operation operand fields =>
    rw [hform] at h
    cases h
    rfl
  | traversal =>
    rw [hform] at h
    cases h
    rfl
  | _ =>
    rw [hform] at h
    cases h <;> simp at hlambda

theorem Task.Gives.of_layout {b : Builder} {operands : Operands} {position : Position}
    {slots : List Slot} {bound : Nat} {e : Expr} (h : (Task.call b operands).Gives bound e)
    (hlayout : b.form.layout? = some (position, slots))
    (hlambda : position = .lambda ∨ ∃ slot ∈ slots, slot.position = .lambda) :
    ∃ operand start fields atEnd,
      operands.normalizeAt .byDepth b.tag b.tag position bound = .ok operand start ∧
      operands.normalizeSlots .byDepth b.tag slots start = .ok fields atEnd ∧
      e = .operation b.tag operand fields := by
  obtain ⟨atEnd, h⟩ := h
  rw [Builder.build_layout hlayout hlambda] at h
  obtain ⟨operand, start, hoperand, h⟩ := Build.bind_eq_ok h
  obtain ⟨fields, middle, hfields, h⟩ := Build.bind_eq_ok h
  cases h
  exact ⟨operand, start, fields, _, hoperand, hfields, rfl⟩

theorem Task.Gives.of_body {b : Builder} {operands : Operands} {names : List String}
    {a : Argument} {bound : Nat} {e : Expr} (h : (Task.call b operands).Gives bound e)
    (hbody : Starts (.call b operands) bound 0 (.body b.tag names a) bound) :
    ∃ body, (Task.body b.tag names a).Gives bound body ∧ body.Under names e := by
  obtain ⟨form, hunder, hbuild⟩ := Builder.build_under hbody
  obtain ⟨atEnd, h⟩ := h
  rw [hbuild] at h
  obtain ⟨body, middle, hnode, h⟩ := Build.bind_eq_ok h
  cases h
  exact ⟨body, ⟨_, hnode⟩, hunder body⟩

theorem Build.node_of_captured {x : Build Expr} {bound atEnd : Nat} {e : Expr}
    (h : x.captured bound = .ok (.node e) atEnd) : x bound = .ok e atEnd := by
  rcases captured_ok h with ⟨e', he, hnode⟩ | ⟨error, hfailed⟩
  · cases hnode
    exact he
  · cases hfailed

/-- What the library runs for a task gives a part of the node of the task. -/
theorem Starts.gives {task task' : Task} {bound more start : Nat} {e : Expr}
    (h : Starts task bound more task' start) (hclient : task'.isClient = false)
    (he : task.Gives bound e) : ∃ e', task'.Gives start e' ∧ e'.subterms ⊆ e.subterms := by
  cases h with
  | call hoperands =>
    obtain ⟨atEnd, he⟩ := he
    obtain ⟨operands, middle, hrun, hnode⟩ := Build.bind_eq_ok he
    cases hoperands.symm.trans hrun
    exact ⟨e, ⟨_, Build.node_of_captured hnode⟩, List.Subset.refl _⟩
  | normalized hterm =>
    obtain ⟨atEnd, he⟩ := he
    obtain ⟨a, middle, hrun, hnode⟩ := Build.bind_eq_ok he
    cases hterm.symm.trans hrun
    exact ⟨e, ⟨_, Build.node_of_captured hnode⟩, List.Subset.refl _⟩
  | position hlayout =>
    obtain ⟨operand, middle, fields, atEnd, hoperand, -, rfl⟩ := he.of_layout hlayout (.inl rfl)
    refine ⟨operand, ⟨middle, hoperand⟩, fun s hs => ?_⟩
    exact List.mem_cons_of_mem _ (List.mem_append_left _ hs)
  | @slot _ _ position before slot rest _ _ _ _ _ hlayout hposition hfills hoperand hbefore =>
    have hslot : slot ∈ before ++ slot :: rest := by simp
    obtain ⟨operand, middle, fields, atEnd, hrun, hfields, rfl⟩ :=
      he.of_layout hlayout (.inr ⟨slot, hslot, hposition⟩)
    cases hoperand.symm.trans hrun
    -- The fields before the slot are filled first, as the task says.
    rw [Operands.normalizeSlots_append] at hfields
    obtain ⟨front, _, hfront, hfields⟩ := Build.bind_eq_ok hfields
    cases hbefore.symm.trans hfront
    obtain ⟨back, _, hback, hfields⟩ := Build.bind_eq_ok hfields
    rw [Operands.normalizeSlots, if_neg (Bool.eq_false_iff.1 hfills), hposition] at hback
    obtain ⟨e', _, hnode, hback⟩ := Build.bind_eq_ok hback
    obtain ⟨others, _, -, hback⟩ := Build.bind_eq_ok hback
    cases hback
    cases hfields
    refine ⟨e', ⟨_, hnode⟩, fun s hs => ?_⟩
    refine List.mem_cons_of_mem _ (List.mem_append_right _ (mem_subtermsFields.2 ?_))
    exact ⟨(slot.name, e'), by simp, hs⟩
  | letIn hform hvalues =>
    obtain ⟨body, hbody, hunder⟩ := he.of_body (.letIn hform hvalues)
    exact ⟨body, hbody, hunder.subset⟩
  | declared hform hnames =>
    obtain ⟨body, hbody, hunder⟩ := he.of_body (.declared hform hnames)
    exact ⟨body, hbody, hunder.subset⟩
  | result harity hgiven =>
    obtain ⟨atEnd, he⟩ := he
    obtain ⟨-, given, _, body, middle, hrun, hbody, rfl⟩ := reified_ok he
    cases hgiven.symm.trans hrun
    exact ⟨body, ⟨middle, hbody⟩, (Under.lambda (lists_parameterNode _)).subset⟩
  | appliedResult harity hgiven =>
    obtain ⟨atEnd, he⟩ := he
    rw [Program.given, Argument.normalizeBody_function] at he
    obtain ⟨given, _, hrun, hbody⟩ := Build.bind_eq_ok he
    cases hgiven.symm.trans hrun
    exact ⟨e, ⟨_, hbody⟩, List.Subset.refl _⟩
  | _ => cases hclient

/-! ## The nodes that are handed -/

/-- In the node stands, under the names, what the function term gives when it is called on the
nodes. -/
def Expr.Frames (names : List String) (env : Env) (f : Program) (es : List Expr) (bound : Nat)
    (e : Expr) : Prop :=
  ∃ s ∈ e.subterms, s.declares = names ∧ ∃ tag body atEnd, body.Under names s ∧
    Argument.enter .byDepth tag (f.hosted .byDepth env) es bound = .ok body atEnd

section

variable {env : Env} {f : Program} {es : List Expr} {bound bound' : Nat} {e : Expr}

theorem Expr.Frames.mono {names : List String} {e' : Expr}
    (h : e.Frames names env f es bound) (hsubset : e.subterms ⊆ e'.subterms) :
    e'.Frames names env f es bound := by
  obtain ⟨s, hs, hframe⟩ := h
  exact ⟨s, hsubset hs, hframe⟩

theorem Expr.Frames.of_under {names : List String} {tag : String} {body : Expr} {atEnd : Nat}
    (h : body.Under names e)
    (hbody : Argument.enter .byDepth tag (f.hosted .byDepth env) es bound = .ok body atEnd) :
    e.Frames names env f es bound :=
  ⟨e, mem_subterms_self e, h.declares_eq, tag, body, atEnd, h, hbody⟩

theorem frames_reified {tag : String} {n : Nat}
    (h : (Task.lambda tag (f.given env n)).Gives bound e) :
    e.Frames (implicitNames bound n) env f ((implicitNames bound n).map variableNode)
      (bound + n) := by
  obtain ⟨atEnd, h⟩ := h
  obtain ⟨-, given, start, body, middle, hgiven, hbody, rfl⟩ := reified_ok h
  have henter : Argument.enter .byDepth tag (f.hosted .byDepth env)
      ((implicitNames bound n).map variableNode) (bound + n) = .ok body middle := by
    rw [Argument.enter, Build.bind_apply, hgiven]
    exact hbody
  exact .of_under (.lambda (lists_parameterNode _)) henter

/-- A body under names is run for a call that declares them, at its count. -/
theorem Starts.exists_call {task : Task} {more start : Nat} {tag : String} {names : List String}
    {a : Argument} (h : Starts task bound more (.body tag names a) start) :
    ∃ b operands, task = .call b operands ∧ tag = b.tag ∧ start = bound ∧
      Starts (.call b operands) bound 0 (.body b.tag names a) bound := by
  cases h with
  | letIn hform hvalues => exact ⟨_, _, rfl, rfl, rfl, .letIn hform hvalues⟩
  | declared hform hnames => exact ⟨_, _, rfl, rfl, rfl, .declared hform hnames⟩

theorem frames_declared {b : Builder} {operands : Operands} {names : List String}
    (hbody : Starts (.call b operands) bound 0 (.body b.tag names (f.given env names.length)) bound)
    (h : (Task.call b operands).Gives bound e) :
    e.Frames names env f (names.map variableNode) bound := by
  obtain ⟨body, ⟨atEnd, hnode⟩, hunder⟩ := h.of_body hbody
  rw [Program.given, Argument.normalizeBody_function] at hnode
  exact .of_under hunder hnode

/-- A task that calls a function hands it a variable for each name, and what the function gives
stands under these names in the node of the task. Only a body does not declare its names itself. -/
theorem Task.Calls.handed {task : Task} (h : task.Calls env f es bound' bound) :
    ∃ names, f.arity? = some names.length ∧ es = names.map variableNode ∧
      ((∃ tag, task = .body tag names (f.given env names.length) ∧ bound' = bound) ∨
        ∀ e, task.Gives bound e → e.Frames names env f es bound') := by
  induction h with
  | now hstarts =>
    cases hstarts with
    | @reified _ _ n tag _ harity =>
      refine ⟨implicitNames _ (n + 1), ?_, rfl, .inr fun e => frames_reified⟩
      rw [length_implicitNames, harity]
    | @applied _ _ names tag _ harity => exact ⟨names, harity, rfl, .inl ⟨tag, rfl, rfl⟩⟩
  | later hstarts hclient _ ih =>
    obtain ⟨names, harity, rfl, ⟨tag, rfl, rfl⟩ | hframes⟩ := ih
    · obtain ⟨b, operands, rfl, rfl, rfl, hbody⟩ := hstarts.exists_call
      exact ⟨names, harity, rfl, .inr fun e => frames_declared hbody⟩
    · refine ⟨names, harity, rfl, .inr fun e he => ?_⟩
      obtain ⟨e', he', hsubset⟩ := hstarts.gives hclient he
      exact (hframes e' he').mono hsubset

/-- So a term hands a variable for each name, and declares these names in its node. -/
theorem Task.Calls.handed_by_term {env₁ : Env} {caller : Program}
    (h : (Task.term env₁ caller).Calls env f es bound' bound) :
    ∃ names, f.arity? = some names.length ∧ es = names.map variableNode ∧
      ∀ e atEnd, caller.run .byDepth env₁ bound = .ok (.node e) atEnd →
        e.Frames names env f es bound' := by
  obtain ⟨names, harity, hes, ⟨tag, hbody, -⟩ | hframes⟩ := h.handed
  · cases hbody
  · exact ⟨names, harity, hes, fun e atEnd he => hframes e ⟨atEnd, he⟩⟩

/-- If a task that is run for a term makes a call, some term makes it. -/
theorem Reaches.exists_caller {env₀ : Env} {term : Program} {task : Task} {more start : Nat}
    (h : Reaches (.term env₀ term) bound more task start)
    (hcalls : task.Calls env f es bound' start) :
    ∃ env₁ caller first n, Reaches (.term env₀ term) bound n (.term env₁ caller) first ∧
      (Task.term env₁ caller).Calls env f es bound' first := by
  induction h with
  | here => exact ⟨env₀, term, bound, 0, .here, hcalls⟩
  | @within n _ _ m task first hreaches hstarts ih =>
    cases task with
    | term env₁ caller => exact ⟨env₁, caller, first, n + m, .within hreaches hstarts, hcalls⟩
    | host env₁ g given =>
      -- A host function runs its body, which is a term again.
      cases hcalls with
      | now hcall => cases hcall
      | later hcall hclient => cases hcall <;> cases hclient
    | call b operands => exact ih (.later hstarts rfl hcalls)
    | lambda tag a => exact ih (.later hstarts rfl hcalls)
    | body tag names a => exact ih (.later hstarts rfl hcalls)

/-- So each call of a host function is made by a term. -/
theorem Reaches.exists_term {env₀ : Env} {term : Program} {more : Nat}
    (h : Reaches (.term env₀ term) bound more (.host env f es) bound') :
    ∃ env₁ caller first n, Reaches (.term env₀ term) bound n (.term env₁ caller) first ∧
      (Task.term env₁ caller).Calls env f es bound' first := by
  cases h with
  | within hreaches hstarts => exact hreaches.exists_caller (.now hstarts)

/-- Each call of a host function hands it a variable for each name, and what the function gives stands
under these names in the node of the term that makes the call. -/
theorem Reaches.handed {env₀ : Env} {term : Program} {more : Nat}
    (h : Reaches (.term env₀ term) bound more (.host env f es) bound') :
    ∃ names, f.arity? = some names.length ∧ es = names.map variableNode ∧
      ∃ env₁ caller first n, Reaches (.term env₀ term) bound n (.term env₁ caller) first ∧
        ∀ e atEnd, caller.run .byDepth env₁ first = .ok (.node e) atEnd →
          e.Frames names env f es bound' := by
  obtain ⟨env₁, caller, first, n, hcaller, hcalls⟩ := h.exists_term
  obtain ⟨names, harity, hes, hframes⟩ := hcalls.handed_by_term
  exact ⟨names, harity, hes, env₁, caller, first, n, hcaller, hframes⟩

end

/-! ## Parameters without a node -/

namespace Env

/-- Binds parameters in order; one without a node stands for the placeholder. -/
def bindAllOr (placeholder : Expr) (env : Env) : List String → List Expr → Env
  | [], _ => env
  | name :: names, [] => bindAllOr placeholder (env.bind name placeholder) names []
  | name :: names, e :: rest => bindAllOr placeholder (env.bind name e) names rest

theorem bindAllOr_null (env : Env) (parameters : List String) (es : List Expr) :
    env.bindAllOr .null parameters es = env.bindAll parameters es := by
  induction parameters generalizing env es with
  | nil => rfl
  | cons name names ih => cases es <;> exact ih _ _

/-- Where each parameter has its node, the placeholder makes no difference. -/
theorem bindAllOr_eq {parameters : List String} {es : List Expr}
    (h : es.length = parameters.length) (placeholder : Expr) (env : Env) :
    env.bindAllOr placeholder parameters es = env.bindAll parameters es := by
  induction parameters generalizing env es with
  | nil => rfl
  | cons name names ih =>
    cases es with
    | nil => cases h
    | cons e rest => exact ih (Nat.succ.inj h) _

end Env

/-! ## Every call -/

/-- Each call of a host function in a run is made for a term, and hands the function one variable for
each of its parameters, so that none is left to a placeholder. If the term gives a node, the names
of these variables are declared in it, in the same order, around what the function gives. Whatever
the function does, it is called once in a lambda position, on variables with the next numbers, and
once as the body of a form that declares as many names as it has parameters. With another number of
names the form fails with both numbers, and nothing is run for the body. -/
theorem called_on_declared_names :
    (∀ (env : Env) (term : Program) (bound more : Nat) (env' : Env) (f : Program)
        (es : List Expr) (bound' : Nat),
      Reaches (.term env term) bound more (.host env' f es) bound' →
      ∃ env₁ caller first n, Reaches (.term env term) bound n (.term env₁ caller) first ∧
        (Task.term env₁ caller).Calls env' f es bound' first) ∧
    (∀ (env : Env) (caller : Program) (bound : Nat) (env' : Env) (f : Program)
        (es : List Expr) (bound' : Nat),
      (Task.term env caller).Calls env' f es bound' bound →
      ∃ names, f.arity? = some names.length ∧ es = names.map variableNode ∧
        (∀ parameters body, f = .function parameters body → ∀ placeholder,
          env'.bindAllOr placeholder parameters es = env'.bindAll parameters es) ∧
        ∀ e atEnd, caller.run .byDepth env bound = .ok (.node e) atEnd →
          e.Frames names env' f es bound') ∧
    (∀ (tag : String) (n : Nat) (function : List Expr → Build Argument) (bound : Nat), n ≠ 0 →
      (implicitNames bound n).length = n ∧
      ∃ form : Expr → Expr, (∀ body : Expr, body.Under (implicitNames bound n) (form body)) ∧
        (Argument.function n function).normalizeLambda .byDepth tag bound =
          Build.binding .byDepth n (fun _ => do
            return form (← Argument.enter .byDepth tag function
              ((implicitNames bound n).map variableNode))) bound) ∧
    ∀ (b : Builder) (operands : Operands) (names : List String) (n : Nat)
        (function : List Expr → Build Argument) (bound : Nat),
      Starts (.call b operands) bound 0 (.body b.tag names (.function n function)) bound →
      (n = names.length →
        ∃ form : Expr → Expr, (∀ body : Expr, body.Under names (form body)) ∧
          b.build .byDepth operands bound = (do
            return form (← Argument.enter .byDepth b.tag function
              (names.map variableNode))) bound) ∧
      (n ≠ names.length →
        b.build .byDepth operands bound =
          .error (.failed (.lambdaArity b.tag names.length n)) bound ∧
        ∀ more task start,
          ¬Starts (.body b.tag names (.function n function)) bound more task start) := by
  refine ⟨?_, ?_, ?_, ?_⟩
  · intro env term bound more env' f es bound' hreaches
    exact hreaches.exists_term
  · intro env caller bound env' f es bound' hcalls
    obtain ⟨names, harity, hes, hframes⟩ := hcalls.handed_by_term
    refine ⟨names, harity, hes, ?_, hframes⟩
    rintro parameters body rfl placeholder
    have hlength : es.length = parameters.length := by
      rw [hes, List.length_map]
      exact (Option.some.inj harity).symm
    exact Env.bindAllOr_eq hlength placeholder env'
  · intro tag n function bound hn
    obtain ⟨m, rfl⟩ := Nat.exists_eq_succ_of_ne_zero hn
    refine ⟨length_implicitNames bound _, lambdaNode (parameterNode (implicitNames bound (m + 1))),
      fun body => .lambda (lists_parameterNode _), ?_⟩
    rw [Argument.normalizeLambda_function]
    rfl
  · intro b operands names n function bound hstarts
    obtain ⟨form, hunder, hbuild⟩ := Builder.build_under hstarts
    constructor
    · rintro rfl
      refine ⟨form, hunder, ?_⟩
      rw [hbuild, Argument.normalizeBody_function]
    · intro hn
      constructor
      · rw [hbuild, Argument.normalizeBody_of_ne hn]
        rfl
      · intro more task start hbody
        cases hbody <;> exact hn rfl

/-- A lambda whose function gives another one; and a let whose function takes both of its names, or
only one, and would throw. -/
theorem called_on_declared_names_curried :
    let inner : Program := .function ["z"] (.list [.get "x", .get "z"])
    let f : Program := .function ["x", "y"] inner
    let pair : Program := .list [.literal (.string "a"), .literal (.string "b")]
    let term : Program := .call explicitLambda [(.field "lambda", pair), (.field "expr", f)]
    let env : Env := Env.bindAll [] ["x", "y"] [variableNode "a", variableNode "b"]
    let es : List Expr := [variableNode (implicitName 0)]
    let e : Expr := lambdaNode (.array [.string "a", .string "b"])
      (lambdaNode (.string (implicitName 0))
        (.array [variableNode "a", variableNode (implicitName 0)]))
    let giving : List Expr → Build Argument := fun es bound => .ok (.array (es.map .node)) bound
    let throwing : List Expr → Build Argument := fun _ bound => .error (.thrown "called") bound
    let operands : Argument → Operands := fun body =>
      [(.entry "a", .null), (.entry "b", .null), (.field "in", body)]
    Reaches (.term [] term) 0 1 (.host env inner es) 1 ∧
      (Task.term [] term).Calls env inner es 1 0 ∧
      (∃ env₁ caller first n, Reaches (.term [] term) 0 n (.term env₁ caller) first ∧
        (Task.term env₁ caller).Calls env inner es 1 first) ∧
      term.run .byDepth [] 0 = .ok (.node e) 0 ∧
      (∃ names, inner.arity? = some names.length ∧ es = names.map variableNode ∧
        (∀ placeholder, env.bindAllOr placeholder ["z"] es = env.bindAll ["z"] es) ∧
        e.Frames names env inner es 1) ∧
      (∃ form : Expr → Expr, (∀ body : Expr, body.Under (implicitNames 5 2) (form body)) ∧
        (Argument.function 2 giving).normalizeLambda .byDepth "map" 5 =
          .ok (form (.array ((implicitNames 5 2).map variableNode))) 5) ∧
      (∃ form : Expr → Expr, (∀ body : Expr, body.Under ["a", "b"] (form body)) ∧
        letBuilder.build .byDepth (operands (.function 2 giving)) 5 =
          .ok (form (.array [variableNode "a", variableNode "b"])) 5) ∧
      letBuilder.build .byDepth (operands (.function 1 throwing)) 5 =
        .error (.failed (.lambdaArity "let" 2 1)) 5 := by
  intro inner f pair term env es e giving throwing operands
  obtain ⟨hmade, hhanded, hreified, hdeclared⟩ := called_on_declared_names
  let given : Operands :=
    [(.field "lambda", .array [.literal (.string "a"), .literal (.string "b")]),
      (.field "expr", f.given [] 2)]
  have hcall : Starts (.term [] term) 0 0 (.call explicitLambda given) 0 := .call rfl
  have hbody : Starts (.call explicitLambda given) 0 0
      (.body "lambda" ["a", "b"] (f.given [] 2)) 0 :=
    @Starts.declared explicitLambda given _ _ 0 rfl rfl
  have hgiven : Starts (.body "lambda" ["a", "b"] (f.given [] 2)) 0 0
      (.lambda "lambda" (inner.given env 1)) 0 := .appliedResult rfl rfl
  have hhost : Starts (.lambda "lambda" (inner.given env 1)) 0 1 (.host env inner es) 1 :=
    .reified rfl
  have hreaches : Reaches (.term [] term) 0 1 (.host env inner es) 1 :=
    (((Reaches.here.within hcall).within hbody).within hgiven).within hhost
  have hcalls : (Task.term [] term).Calls env inner es 1 0 :=
    .later hcall rfl (.later hbody rfl (.later hgiven rfl (.now hhost)))
  have hlet : ∀ n function, Starts (.call letBuilder (operands (.function n function))) 5 0
      (.body "let" ["a", "b"] (.function n function)) 5 := fun n function =>
    @Starts.letIn letBuilder (operands (.function n function)) [("a", .null), ("b", .null)] 5 rfl rfl
  obtain ⟨names, harity, hes, hplaceholder, hframes⟩ := hhanded [] term 0 env inner es 1 hcalls
  obtain ⟨-, lambdaForm, hunder, hnode⟩ := hreified "map" 2 giving 5 (by decide)
  obtain ⟨hequal, -⟩ := hdeclared letBuilder _ ["a", "b"] 2 giving 5 (hlet 2 giving)
  obtain ⟨-, hother⟩ := hdeclared letBuilder _ ["a", "b"] 1 throwing 5 (hlet 1 throwing)
  obtain ⟨letForm, hunder', hnode'⟩ := hequal rfl
  refine ⟨hreaches, hcalls, hmade _ _ _ _ _ _ _ _ hreaches, rfl, ?_, ?_, ?_, ?_⟩
  · exact ⟨names, harity, hes, hplaceholder ["z"] _ rfl, hframes e 0 rfl⟩
  · exact ⟨lambdaForm, hunder, hnode⟩
  · exact ⟨letForm, hunder', hnode'⟩
  · exact (hother (by decide)).1

end QueryTree
