import QueryTree.Proofs.Calls
import QueryTree.Proofs.Contexts
import QueryTree.Session

/-!
# The history of a session

The count of bound variables depends on what is bound around a term, not on what was built before.
So an answer depends on the request and on the nodes that the names in it stand for. Earlier requests
matter only by the nodes that they bind to these names, or to names from which such nodes were
built.
-/

namespace QueryTree

/-- Any name may be declared, and some may be read. -/
def Usage.reading (names : String → Prop) : Usage := ⟨fun _ => True, names, fun _ => True⟩

namespace Request

/-- The terms of the request read such names only. -/
def Reads (names : String → Prop) : Request → Prop
  | .build term _ => term.Uses True (.reading names)
  | .evaluate term => term.Uses True (.reading names)
  | .compare left right => left.Uses True (.reading names) ∧ right.Uses True (.reading names)

/-- The request binds the name, if it succeeds. -/
def Binds (x : String) : Request → Prop
  | .build _ name => name = some x
  | _ => False

end Request

/-- What a client sees of an argument. -/
def Argument.view (a : Argument) : String × Option Literal × Option Nat :=
  (a.typeName, a.literal?, a.arity?)

/-- A client sees the same. -/
def Answer.Same : Answer → Answer → Prop
  | .built result, .built result' => result = result'
  | .evaluated result, .evaluated result' => result.map Argument.view = result'.map Argument.view
  | .compared result, .compared result' => result = result'
  | _, _ => False

/-! ## Runs in environments that agree -/

/-- The environments agree on the names. -/
def Env.Agree (names : String → Prop) (env env' : Env) : Prop :=
  ∀ x, names x → env.lookup x = env'.lookup x

section

variable {names : String → Prop} {env env' : Env}

/-- Two environments, side by side. -/
def Env.both (env env' : Env) : Bool → Env
  | false => env
  | true => env'

theorem Env.Agree.envs (h : env.Agree names env') (w : Nat) :
    (equals Bool).parallel.Envs (.reading names) w (env.both env') := by
  refine ⟨fun _ _ => trivial, fun x hx => ?_, fun _ _ _ _ _ => trivial⟩
  have hboth : ∀ i, (env.both env' i).lookup x = env.lookup x := by
    intro i
    cases i with
    | false => rfl
    | true => exact (h x hx).symm
  simp only [hboth]
  cases env.lookup x with
  | none => exact .inl fun _ => rfl
  | some b =>
    refine .inr ⟨fun _ => b, ?_, fun _ => rfl⟩
    cases b with
    | node e => exact .node fun _ _ => rfl
    | nodes es =>
      have hes : ∀ e ∈ es.map fun e (_ : Bool) => e, ∀ i j, e i = e j := by
        intro e he i j
        obtain ⟨e', -, rfl⟩ := List.mem_map.1 he
        rfl
      simpa [Function.comp_def] using
        Parallel.Binds.nodes (P := (equals Bool).parallel) (w := w) _ hes

/-- A term that reads such names is built to the same node, or fails or throws alike. -/
theorem Program.build_eq_of_agree {term : Program} (h : env.Agree names env')
    (hterm : term.Uses True (.reading names)) :
    term.build .byDepth env = term.build .byDepth env' := by
  funext bound
  obtain ⟨w, rfl, ⟨e, he, hok⟩ | ⟨stop, hstop⟩⟩ :=
    Parallel.ends_build_of_uses (fun _ => accessible_equals) (h.envs bound) hterm
  · rw [show term.build .byDepth env bound = .ok (e false) bound from hok false,
      show term.build .byDepth env' bound = .ok (e true) bound from hok true, he false true]
  · rw [show term.build .byDepth env bound = .error stop bound from hstop false,
      show term.build .byDepth env' bound = .error stop bound from hstop true]

theorem view_of_related {P : Parallel Bool} {w : P.World} {a : Bool → Argument}
    (h : P.Related w a) : (a false).view = (a true).view := by
  cases h <;> rfl

/-- It is also evaluated to arguments of which a client sees the same. -/
theorem Program.run_view_of_agree {term : Program} (h : env.Agree names env')
    (hterm : term.Uses True (.reading names)) (bound : Nat) :
    (∃ a a' atEnd, a.view = a'.view ∧ term.run .byDepth env bound = .ok a atEnd ∧
      term.run .byDepth env' bound = .ok a' atEnd) ∨
    ∃ stop atEnd, term.run .byDepth env bound = .error stop atEnd ∧
      term.run .byDepth env' bound = .error stop atEnd := by
  obtain ⟨w, rfl, ⟨a, ha, hok⟩ | ⟨stop, hstop⟩⟩ :=
    Parallel.ends_uses (fun _ => accessible_equals) term (h.envs bound) hterm
  · exact .inl ⟨a false, a true, bound, view_of_related ha, hok false, hok true⟩
  · exact .inr ⟨stop, bound, hstop false, hstop true⟩

end

/-! ## Requests -/

namespace Session

variable {names : String → Prop} {s s' : Session}

section

variable {α : Type} {x : Env → Build α}

theorem perform_ok {a : α} {atEnd : Nat} (h : x s.env s.bound = .ok a atEnd) :
    s.perform x = (.ok a, ⟨s.env, atEnd⟩) := by
  unfold perform
  rw [h]

theorem perform_error {stop : Stop} {atEnd : Nat} (h : x s.env s.bound = .error stop atEnd) :
    s.perform x = (.error stop, ⟨s.env, atEnd⟩) := by
  unfold perform
  rw [h]

/-- A balanced build leaves the session as it was. -/
theorem perform_balanced (h : (x s.env).Balanced) : (s.perform x).2 = s := by
  cases hrun : x s.env s.bound with
  | ok a atEnd => rw [perform_ok hrun, h.of_ok hrun]
  | error stop atEnd => rw [perform_error hrun, h.of_error hrun]

theorem perform_fst_eq (h : x s.env s.bound = x s'.env s'.bound) :
    (s.perform x).1 = (s'.perform x).1 := by
  cases hrun : x s'.env s'.bound with
  | ok a atEnd => rw [perform_ok (h.trans hrun), perform_ok hrun]
  | error stop atEnd => rw [perform_error (h.trans hrun), perform_error hrun]

end

/-- A build binds the node to its name, and changes nothing else. -/
theorem build_ok {term : Program} {name : Option String} {e : Expr} {atEnd : Nat}
    (h : term.build .byDepth s.env s.bound = .ok e atEnd) :
    s.build term name = (.ok e, ⟨(name.map (s.env.bind · e)).getD s.env, s.bound⟩) := by
  unfold build
  rw [perform_ok (x := fun env => term.build .byDepth env) h,
    (Program.balanced_build s.env term).of_ok h]
  cases name <;> rfl

theorem build_error {term : Program} {stop : Stop} {atEnd : Nat}
    (h : term.build .byDepth s.env s.bound = .error stop atEnd) (name : Option String) :
    s.build term name = (.error stop, s) := by
  unfold build
  rw [perform_error (x := fun env => term.build .byDepth env) h,
    (Program.balanced_build s.env term).of_error h]

/-- Seeing how a build ends does not change its count. -/
theorem balanced_outcome {α : Type} {x : Build α} (h : x.Balanced) : x.outcome.Balanced := by
  intro bound
  simp only [Build.outcome]
  cases hrun : x bound with
  | ok a atEnd => exact h.of_ok hrun
  | error stop atEnd => cases stop <;> exact h.of_error hrun

/-- Sessions that a request that reads such names does not tell apart. -/
structure Alike (names : String → Prop) (s s' : Session) : Prop where
  bound : s.bound = s'.bound
  env : s.env.Agree names s'.env

theorem Alike.build_eq (h : Alike names s s') {term : Program}
    (hterm : term.Uses True (.reading names)) :
    term.build .byDepth s.env s.bound = term.build .byDepth s'.env s'.bound := by
  rw [Program.build_eq_of_agree h.env hterm, h.bound]

/-- In such sessions the request has the same answer. -/
theorem Alike.answer_same (h : Alike names s s') {request : Request}
    (hreads : request.Reads names) : (s.answer request).1.Same (s'.answer request).1 := by
  cases request with
  | build term name =>
    have hbuild := h.build_eq hreads
    show (s.build term name).1 = (s'.build term name).1
    cases hrun : term.build .byDepth s'.env s'.bound with
    | ok e atEnd => rw [build_ok (hbuild.trans hrun), build_ok hrun]
    | error stop atEnd => rw [build_error (hbuild.trans hrun), build_error hrun]
  | evaluate term =>
    show (s.evaluate term).1.map Argument.view = (s'.evaluate term).1.map Argument.view
    unfold evaluate
    rcases Program.run_view_of_agree h.env hreads s.bound with
      ⟨a, a', atEnd, hview, hok, hok'⟩ | ⟨stop, atEnd, hstop, hstop'⟩
    · rw [h.bound] at hok'
      rw [perform_ok hok, perform_ok hok']
      exact congrArg Except.ok hview
    · rw [h.bound] at hstop'
      rw [perform_error hstop, perform_error hstop']
  | compare left right =>
    have hleft := Program.build_eq_of_agree h.env hreads.1
    have hright := Program.build_eq_of_agree h.env hreads.2
    show (s.compare left right).1 = (s'.compare left right).1
    apply perform_fst_eq
    rw [hleft, hright, h.bound]

/-- A request changes a session only by the node that it binds to its name. -/
theorem answer_snd (s : Session) (request : Request) : (s.answer request).2 = s ∨
    ∃ x e, request.Binds x ∧ (s.answer request).2 = ⟨s.env.bind x e, s.bound⟩ := by
  cases request with
  | build term name =>
    cases hrun : term.build .byDepth s.env s.bound with
    | ok e atEnd =>
      have hanswer : (s.answer (.build term name)).2 =
          ⟨(name.map (s.env.bind · e)).getD s.env, s.bound⟩ := congrArg Prod.snd (build_ok hrun)
      cases name with
      | none => exact .inl hanswer
      | some x => exact .inr ⟨x, e, rfl, hanswer⟩
    | error stop atEnd => exact .inl (congrArg Prod.snd (build_error hrun name))
  | evaluate term =>
    apply Or.inl
    show (s.evaluate term).2 = s
    exact perform_balanced (Program.balanced_run s.env term)
  | compare left right =>
    apply Or.inl
    show (s.compare left right).2 = s
    apply perform_balanced
    apply Build.balanced_bind (balanced_outcome (Program.balanced_build s.env left))
    intro first
    apply Build.balanced_bind (balanced_outcome (Program.balanced_build s.env right))
    exact fun second => Build.balanced_pure _

/-- A request that binds none of the names changes nothing that they tell. -/
theorem Alike.skip (h : Alike names s s') {request : Request}
    (hbinds : ∀ x, names x → ¬request.Binds x) : Alike names (s.answer request).2 s' := by
  rcases s.answer_snd request with hsame | ⟨x, e, hx, hbound⟩
  · rw [hsame]
    exact h
  · rw [hbound]
    refine ⟨h.bound, fun y hy => ?_⟩
    have hne : x ≠ y := by
      rintro rfl
      exact hbinds x hy hx
    rw [← h.env y hy]
    exact (Fields.lookup_cons _ _ _ _).trans (if_neg hne)

theorem Alike.symm (h : Alike names s s') : Alike names s' s :=
  ⟨h.bound.symm, fun x hx => (h.env x hx).symm⟩

/-- A request that reads such names, if it binds one of them, binds it to the same node. -/
theorem Alike.answer (h : Alike names s s') {request : Request}
    (hreads : ∀ x, names x → request.Binds x → request.Reads names) :
    Alike names (s.answer request).2 (s'.answer request).2 := by
  by_cases hbinds : ∃ x, names x ∧ request.Binds x
  · obtain ⟨x, hx, hbound⟩ := hbinds
    have hrequest := hreads x hx hbound
    cases request with
    | build term name =>
      obtain rfl : name = some x := hbound
      have hbuild := h.build_eq hrequest
      cases hrun : term.build .byDepth s'.env s'.bound with
      | ok e atEnd =>
        have hanswer : (s.answer (.build term (some x))).2 = ⟨s.env.bind x e, s.bound⟩ :=
          congrArg Prod.snd (build_ok (hbuild.trans hrun))
        have hanswer' : (s'.answer (.build term (some x))).2 = ⟨s'.env.bind x e, s'.bound⟩ :=
          congrArg Prod.snd (build_ok hrun)
        rw [hanswer, hanswer']
        refine ⟨h.bound, fun y hy => ?_⟩
        show List.lookup y ((x, _) :: _) = List.lookup y ((x, _) :: _)
        rw [Fields.lookup_cons, Fields.lookup_cons, h.env y hy]
      | error stop atEnd =>
        have hanswer : (s.answer (.build term (some x))).2 = s :=
          congrArg Prod.snd (build_error (hbuild.trans hrun) _)
        have hanswer' : (s'.answer (.build term (some x))).2 = s' :=
          congrArg Prod.snd (build_error hrun _)
        rw [hanswer, hanswer']
        exact h
    | _ => cases hbound
  · have hnone : ∀ x, names x → ¬request.Binds x := fun x hx hbound => hbinds ⟨x, hx, hbound⟩
    exact (h.skip hnone).symm.skip hnone |>.symm

end Session

/-! ## Histories -/

/-- Two histories that differ in requests that bind none of the names. The other requests that bind
one of the names read such names only. -/
inductive Apart (names : String → Prop) : List Request → List Request → Prop
  | nil : Apart names [] []
  | both {request earlier earlier'} :
      (∀ x, names x → request.Binds x → request.Reads names) → Apart names earlier earlier' →
      Apart names (request :: earlier) (request :: earlier')
  | removed {request earlier earlier'} : (∀ x, names x → ¬request.Binds x) →
      Apart names earlier earlier' → Apart names (request :: earlier) earlier'
  | inserted {request earlier earlier'} : (∀ x, names x → ¬request.Binds x) →
      Apart names earlier earlier' → Apart names earlier (request :: earlier')

/-- The session after such requests. -/
def Session.after (earlier : List Request) : Session := (start.answers earlier).2

theorem Session.alike_answers {names : String → Prop} {earlier earlier' : List Request}
    (h : Apart names earlier earlier') {s s' : Session} (hs : Alike names s s') :
    Alike names (s.answers earlier).2 (s'.answers earlier').2 := by
  induction h generalizing s s' with
  | nil => exact hs
  | both hreads _ ih => exact ih (hs.answer hreads)
  | removed hbinds _ ih => exact ih (hs.skip hbinds)
  | inserted hbinds _ ih => exact ih (hs.symm.skip hbinds).symm

theorem Session.bound_answers (earlier : List Request) (s : Session) :
    (s.answers earlier).2.bound = s.bound := by
  induction earlier generalizing s with
  | nil => rfl
  | cons request rest ih =>
    refine (ih (s.answer request).2).trans ?_
    rcases s.answer_snd request with hsame | ⟨x, e, -, hbound⟩
    · rw [hsame]
    · rw [hbound]

/-- Every term leaves the count of bound variables as it was. A lambda position calls its function with
the parameters counted, whatever the function does, and gives back the count before it. What runs
within a task starts at the count of the task and the variables bound in between: a term depends on a
term that it runs by what that one gives at its count only, a host function runs its body at its
count, and what it gives at this count stands in the node of its caller. So an answer depends on the request and
on what the names in it stand for, whatever was built before. Requests before may be left out or put
in if they bind none of these names, nor a name that is read by a request that binds one of them. -/
theorem Session.history_independent :
    (∀ (env : Env) (term : Program) (bound : Nat),
      Build.endCount (term.run .byDepth env bound) = bound ∧
        Build.endCount (term.build .byDepth env bound) = bound) ∧
    (∀ (tag : String) (n : Nat) (function : List Expr → Build Argument) (bound : Nat), n ≠ 0 →
      (Argument.function n function).normalizeLambda .byDepth tag bound =
        match function ((implicitNames bound n).map variableNode) (bound + n) with
        | .ok given middle =>
          match given.normalizeLambda .byDepth tag middle with
          | .ok body _ => .ok (lambdaNode (parameterNode (implicitNames bound n)) body) bound
          | .error stop _ => .error stop bound
        | .error stop _ => .error stop bound) ∧
    (∀ (task task' : Task) (bound more bound' : Nat),
      Reaches task bound more task' bound' → bound' = bound + more) ∧
    (∀ (env env' : Env) (outer term : Program) (bound more bound' : Nat),
      Starts (.term env outer) bound more (.term env' term) bound' →
      env' = env ∧ bound' = bound ∧ ∃ context : Program.Context, outer = context.fill term ∧
        ∀ other : Program, (∀ name, term ≠ .spread name) → (∀ name, other ≠ .spread name) →
          other.run .byDepth env bound = term.run .byDepth env bound →
          (context.fill other).run .byDepth env bound = outer.run .byDepth env bound) ∧
    (∀ (env env' : Env) (f body : Program) (es : List Expr) (bound more bound' : Nat),
      Starts (.host env f es) bound more (.term env' body) bound' →
      bound' = bound ∧ f.hosted .byDepth env es bound = body.run .byDepth env' bound) ∧
    (∀ (env : Env) (term : Program) (bound more : Nat) (env' : Env) (f : Program)
        (es : List Expr) (bound' : Nat),
      Reaches (.term env term) bound more (.host env' f es) bound' →
      ∃ names, f.arity? = some names.length ∧ es = names.map variableNode ∧
        ∃ env₁ caller first n, Reaches (.term env term) bound n (.term env₁ caller) first ∧
          ∀ e atEnd, caller.run .byDepth env₁ first = .ok (.node e) atEnd →
            e.Frames names env' f es (bound + more)) ∧
    (∀ (names : String → Prop) (earlier earlier' : List Request) (request : Request),
      request.Reads names → (after earlier).env.Agree names (after earlier').env →
        ((after earlier).answer request).1.Same ((after earlier').answer request).1) ∧
    ∀ (names : String → Prop) (earlier earlier' : List Request) (request : Request),
      request.Reads names → Apart names earlier earlier' →
        ((after earlier).answer request).1.Same ((after earlier').answer request).1 := by
  refine ⟨fun env term bound => ?_, ?_, ?_, ?_, ?_, ?_, ?_, ?_⟩
  · exact ⟨term.balanced_run env bound, term.balanced_build env bound⟩
  · intro tag n function bound hn
    exact Argument.normalizeLambda_of_ne_zero hn .byDepth tag function bound
  · intro task task' bound more bound' hreaches
    exact hreaches.count_eq
  · intro env env' outer term bound more bound' hstarts
    obtain ⟨rfl, rfl, context, houter, hrun⟩ := hstarts.exists_context
    exact ⟨rfl, rfl, context, houter, hrun⟩
  · intro env env' f body es bound more bound' hstarts
    obtain ⟨rfl, hrun⟩ := hstarts.hosted_eq
    exact ⟨rfl, hrun⟩
  · intro env term bound more env' f es bound' hreaches
    have hcount := hreaches.count_eq
    subst hcount
    exact hreaches.handed
  · intro names earlier earlier' request hreads henv
    have hbound : (after earlier).bound = (after earlier').bound :=
      (bound_answers earlier start).trans (bound_answers earlier' start).symm
    exact Alike.answer_same ⟨hbound, henv⟩ hreads
  · intro names earlier earlier' request hreads hapart
    have hstart : Alike names start start := ⟨rfl, fun _ _ => rfl⟩
    exact (alike_answers hapart hstart).answer_same hreads

/-- A build that is thrown through and a name bound in between do not matter to later builds. In the
body of a function with one parameter, run from three variables on, four are counted. -/
theorem Session.answer_after_inserted :
    let returned : Program := .function ["x"] (.list [.get "x"])
    let identity : Program := .lambdaOf (.function ["x"] (.get "x"))
    let mapped : Program := .lambdaOf returned
    let thrown : Request := .build (.lambdaOf (.function ["x"] (.throw "late"))) (some "g")
    let other : Request := .build (.literal (.integer 5)) (some "g")
    let earlier : List Request := [.build identity (some "f")]
    let earlier' : List Request := [thrown, .build identity (some "f"), other]
    let request : Request := .build (.list [.get "f", identity]) none
    let giving : List Expr → Build Argument := fun es bound =>
      .ok (.array (.literal (.string (implicitName bound)) :: es.map .node)) bound
    let throwing : List Expr → Build Argument := fun _ bound => .error (.thrown "late") bound
    let x := variableNode "_implicit3"
    let env : Env := [("x", .node x)]
    ((Argument.function 1 giving).normalizeLambda .byDepth "map" 3 =
        .ok (lambdaNode (.string "_implicit3") (.array [.string "_implicit4", x])) 3 ∧
      (Argument.function 1 throwing).normalizeLambda .byDepth "map" 3 = .error (.thrown "late") 3) ∧
    (Reaches (.term [] mapped) 3 1 (.host [] returned [x]) 4 ∧ 4 = 3 + 1) ∧
    (∃ context : Program.Context, .list [.get "x"] = context.fill (.get "x") ∧
      (context.fill (.leaf (.variable "_implicit3"))).run .byDepth env 4 =
        Program.run .byDepth env (.list [.get "x"]) 4) ∧
    returned.hosted .byDepth [] [x] 4 = Program.run .byDepth env (.list [.get "x"]) 4 ∧
    (∃ names, returned.arity? = some names.length ∧ [x] = names.map variableNode ∧
      ∃ env₁ caller first n, Reaches (.term [] mapped) 3 n (.term env₁ caller) first ∧
        ∀ e atEnd, caller.run .byDepth env₁ first = .ok (.node e) atEnd →
          e.Frames names [] returned [x] (3 + 1)) ∧
    request.Reads (· = "f") ∧ (after earlier).env.Agree (· = "f") (after earlier').env ∧
      Apart (· = "f") earlier earlier' ∧
      ((after earlier).answer request).1.Same ((after earlier').answer request).1 ∧
      ((after earlier).answer request).1.Same ((after earlier').answer request).1 := by
  intro returned identity mapped thrown other earlier earlier' request giving throwing x env
  have hbody : Reaches (.term [] mapped) 3 1 (.host [] returned [x]) 4 := Reaches.body rfl [] 3
  have hitem : Starts (.term env (.list [.get "x"])) 4 0 (.term env (.get "x")) 4 :=
    @Starts.item env [] (.get "x") [] 4 [] 4 rfl
  have hidentity : identity.Uses True (.reading (· = "f")) := .inl List.mem_cons_self
  have hreads : request.Reads (· = "f") := ⟨rfl, hidentity, trivial⟩
  have hbinds : ∀ term : Program, ∀ x, x = "f" → ¬(Request.build term (some "g")).Binds x := by
    rintro term _ rfl hx
    simp [Request.Binds] at hx
  have hapart : Apart (· = "f") earlier earlier' :=
    .inserted (hbinds _) (.both (fun _ _ _ => hidentity) (.inserted (hbinds _) .nil))
  have hagree : (after earlier).env.Agree (· = "f") (after earlier').env := by
    rintro x rfl
    rfl
  obtain ⟨-, hlambda, hcount, hinner, hhost, hcalls, hread, hhistory⟩ := history_independent
  obtain ⟨-, -, context, houter, hcontext⟩ := hinner env env _ _ 4 0 4 hitem
  have hfilled := hcontext (.leaf (.variable "_implicit3")) (by simp) (by simp) rfl
  refine ⟨⟨hlambda "map" 1 giving 3 (by decide), hlambda "map" 1 throwing 3 (by decide)⟩,
    ⟨hbody, hcount _ _ 3 1 4 hbody⟩, ⟨context, houter, hfilled⟩,
    (hhost [] env returned _ [x] 4 0 4 .function).2, hcalls [] mapped 3 1 [] _ _ 4 hbody,
    hreads, hagree, hapart, ?_, ?_⟩
  · exact hread _ earlier earlier' request hreads hagree
  · exact hhistory _ earlier earlier' request hreads hapart

/-- A request in between that binds another name matters, if the name is read where the first one is
bound again. -/
theorem Session.answer_changed_by_inserted :
    let first : Request := .build (.literal (.integer 1)) (some "a")
    let inserted : Request := .build (.literal (.integer 5)) (some "a")
    let later : Request := .build (.list [.get "a"]) (some "b")
    let request : Request := .build (.get "b") none
    request.Reads (· = "b") ∧ ¬inserted.Binds "b" ∧
      ¬((after [first, later]).answer request).1.Same
        ((after [first, inserted, later]).answer request).1 := by
  intro first inserted later request
  refine ⟨rfl, ?_, ?_⟩
  · simp [inserted, Request.Binds]
  · intro hsame
    have hnodes : (Except.ok (.array [.literal (.integer 1)]) : Except Stop Expr) =
        .ok (.array [.literal (.integer 5)]) := hsame
    simp at hnodes

end QueryTree
