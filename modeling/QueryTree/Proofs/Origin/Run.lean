import QueryTree.Proofs.Origin

/-!
# Lambdas in what terms build

Each lambda in a node that is built comes from a task of the build of this node, or of a build
before it. The proof follows the terms. What stands in front of a part ran before it, so that the
count at which the part starts is known.
-/

namespace QueryTree

open QueryTree.Expr

variable {ran : Task → Nat → Prop}

/-! ## Environments -/

namespace Env

variable {Q : Expr → Prop} {env : Env}

theorem forall_append {added : Env} (hadded : ∀ p ∈ added, ∀ e ∈ p.2.exprs, Q e)
    (henv : ∀ x, ∀ e ∈ env.captured x, Q e) : ∀ x, ∀ e ∈ captured (added ++ env) x, Q e := by
  intro x e he
  rw [captured, List.lookup_append] at he
  cases hx : added.lookup x with
  | none =>
    rw [hx] at he
    exact henv x e he
  | some b =>
    rw [hx] at he
    exact hadded _ (Fields.mem_of_lookup hx) e he

theorem forall_bind (name : String) {e : Expr} (he : Q e)
    (henv : ∀ x, ∀ e ∈ env.captured x, Q e) : ∀ x, ∀ e' ∈ (env.bind name e).captured x, Q e' := by
  have hadded : ∀ p ∈ [(name, Binding.node e)], ∀ e' ∈ p.2.exprs, Q e' :=
    List.forall_mem_singleton.2 (List.forall_mem_singleton.2 he)
  exact forall_append hadded henv

theorem forall_bindAll (hnull : Q .null) (parameters : List String) {es : List Expr}
    (hes : ∀ e ∈ es, Q e) (henv : ∀ x, ∀ e ∈ env.captured x, Q e) :
    ∀ x, ∀ e ∈ (env.bindAll parameters es).captured x, Q e := by
  induction parameters generalizing es env with
  | nil => exact henv
  | cons name names ih =>
    cases es with
    | nil => exact ih (List.forall_mem_nil _) (forall_bind name hnull henv)
    | cons e rest =>
      obtain ⟨he, hrest⟩ := List.forall_mem_cons.1 hes
      exact ih hrest (forall_bind name he henv)

theorem forall_bindNumbered (name : String) {es : List Expr} (hes : ∀ e ∈ es, Q e)
    (henv : ∀ x, ∀ e ∈ env.captured x, Q e) :
    ∀ x, ∀ e ∈ (env.bindNumbered name es).captured x, Q e := by
  rw [bindNumbered]
  refine forall_append (List.forall_mem_cons.2 ⟨hes, fun p hp => ?_⟩) henv
  obtain ⟨⟨e, i⟩, hmem, rfl⟩ := List.mem_map.1 (List.mem_reverse.1 hp)
  exact List.forall_mem_singleton.2 (hes e (List.fst_mem_of_mem_zipIdx hmem))

/-- All lambdas in what names stand for come from tasks. -/
def Sourced (ran : Task → Nat → Prop) (env : Env) : Prop :=
  ∀ x, ∀ e ∈ env.captured x, e.Everywhere (Expr.Sourced ran)

theorem Sourced.arguments (henv : env.Sourced ran) (x : String) :
    ∀ a ∈ env.arguments x, a.Sourced ran := by
  have hnodes := henv x
  intro a ha
  rw [Env.arguments] at ha
  rw [captured] at hnodes
  cases hx : env.lookup x with
  | none =>
    rw [hx] at ha
    cases ha
  | some b =>
    rw [hx] at ha hnodes
    cases b with
    | node e =>
      obtain rfl := List.mem_singleton.1 ha
      exact .node (hnodes e (List.mem_singleton.2 rfl))
    | nodes es =>
      obtain ⟨e, he, rfl⟩ := List.mem_map.1 ha
      exact .node (hnodes e he)

theorem Sourced.argument (henv : env.Sourced ran) (x : String) : (env.argument x).Sourced ran := by
  have hnodes := henv x
  rw [Env.argument]
  rw [captured] at hnodes
  cases hx : env.lookup x with
  | none => exact .literal .null
  | some b =>
    rw [hx] at hnodes
    cases b with
    | node e => exact .node (hnodes e (List.mem_singleton.2 rfl))
    | nodes es =>
      refine .array fun a ha => ?_
      obtain ⟨e, he, rfl⟩ := List.mem_map.1 ha
      exact .node (hnodes e he)

end Env

/-! ## Runs -/

theorem Expr.subterms_of_follow {e found : Expr} {path : List Step}
    (h : e.follow? path = some found) : ∀ s ∈ found.subterms, s ∈ e.subterms := by
  induction path generalizing e with
  | nil =>
    cases h
    exact fun _ hs => hs
  | cons step path ih =>
    rw [follow?_cons] at h
    obtain ⟨next, hnext, h⟩ := Option.bind_eq_some_iff.1 h
    exact fun s hs => subterms_of_step hnext s (ih h s hs)

mutual

theorem sourced_ofDocument : ∀ d : Document, (Argument.ofDocument d).Sourced ran
  | .null => .literal .null
  | .bool b => .literal (.bool b)
  | .integer n => .literal (.ofInt n)
  | .float x => .literal (.float x)
  | .string s => .literal (.string s)
  | .array items => .array (sourced_ofDocuments items)
  | .object fields => .object (sourced_ofFields fields)

theorem sourced_ofDocuments : ∀ items : List Document, ∀ a ∈ Argument.ofDocuments items,
    a.Sourced ran
  | [] => List.forall_mem_nil _
  | d :: rest => List.forall_mem_cons.2 ⟨sourced_ofDocument d, sourced_ofDocuments rest⟩

theorem sourced_ofFields : ∀ fields : List (String × Document), ∀ p ∈ Argument.ofFields fields,
    p.2.Sourced ran
  | [] => List.forall_mem_nil _
  | (_, d) :: rest => List.forall_mem_cons.2 ⟨sourced_ofDocument d, sourced_ofFields rest⟩

end

theorem Build.captured_ok {x : Build Expr} {c atEnd : Nat} {a : Argument}
    (h : x.captured c = .ok a atEnd) :
    (∃ e, x c = .ok e atEnd ∧ a = .node e) ∨ ∃ error, a = .failed error := by
  obtain ⟨result, middle, hresult, h⟩ := bind_eq_ok h
  cases h
  simp only [outcome] at hresult
  split at hresult
  · rename_i hx
    cases hresult
    exact .inl ⟨_, hx, rfl⟩
  · cases hresult
    exact .inr ⟨_, rfl⟩
  · cases hresult

theorem Argument.Sourced.normalized {a : Argument} (h : a.Sourced ran) (tag : String) :
    (Argument.ofExcept (a.normalize tag)).Sourced ran := by
  cases hnode : a.normalize tag with
  | ok e => exact .node (h.normalize hnode)
  | error error => exact .failed error

namespace Program

theorem sourced_captured {x : Build Expr} {c atEnd : Nat} {a : Argument}
    (hx : ∀ e, x c = .ok e atEnd → e.Everywhere (Expr.Sourced ran))
    (h : x.captured c = .ok a atEnd) : a.Sourced ran := by
  rcases Build.captured_ok h with ⟨e, he, rfl⟩ | ⟨error, rfl⟩
  · exact .node (hx e he)
  · exact .failed error

theorem sourced_runElements {env : Env} {term : Program} {c atEnd : Nat} {as : List Argument}
    (henv : env.Sourced ran)
    (hrun : ∀ a atEnd, term.run .byDepth env c = .ok a atEnd → a.Sourced ran)
    (h : term.runElements .byDepth env c = .ok as atEnd) : ∀ a ∈ as, a.Sourced ran := by
  cases term with
  | spread name =>
    cases h
    exact henv.arguments name
  | _ =>
    obtain ⟨a, middle, ha, h⟩ := Build.bind_eq_ok h
    cases h
    exact List.forall_mem_singleton.2 (hrun a _ ha)

mutual

/-- A term gives an argument whose lambdas come from the tasks that it starts. -/
theorem sourced_run (hran : Closed ran) : ∀ (term : Program) {env : Env} {c atEnd : Nat}
    {a : Argument}, env.Sourced ran → ran (.term env term) c →
      term.run .byDepth env c = .ok a atEnd → a.Sourced ran
  | .literal value, _, _, _, _, _, _, h => by
    cases h
    exact .literal value
  | .document value, _, _, _, _, _, _, h => by
    cases h
    exact sourced_ofDocument value
  | .list items, _, _, _, _, henv, hterm, h => by
    obtain ⟨as, _, hitems, h⟩ := Build.bind_eq_ok h
    cases h
    refine .array (sourced_runItems hran items henv ?_ hitems)
    rintro before part rest as c' rfl hbefore
    exact hran hterm (.item hbefore)
  | .object fields, _, _, _, _, henv, hterm, h => by
    obtain ⟨pairs, _, hpairs, h⟩ := Build.bind_eq_ok h
    cases h
    refine .object (sourced_runFields hran fields henv ?_ hpairs)
    rintro before ⟨name, part⟩ rest as c' rfl hbefore
    exact hran hterm (.field hbefore)
  | .keyed fields, _, _, _, _, henv, hterm, h => by
    obtain ⟨pairs, _, hpairs, h⟩ := Build.bind_eq_ok h
    cases h
    have hsourced := sourced_runFields hran fields henv ?_ hpairs
    · exact .object fun p hp => hsourced p (Fields.mem_of_mem_sorted hp)
    · rintro before ⟨name, part⟩ rest as c' rfl hbefore
      exact hran hterm (.key hbefore)
  | .get name, _, _, _, _, henv, _, h => by
    cases h
    exact henv.argument name
  | .spread name, _, _, _, _, henv, _, h => by
    cases h
    exact .array (henv.arguments name)
  | .leaf value, _, _, _, _, _, _, h => by
    cases h
    refine .node (Parallel.made_leaf (fun _ => sourced_of_none rfl) (fun tag text htag => ?_) value)
    refine sourced_operation ?_
    rintro rfl
    simp [leafTags] at htag
  | .call b operands, _, _, _, _, henv, hterm, h => by
    obtain ⟨given, _, hgiven, h⟩ := Build.bind_eq_ok h
    have hsourced := sourced_runOperands hran operands henv ?_ hgiven
    · exact sourced_captured (fun e => sourced_build hran hsourced (hran hterm (.call hgiven))) h
    · rintro before ⟨label, part⟩ rest as c' rfl hbefore
      exact hran hterm (.operand hbefore)
  | .function parameters body, env, _, _, _, henv, _, h => by
    cases h
    -- Whoever calls the function makes its body a task, in an environment with the nodes given.
    show ((Program.function parameters body).given env parameters.length).Sourced ran
    refine .function rfl fun es c a atEnd hhost hes ha => ?_
    refine sourced_run hran body ?_ (hran hhost .function) ha
    exact Env.forall_bindAll (everywhere_literal (sourced_of_none rfl)) parameters hes henv
  | .functionOf arity name body, env, _, _, _, henv, _, h => by
    cases h
    show ((Program.functionOf arity name body).given env arity).Sourced ran
    refine .function rfl fun es c a atEnd hhost hes ha => ?_
    exact sourced_run hran body (Env.forall_bindNumbered name hes henv) (hran hhost .functionOf) ha
  | .normalize term tag, _, _, _, _, henv, hterm, h => by
    obtain ⟨a, _, ha, h⟩ := Build.bind_eq_ok h
    cases h
    exact (sourced_run hran term henv (hran hterm .normalize) ha).normalized tag
  | .normalizeLambda term tag, _, _, _, _, henv, hterm, h => by
    obtain ⟨a, _, ha, h⟩ := Build.bind_eq_ok h
    have hsourced := sourced_run hran term henv (hran hterm .normalizeLambda) ha
    exact sourced_captured (fun e => hsourced.normalizeLambda hran (hran hterm (.normalized ha))) h
  | .part term path, _, _, _, _, henv, hterm, h => by
    obtain ⟨a, _, ha, h⟩ := Build.bind_eq_ok h
    have hsourced := sourced_run hran term henv (hran hterm .part) ha
    cases hnode : a.normalize "part" with
    | error error =>
      rw [hnode] at h
      cases h
      exact .failed error
    | ok e =>
      rw [hnode] at h
      cases h
      cases hfound : e.follow? path with
      | none => exact .literal .null
      | some found =>
        have heverywhere := hsourced.normalize hnode
        exact .node fun s hs => heverywhere s (subterms_of_follow hfound s hs)
  | .fail error, _, _, _, _, _, _, h => by
    cases h
    exact .failed error
  | .throw message, _, _, _, _, _, _, h => by cases h
  | .attempt term fallback, env, c, _, _, henv, hterm, h => by
    simp only [run, Build.catching] at h
    split at h
    · rename_i hthrown
      exact sourced_run hran fallback henv (hran hterm (.caught hthrown)) h
    · exact sourced_run hran term henv (hran hterm .attempt) h
  | .orElse term fallback, _, _, _, _, henv, hterm, h => by
    obtain ⟨a, _, ha, h⟩ := Build.bind_eq_ok h
    have hsourced := sourced_run hran term henv (hran hterm .orElse) ha
    split at h
    · exact sourced_run hran fallback henv (hran hterm (.replaced ha)) h
    · cases h
      exact hsourced

theorem sourced_runItems (hran : Closed ran) : ∀ (items : List Program) {env : Env}
    {c atEnd : Nat} {as : List Argument}, env.Sourced ran →
      Met (runItems .byDepth env) (fun term c => ran (.term env term) c) items c →
      runItems .byDepth env items c = .ok as atEnd → ∀ a ∈ as, a.Sourced ran
  | [], _, _, _, _, _, _, h => by
    cases h
    exact List.forall_mem_nil _
  | term :: rest, env, _, _, _, henv, hmet, h => by
    rw [runItems_cons] at h
    obtain ⟨front, _, hfront, h⟩ := Build.bind_eq_ok h
    obtain ⟨back, _, hback, h⟩ := Build.bind_eq_ok h
    cases h
    have hterm := sourced_runElements henv
      (fun a _ => sourced_run hran term henv (hmet.head rfl)) hfront
    have hrest := hmet.tail_bind (runItems_cons .byDepth env term) hfront
    exact List.forall_mem_append.2 ⟨hterm, sourced_runItems hran rest henv hrest hback⟩

theorem sourced_runFields (hran : Closed ran) : ∀ (fields : List (String × Program)) {env : Env}
    {c atEnd : Nat} {as : List (String × Argument)}, env.Sourced ran →
      Met (runFields .byDepth env) (fun field c => ran (.term env field.2) c) fields c →
      runFields .byDepth env fields c = .ok as atEnd → ∀ p ∈ as, p.2.Sourced ran
  | [], _, _, _, _, _, _, h => by
    cases h
    exact List.forall_mem_nil _
  | (name, term) :: rest, env, _, _, _, henv, hmet, h => by
    obtain ⟨a, _, ha, h⟩ := Build.bind_eq_ok h
    obtain ⟨back, _, hback, h⟩ := Build.bind_eq_ok h
    cases h
    have hterm := sourced_run hran term henv (hmet.head rfl) ha
    have hrest := hmet.tail_bind (fun before => by rw [runFields]) ha
    exact List.forall_mem_cons.2 ⟨hterm, sourced_runFields hran rest henv hrest hback⟩

theorem sourced_runOperands (hran : Closed ran) : ∀ (operands : List (Label × Program))
    {env : Env} {c atEnd : Nat} {as : Operands}, env.Sourced ran →
      Met (runOperands .byDepth env) (fun operand c => ran (.term env operand.2) c) operands c →
      runOperands .byDepth env operands c = .ok as atEnd → ∀ p ∈ as, p.2.Sourced ran
  | [], _, _, _, _, _, _, h => by
    cases h
    exact List.forall_mem_nil _
  | (label, term) :: rest, env, _, _, _, henv, hmet, h => by
    rw [runOperands_cons] at h
    obtain ⟨front, _, hfront, h⟩ := Build.bind_eq_ok h
    obtain ⟨back, _, hback, h⟩ := Build.bind_eq_ok h
    cases h
    have hterm := sourced_runElements henv
      (fun a _ => sourced_run hran term henv (hmet.head rfl)) hfront
    have hrest := hmet.tail_bind (runOperands_cons .byDepth env label term) hfront
    refine List.forall_mem_append.2 ⟨fun p hp => ?_, sourced_runOperands hran rest henv hrest hback⟩
    obtain ⟨a, ha, rfl⟩ := List.mem_map.1 hp
    exact hterm a ha

end

end Program

/-! ## Builds -/

/-- The tasks that run, from their counts, in some builds. -/
def Runs (builds : Task → Nat → Prop) (task : Task) (c : Nat) : Prop :=
  ∃ root start n, builds root start ∧ Reaches root start n task c

theorem closed_runs (builds : Task → Nat → Prop) : Closed (Runs builds) := by
  intro task c n task' c' hruns hstarts
  obtain ⟨root, start, m, hroot, hreaches⟩ := hruns
  exact ⟨root, start, m + n, hroot, hreaches.within hstarts⟩

theorem runs_root {builds : Task → Nat → Prop} {root : Task} {start : Nat} (h : builds root start) :
    Runs builds root start := ⟨root, start, 0, h, .here⟩

/-- Nodes of which each is built by one of the builds, from nodes like it. -/
inductive BuiltBy (builds : Task → Nat → Prop) : Expr → Prop
  | build {term : Program} {env : Env} {bound e atEnd} :
      (∀ x, ∀ e' ∈ env.captured x, BuiltBy builds e') → builds (.term env term) bound →
      term.build .byDepth env bound = .ok e atEnd → BuiltBy builds e

theorem obtainable_iff_builtBy {e : Expr} : Obtainable e ↔ ∃ builds, BuiltBy builds e := by
  constructor
  · intro h
    refine ⟨fun _ _ => True, ?_⟩
    induction h with
    | build _ _ hbuild hnode hnodes =>
      refine .build (fun x e' he' => ?_) trivial hbuild
      rcases Env.mem_captured.1 he' with hx | ⟨es, hx, hmem⟩
      · exact hnode x e' hx
      · exact hnodes x es hx e' hmem
  · rintro ⟨builds, h⟩
    induction h with
    | build _ _ hbuild ih =>
      exact .build (fun x e' hx => ih x e' (Env.mem_captured.2 (.inl hx)))
        (fun x es hx e' he' => ih x e' (Env.mem_captured.2 (.inr ⟨es, hx, he'⟩))) hbuild

theorem BuiltBy.sourced {builds : Task → Nat → Prop} {e : Expr} (h : BuiltBy builds e) :
    e.Everywhere (Expr.Sourced (Runs builds)) := by
  induction h with
  | build _ hroot hbuild ih =>
    obtain ⟨a, middle, ha, hnode⟩ := Build.bind_eq_ok hbuild
    exact (Program.sourced_run (closed_runs builds) _ ih (runs_root hroot) ha).ofExcept hnode

/-- Each lambda in what is built comes from a host function or from explicit bindings. The first
kind declares at least one name, and its names are distinct. The second kind declares the names of
its bindings as they stand there, if there are any. -/
theorem BuiltBy.lambda_declares {builds : Task → Nat → Prop} {e s : Expr} (h : BuiltBy builds e)
    (hs : s ∈ e.subterms) (hlambda : s.tag? = some "lambda") :
    (s.Reified (Runs builds) ∧ s.declares ≠ [] ∧ s.declares.Nodup) ∨
      ∃ names, s.Bound (Runs builds) names ∧ (names ≠ [] → s.declares = names) := by
  rcases h.sourced s hs hlambda with hreified | ⟨names, hbound⟩
  · exact .inl ⟨hreified, hreified.declares⟩
  · exact .inr ⟨names, hbound, fun _ => hbound.declares⟩

/-- A lambda with explicit bindings, whose function gives another one. -/
theorem curried_lambda_declares :
    let term : Program := .call explicitLambda
      [(.field "lambda", .list [.literal (.string "a"), .literal (.string "b")]),
        (.field "expr", .function ["x", "y"] (.function ["z"] (.list [.get "x", .get "z"])))]
    let builds : Task → Nat → Prop := fun task c => task = .term [] term ∧ c = 0
    let inner : Expr := lambdaNode (.string (implicitName 0))
      (.array [variableNode "a", variableNode (implicitName 0)])
    let outer : Expr := lambdaNode (.array [.string "a", .string "b"]) inner
    BuiltBy builds outer ∧ ∀ s ∈ [outer, inner], s ∈ outer.subterms ∧ s.tag? = some "lambda" ∧
      ((s.Reified (Runs builds) ∧ s.declares ≠ [] ∧ s.declares.Nodup) ∨
        ∃ names, s.Bound (Runs builds) names ∧ (names ≠ [] → s.declares = names)) := by
  intro term builds inner outer
  have hbuild : term.build .byDepth [] 0 = .ok outer 0 := rfl
  have hbuilt : BuiltBy builds outer :=
    .build (fun _ => List.forall_mem_nil _) ⟨rfl, rfl⟩ hbuild
  have houter : outer ∈ outer.subterms := mem_subterms_self outer
  have hinner : inner ∈ outer.subterms := by
    simp [outer, lambdaNode, subterms, subtermsFields, mem_subterms_self]
  refine ⟨hbuilt, List.forall_mem_cons.2 ⟨?_, List.forall_mem_singleton.2 ?_⟩⟩
  · exact ⟨houter, rfl, hbuilt.lambda_declares houter rfl⟩
  · exact ⟨hinner, rfl, hbuilt.lambda_declares hinner rfl⟩

/-- Explicit bindings may repeat a name. -/
theorem lambda_declares_repeated :
    let term : Program := .call explicitLambda
      [(.field "lambda", .list [.literal (.string "x"), .literal (.string "x")]),
        (.field "expr", .leaf (.variable "x"))]
    let e : Expr := lambdaNode (.array [.string "x", .string "x"]) (variableNode "x")
    term.build .byDepth [] 0 = .ok e 0 ∧ e ∈ e.subterms ∧ e.tag? = some "lambda" ∧
      e.declares = ["x", "x"] ∧ ¬ e.declares.Nodup := by
  intro term e
  have hdeclares : e.declares = ["x", "x"] := rfl
  refine ⟨rfl, mem_subterms_self e, rfl, hdeclares, ?_⟩
  rw [hdeclares]
  decide

end QueryTree
