import QueryTree.Proofs.Parallel.Build

/-!
# Programs in parallel runs

A term that is run in related environments gives related arguments, or stops every run alike. The
proof follows the terms. A function term is related to itself because its body, in any environment
that extends the one of the function by related variables, is a term again.
-/

namespace QueryTree

variable {ι : Type}

theorem Env.bindAll_eq {parameters : List String} {es : List Expr}
    (h : es.length = parameters.length) (env : Env) : env.bindAll parameters es =
      ((parameters.zip es).map fun p => (p.1, Binding.node p.2)).reverse ++ env := by
  induction parameters generalizing es env with
  | nil => rfl
  | cons name names ih =>
    cases es with
    | nil => cases h
    | cons e rest =>
      rw [Env.bindAll, ih (Nat.succ.inj h)]
      simp [Env.bind]

/-! ## Function terms -/

namespace Program

/-- The number of parameters of a function term. -/
def arity? : Program → Option Nat
  | .function parameters _ => some parameters.length
  | .functionOf arity _ _ => some arity
  | _ => none

/-- The host function that a function term gives. -/
def hosted (numbering : Numbering) (env : Env) : Program → List Expr → Build Argument
  | .function parameters body => fun es => run numbering (env.bindAll parameters es) body
  | .functionOf _ name body => fun es => run numbering (env.bindNumbered name es) body
  | _ => fun _ => pure .null

theorem run_function {f : Program} {n : Nat} (h : f.arity? = some n) (numbering : Numbering)
    (env : Env) : run numbering env f = pure (.function n (f.hosted numbering env)) := by
  cases f <;> cases h <;> rfl

end Program

/-! ## Environments -/

def Binding.exprs : Binding → List Expr
  | .node e => [e]
  | .nodes es => es

/-- The nodes that a name stands for. -/
def Env.captured (env : Env) (x : String) : List Expr :=
  ((env.lookup x).map Binding.exprs).getD []

theorem Env.mem_captured {env : Env} {x : String} {e : Expr} : e ∈ env.captured x ↔
    env.lookup x = some (.node e) ∨ ∃ es, env.lookup x = some (.nodes es) ∧ e ∈ es := by
  unfold captured
  cases env.lookup x with
  | none => simp
  | some b => cases b <;> simp [Binding.exprs, eq_comm]

namespace Parallel

variable {P : Parallel ι} {u : Usage} {w : P.World} {env : ι → Env} {accessors : Prop}

/-- What a name stands for in every run. -/
inductive Binds (P : Parallel ι) (w : P.World) : (ι → Binding) → Prop
  | node {e} : P.Node w e → Binds P w (fun i => .node (e i))
  | nodes (es : List (ι → Expr)) : (∀ e ∈ es, P.Node w e) →
      Binds P w (fun i => .nodes (es.map (· i)))

theorem Binds.mono {w' : P.World} (h : P.Inside w w') {b : ι → Binding} (hb : P.Binds w b) :
    P.Binds w' b := by
  cases hb with
  | node he => exact .node (P.node_mono h he)
  | nodes es hes => exact .nodes es fun e he => P.node_mono h (hes e he)

/-- Environments in which the names that may be read stand for related nodes, and which offer
permitted names only. -/
structure Envs (P : Parallel ι) (u : Usage) (w : P.World) (env : ι → Env) : Prop where
  named : ∀ name, u.named name → P.Named name
  reads : ∀ x, u.reads x → (∀ i, (env i).lookup x = none) ∨
    ∃ b, P.Binds w b ∧ ∀ i, (env i).lookup x = some (b i)
  permits : ∀ i, (env i).Permits u

namespace Envs

theorem mono {w' : P.World} (h : P.Inside w w') (henv : P.Envs u w env) : P.Envs u w' env := by
  refine ⟨henv.named, fun x hx => ?_, henv.permits⟩
  rcases henv.reads x hx with hnone | ⟨b, hb, hsome⟩
  · exact .inl hnone
  · exact .inr ⟨b, hb.mono h, hsome⟩

theorem argument (henv : P.Envs u w env) {x : String} (hx : u.reads x) :
    P.Related w (fun i => (env i).argument x) := by
  unfold Env.argument
  rcases henv.reads x hx with hnone | ⟨b, hb, hsome⟩
  · simp only [hnone]
    exact .literal .null
  · simp only [hsome]
    cases hb with
    | node he => exact .node he
    | nodes es hes =>
      have h := Related.array (P := P) (w := w) (es.map fun e i => .node (e i)) ?_
      · simpa [Function.comp_def] using h
      · intro a ha
        obtain ⟨e, he, rfl⟩ := List.mem_map.1 ha
        exact .node (hes e he)

theorem arguments (henv : P.Envs u w env) {x : String} (hx : u.reads x) :
    ∃ n, Each (P.Related w) n (fun i => (env i).arguments x) := by
  unfold Env.arguments
  rcases henv.reads x hx with hnone | ⟨b, hb, hsome⟩
  · simp only [hnone]
    exact ⟨0, [], rfl, rfl, nofun⟩
  · simp only [hsome]
    cases hb with
    | node he =>
      rename_i e
      exact ⟨1, [fun i => .node (e i)], rfl, rfl, fun a ha => List.mem_singleton.1 ha ▸ .node he⟩
    | nodes es hes =>
      refine ⟨_, es.map fun e i => .node (e i), ?_, rfl, ?_⟩
      · simp [Function.comp_def]
      · intro a ha
        obtain ⟨e, he, rfl⟩ := List.mem_map.1 ha
        exact .node (hes e he)

/-- Related variables in front of the environments. -/
theorem append (henv : P.Envs u w env) (bound : String → Prop)
    (added : List (String × (ι → Binding))) (hbound : ∀ x, bound x ↔ x ∈ added.map Prod.fst)
    (h : ∀ p ∈ added, P.Binds w p.2 ∧ ∀ i, (p.2 i).offered = []) :
    P.Envs (u.under bound) w (fun i => added.map (fun p => (p.1, p.2 i)) ++ env i) := by
  have hlookup : ∀ x i, (added.map (fun p => (p.1, p.2 i)) ++ env i).lookup x =
      ((added.lookup x).map (· i)).or ((env i).lookup x) := by
    intro x i
    rw [List.lookup_append, Fields.lookup_map (fun b : ι → Binding => b i)]
  refine ⟨henv.named, fun x hx => ?_, fun i x hx => ?_⟩
  · simp only [hlookup]
    cases hx' : added.lookup x with
    | none =>
      have hnot : ¬bound x := fun hb => Fields.not_mem_of_lookup hx' ((hbound x).1 hb)
      exact henv.reads x (hx.resolve_left hnot)
    | some b => exact .inr ⟨b, (h _ (Fields.mem_of_lookup hx')).1, fun i => rfl⟩
  · unfold Env.offered
    rw [hlookup]
    cases hx' : added.lookup x with
    | none =>
      have hnot : ¬bound x := fun hb => Fields.not_mem_of_lookup hx' ((hbound x).1 hb)
      exact henv.permits i x (hx.resolve_left hnot)
    | some b =>
      intro name hname
      have hnone := (h _ (Fields.mem_of_lookup hx')).2 i
      simp [hnone] at hname

theorem bindAll (henv : P.Envs u w env) {parameters : List String} {es : List (ι → Expr)}
    (hlength : es.length = parameters.length) (hes : ∀ e ∈ es, P.Handed w e) :
    P.Envs (u.under (· ∈ parameters)) w
      (fun i => (env i).bindAll parameters (es.map (· i))) := by
  have hadded := henv.append (· ∈ parameters)
    ((parameters.zip es).map fun p => (p.1, fun i => Binding.node (p.2 i))).reverse ?_ ?_
  · have hlengths : ∀ i, (es.map (· i)).length = parameters.length := fun _ => by simpa
    have hbind := fun i => Env.bindAll_eq (hlengths i) (env i)
    simp only [hbind]
    simpa [List.zip_map_right, Function.comp_def] using hadded
  · intro x
    rw [List.map_reverse, List.mem_reverse, List.map_map]
    simp only [Function.comp_def, List.map_fst_zip (Nat.le_of_eq hlength.symm)]
  · intro p hp
    obtain ⟨⟨name, e⟩, hmem, rfl⟩ := List.mem_map.1 (List.mem_reverse.1 hp)
    have he := hes e (List.of_mem_zip hmem).2
    exact ⟨.node he.1, he.2⟩

theorem bindNumbered (henv : P.Envs u w env) (name : String) {es : List (ι → Expr)}
    (hes : ∀ e ∈ es, P.Handed w e) :
    P.Envs (u.under (Numbered es.length name)) w
      (fun i => (env i).bindNumbered name (es.map (· i))) := by
  have hadded := henv.append (Numbered es.length name)
    ((name, fun i => Binding.nodes (es.map (· i))) ::
      (es.zipIdx.map fun p => (name ++ toString p.2, fun i => Binding.node (p.1 i))).reverse)
    ?_ ?_
  · simpa [Env.bindNumbered, List.zipIdx_map, Function.comp_def] using hadded
  · intro x
    have hkeys : (es.zipIdx.map fun p => name ++ toString p.2) =
        (List.range' 0 es.length).map fun j => name ++ toString j := by
      rw [← List.zipIdx_map_snd 0 es, List.map_map]
      rfl
    rw [List.map_cons, List.map_reverse, List.map_map, List.mem_cons, List.mem_reverse]
    simp only [Function.comp_def, hkeys]
    simp [Numbered, List.mem_range', eq_comm]
  · intro p hp
    rcases List.mem_cons.1 hp with rfl | hp
    · refine ⟨.nodes es fun e he => (hes e he).1, fun i => ?_⟩
      exact List.flatMap_eq_nil_iff.2 fun e he => by
        obtain ⟨e', he', rfl⟩ := List.mem_map.1 he
        exact (hes e' he').2 i
    · obtain ⟨⟨e, j⟩, hmem, rfl⟩ := List.mem_map.1 (List.mem_reverse.1 hp)
      have he := hes e (List.fst_mem_of_mem_zipIdx hmem)
      exact ⟨.node he.1, he.2⟩

/-- One environment for all runs, whose nodes are related to themselves. -/
theorem of_captured {env : Env} (hnamed : ∀ name, u.named name → P.Named name)
    (hpermits : env.Permits u)
    (h : ∀ x, u.reads x → ∀ e ∈ env.captured x, P.Node w (fun _ => e)) :
    P.Envs u w (fun _ => env) := by
  refine ⟨hnamed, fun x hx => ?_, fun _ => hpermits⟩
  have hnodes := h x hx
  unfold Env.captured at hnodes
  cases hlookup : env.lookup x with
  | none => exact .inl fun _ => rfl
  | some b =>
    rw [hlookup] at hnodes
    refine .inr ⟨fun _ => b, ?_, fun _ => rfl⟩
    cases b with
    | node e => exact .node (hnodes e List.mem_cons_self)
    | nodes es =>
      have hes : ∀ e ∈ es.map fun e (_ : ι) => e, P.Node w e := by
        intro e he
        obtain ⟨e', he', rfl⟩ := List.mem_map.1 he
        exact hnodes e' he'
      simpa [Function.comp_def] using Binds.nodes _ hes

end Envs

/-! ## Data -/

mutual

/-- Data is related to itself. -/
theorem related_ofDocument (P : Parallel ι) (w : P.World) :
    ∀ d : Document, P.Related w (fun _ => .ofDocument d)
  | .null => .literal .null
  | .bool b => .literal (.bool b)
  | .integer n => .literal (.ofInt n)
  | .float x => .literal (.float x)
  | .string s => .literal (.string s)
  | .array items => by
    have h := Related.array (P := P) (w := w) (items.map fun d _ => .ofDocument d) ?_
    · simpa [Argument.ofDocument, Function.comp_def] using h
    · intro a ha
      obtain ⟨d, hd, rfl⟩ := List.mem_map.1 ha
      exact related_ofDocuments P w items d hd
  | .object fields => by
    have h := Related.object (P := P) (w := w) (fields.map fun p => (p.1, fun _ =>
      .ofDocument p.2)) ?_
    · simpa [Argument.ofDocument, Function.comp_def] using h
    · intro p hp
      obtain ⟨p', hp', rfl⟩ := List.mem_map.1 hp
      exact related_ofFields P w fields p' hp'

theorem related_ofDocuments (P : Parallel ι) (w : P.World) :
    ∀ items : List Document, ∀ d ∈ items, P.Related w (fun _ => .ofDocument d)
  | [] => nofun
  | d :: rest => List.forall_mem_cons.2 ⟨related_ofDocument P w d, related_ofDocuments P w rest⟩

theorem related_ofFields (P : Parallel ι) (w : P.World) :
    ∀ fields : List (String × Document), ∀ p ∈ fields,
      P.Related w (fun _ => .ofDocument p.2)
  | [] => nofun
  | (_, d) :: rest =>
    List.forall_mem_cons.2 ⟨related_ofDocument P w d, related_ofFields P w rest⟩

end

/-! ## Terms -/

/-- Related arguments under the same names in every run. -/
def FieldsOf (P : Parallel ι) (w : P.World) (fields : ι → List (String × Argument)) : Prop :=
  ∃ as : List (String × (ι → Argument)), (fields = fun i => as.map fun p => (p.1, p.2 i)) ∧
    ∀ p ∈ as, P.Related w p.2

/-- Related operands of a builder, which declares permitted names only. -/
def OperandsOf (P : Parallel ι) (b : Builder) (w : P.World) (operands : ι → Operands) : Prop :=
  ∃ l : Alongside ι, (operands = l.inRun) ∧ (∀ p ∈ l, P.Related w p.2) ∧
    (b.form = .letIn → ∀ p ∈ l, ∀ name, p.1 = .entry name → P.Named name) ∧
    (b.form = .lambda → ∀ p ∈ l, p.1 = .field b.tag →
      ∀ i, ∀ name ∈ (p.2 i).offered, P.Named name)

theorem ends_elements {term : Program} (henv : P.Envs u w env) (h : term.Uses accessors u)
    (hrun : P.Ends P.Related w (fun i => term.run (P.numbering i) (env i))) :
    P.Ends (fun w as => ∃ n, Each (P.Related w) n as) w
      (fun i => term.runElements (P.numbering i) (env i)) := by
  cases term with
  | spread name => exact ends_pure (henv.arguments h)
  | _ =>
    refine ends_bind hrun fun w' a hlater ha => ends_pure ⟨1, [a], rfl, rfl, ?_⟩
    intro a' ha'
    exact List.mem_singleton.1 ha' ▸ ha

/-- What one term adds to the operands of a builder under a label. -/
theorem ends_operand {term : Program} {b : Builder} {label : Label} (henv : P.Envs u w env)
    (h : term.Uses accessors u) (hoffers : b.form = .lambda → label = .field b.tag →
      (∀ name, u.named name) ∨ term.Offers u)
    (hrun : P.Ends P.Related w (fun i => term.run (P.numbering i) (env i))) :
    P.Ends (fun w as => ∃ l : List (ι → Argument), (as = fun i => l.map (· i)) ∧
        (∀ a ∈ l, P.Related w a) ∧ (b.form = .lambda → label = .field b.tag →
          ∀ a ∈ l, ∀ i, ∀ name ∈ (a i).offered, P.Named name)) w
      (fun i => term.runElements (P.numbering i) (env i)) := by
  by_cases hbinding : b.form = .lambda ∧ label = .field b.tag ∧ ¬∀ name, u.named name
  · have hoffered := (hoffers hbinding.1 hbinding.2.1).resolve_left hbinding.2.2
    have hyields := (ends_elements henv h hrun).yields fun i =>
      Program.runElements_offers (P.numbering i) (henv.permits i) hoffered
        (Program.run_offers (P.numbering i) (henv.permits i) term hoffered)
    apply hyields.imp
    rintro w' _ - ⟨⟨n, l, rfl, -, hl⟩, hnamed⟩
    refine ⟨l, rfl, hl, fun _ _ a ha i name hname => henv.named name ?_⟩
    exact hnamed i (a i) (List.mem_map_of_mem ha) name hname
  · apply (ends_elements henv h hrun).imp
    rintro w' _ - ⟨n, l, rfl, -, hl⟩
    refine ⟨l, rfl, hl, fun hform hlabel a _ i name _ => henv.named name ?_⟩
    exact not_not.1 (fun hnot => hbinding ⟨hform, hlabel, hnot⟩) name

/-! ## Accessors -/

/-- What is found in related nodes is related, or nothing is found in any of them. -/
def Accessible (P : Parallel ι) : Prop :=
  ∀ {w : P.World} {e : ι → Expr} (step : Expr.Step), P.Node w e →
    (∀ i, (e i).step? step = none) ∨
      ∃ found, P.Node w found ∧ ∀ i, (e i).step? step = some (found i)

/-- The same of a whole path. -/
def Follows (P : Parallel ι) (path : List Expr.Step) : Prop :=
  ∀ {w : P.World} {e : ι → Expr}, P.Node w e → (∀ i, (e i).follow? path = none) ∨
    ∃ found, P.Node w found ∧ ∀ i, (e i).follow? path = some (found i)

theorem Accessible.follows (h : P.Accessible) (path : List Expr.Step) : P.Follows path := by
  intro w e he
  induction path generalizing e with
  | nil => exact .inr ⟨e, he, fun i => rfl⟩
  | cons step path ih =>
    simp only [Expr.follow?_cons]
    rcases h step he with hnone | ⟨found, hfound, hsome⟩
    · simp only [hnone]
      exact .inl fun _ => rfl
    · simp only [hsome]
      exact ih hfound

theorem ends_part {path : List Expr.Step} (h : P.Follows path) {r : ι → Except BuildError Expr}
    (hr : Agree (P.Node w) r) :
    P.Ends P.Related w (fun i => match r i with
      | .ok e => pure (((e.follow? path).map .node).getD .null)
      | .error error => pure (.failed error)) := by
  rcases hr with ⟨e, he, hok⟩ | ⟨error, herror⟩
  · simp only [hok]
    rcases h he with hnone | ⟨found, hfound, hsome⟩
    · simp only [hnone]
      exact ends_pure (.literal .null)
    · simp only [hsome]
      exact ends_pure (.node hfound)
  · simp only [herror]
    exact ends_pure (.failed error)

mutual

/-- Runs of one term in related environments end alike, with accessors where the paths that they
follow lead from related nodes to related nodes. -/
theorem ends_along [Nonempty ι] : ∀ (term : Program) {u : Usage} {w : P.World} {env : ι → Env},
    (accessors → ∀ path ∈ term.paths, P.Follows path) → P.Envs u w env →
      term.Uses accessors u → P.Ends P.Related w (fun i => term.run (P.numbering i) (env i))
  | .literal value, _, _, _, _, _, _ => ends_pure (.literal value)
  | .document value, _, w, _, _, _, _ => ends_pure (related_ofDocument P w value)
  | .list items, _, _, _, hpaths, henv, h => by
    apply ends_bind (ends_along_items items hpaths henv h)
    rintro w' _ - ⟨n, l, rfl, -, hl⟩
    exact ends_pure (.array l hl)
  | .object fields, _, _, _, hpaths, henv, h => by
    apply ends_bind (ends_along_fields fields hpaths henv h)
    rintro w' _ - ⟨l, rfl, hl⟩
    exact ends_pure (.object l hl)
  | .keyed fields, _, _, _, hpaths, henv, h => by
    apply ends_bind (ends_along_fields fields hpaths henv h)
    rintro w' _ - ⟨l, rfl, hl⟩
    have hsorted := fun i => Fields.sorted_map (fun a : ι → Argument => a i) l
    simp only [hsorted]
    exact ends_pure (.object _ fun p hp => hl p (Fields.mem_of_mem_sorted hp))
  | .get name, _, _, _, _, henv, h => ends_pure (henv.argument h)
  | .spread name, _, _, _, _, henv, h => by
    obtain ⟨n, l, hl, -, hrelated⟩ := henv.arguments h
    have hargs := congrFun hl
    simp only [Program.run, hargs]
    exact ends_pure (.array l hrelated)
  | .leaf value, _, w, _, _, henv, h => by
    refine ends_pure (.node (P.node_leaf w value ?_))
    rintro name rfl
    exact henv.named name h
  | .call builder operands, _, _, _, hpaths, henv, h => by
    apply ends_bind (ends_along_operands operands hpaths henv h)
    rintro w' _ - ⟨l, rfl, hl, hnames, hoffered⟩
    exact ends_captured (ends_build builder hl hnames hoffered)
  | .function parameters body, u, _, _, hpaths, henv, h => by
    refine ends_pure (.function fun tag w' es hinside hlength hes => ?_)
    have hbody := ends_along body hpaths ((henv.mono hinside).bindAll hlength hes) h
    exact ends_bind hbody fun w'' a _ ha => ends_normalizeLambda ha tag
  | .functionOf arity name body, _, _, _, hpaths, henv, h => by
    refine ends_pure (.function fun tag w' es hinside hlength hes => ?_)
    subst hlength
    have hbody := ends_along body hpaths ((henv.mono hinside).bindNumbered name hes) h
    exact ends_bind hbody fun w'' a _ ha => ends_normalizeLambda ha tag
  | .normalize term tag, _, _, _, hpaths, henv, h =>
    ends_bind (ends_along term hpaths henv h) fun w' a _ ha =>
      ends_pure (related_ofExcept (agree_normalize ha tag))
  | .normalizeLambda term tag, _, _, _, hpaths, henv, h =>
    ends_bind (ends_along term hpaths henv h) fun w' a _ ha =>
      ends_captured (ends_normalizeLambda ha tag)
  | .part term path, _, _, _, hpaths, henv, h => by
    obtain ⟨hpath, hterm⟩ := List.forall_mem_cons.1 (hpaths h.1)
    apply ends_bind (ends_along term (fun _ => hterm) henv h.2)
    intro w' a _ ha
    exact ends_part hpath (agree_normalize ha "part")
  | .fail error, _, _, _, _, _, _ => ends_pure (.failed error)
  | .throw message, _, _, _, _, _, _ => ends_stop (Build.throw message) _ fun _ => rfl
  | .attempt term fallback, _, _, _, hpaths, henv, h => by
    have hterm := fun ha => (List.forall_mem_append.1 (hpaths ha)).1
    have hfallback := fun ha => (List.forall_mem_append.1 (hpaths ha)).2
    exact ends_catching (ends_along term hterm henv h.1) fun w' hlater =>
      ends_along fallback hfallback (henv.mono (P.inside_of_later hlater)) h.2
  | .orElse term fallback, _, _, _, hpaths, henv, h => by
    have hterm := fun ha => (List.forall_mem_append.1 (hpaths ha)).1
    have hfallback := fun ha => (List.forall_mem_append.1 (hpaths ha)).2
    exact ends_replacingFailure (ends_along term hterm henv h.1) fun w' hlater =>
      ends_along fallback hfallback (henv.mono (P.inside_of_later hlater)) h.2

theorem ends_along_items [Nonempty ι] : ∀ (items : List Program) {u : Usage} {w : P.World}
    {env : ι → Env}, (accessors → ∀ path ∈ Program.pathsItems items, P.Follows path) →
      P.Envs u w env → Program.UsesItems accessors u items →
      P.Ends (fun w as => ∃ n, Each (P.Related w) n as) w
        (fun i => Program.runItems (P.numbering i) (env i) items)
  | [], _, _, _, _, _, _ => ends_pure (a := fun _ => []) ⟨0, [], rfl, rfl, nofun⟩
  | term :: rest, _, _, _, hpaths, henv, h => by
    have hterm := fun ha => (List.forall_mem_append.1 (hpaths ha)).1
    have hrest := fun ha => (List.forall_mem_append.1 (hpaths ha)).2
    simp only [Program.runItems_cons]
    apply ends_bind (ends_elements henv h.1 (ends_along term hterm henv h.1))
    rintro w' _ hlater ⟨n, l, rfl, hn, hl⟩
    apply ends_bind (ends_along_items rest hrest (henv.mono (P.inside_of_later hlater)) h.2)
    rintro w'' _ hlater' ⟨n', l', rfl, hn', hl'⟩
    simp only [← List.map_append]
    refine ends_pure ⟨_, l ++ l', rfl, rfl, List.forall_mem_append.2 ⟨fun a ha => ?_, hl'⟩⟩
    exact (hl a ha).mono (P.inside_of_later hlater')

theorem ends_along_fields [Nonempty ι] : ∀ (fields : List (String × Program)) {u : Usage}
    {w : P.World} {env : ι → Env},
    (accessors → ∀ path ∈ Program.pathsFields fields, P.Follows path) →
      P.Envs u w env → Program.UsesFields accessors u fields →
      P.Ends P.FieldsOf w (fun i => Program.runFields (P.numbering i) (env i) fields)
  | [], _, _, _, _, _, _ => ends_pure (a := fun _ => []) ⟨[], rfl, nofun⟩
  | (name, term) :: rest, _, _, _, hpaths, henv, h => by
    have hterm := fun ha => (List.forall_mem_append.1 (hpaths ha)).1
    have hrest := fun ha => (List.forall_mem_append.1 (hpaths ha)).2
    simp only [Program.runFields]
    apply ends_bind (ends_along term hterm henv h.1)
    intro w' a hlater ha
    apply ends_bind (ends_along_fields rest hrest (henv.mono (P.inside_of_later hlater)) h.2)
    rintro w'' _ hlater' ⟨l, rfl, hl⟩
    have ha' := ha.mono (P.inside_of_later hlater')
    exact ends_pure ⟨(name, a) :: l, rfl, List.forall_mem_cons.2 ⟨ha', hl⟩⟩

theorem ends_along_operands [Nonempty ι] : ∀ (operands : List (Label × Program)) {b : Builder}
    {u : Usage} {w : P.World} {env : ι → Env},
    (accessors → ∀ path ∈ Program.pathsOperands operands, P.Follows path) →
      P.Envs u w env → Program.UsesOperands accessors u b operands →
      P.Ends (P.OperandsOf b) w
        (fun i => Program.runOperands (P.numbering i) (env i) operands)
  | [], _, _, _, _, _, _, _ => ends_pure (a := fun _ => []) ⟨[], rfl, nofun, nofun, nofun⟩
  | (label, term) :: rest, b, u, w, env, hpaths, henv, h => by
    have hpathsTerm := fun ha => (List.forall_mem_append.1 (hpaths ha)).1
    have hpathsRest := fun ha => (List.forall_mem_append.1 (hpaths ha)).2
    obtain ⟨hterm, hnames, hoffers, hrest⟩ := h
    simp only [Program.runOperands_cons]
    apply ends_bind (ends_operand henv hterm hoffers (ends_along term hpathsTerm henv hterm))
    rintro w' _ hlater ⟨l, rfl, hl, hdeclared⟩
    have henv' := henv.mono (P.inside_of_later hlater)
    apply ends_bind (ends_along_operands rest hpathsRest henv' hrest)
    rintro w'' _ hlater' ⟨l', rfl, hl', hnames', hoffered'⟩
    have hmap : ∀ i, (l.map (· i)).map (label, ·) ++ l'.inRun i =
        Alongside.inRun (l.map (label, ·) ++ l') i := fun i => by
      simp [Alongside.inRun, Function.comp_def]
    simp only [hmap]
    refine ends_pure ⟨_, rfl, ?_, fun hform => ?_, fun hform => ?_⟩
    · refine List.forall_mem_append.2 ⟨fun p hp => ?_, hl'⟩
      obtain ⟨a, ha, rfl⟩ := List.mem_map.1 hp
      exact (hl a ha).mono (P.inside_of_later hlater')
    · refine List.forall_mem_append.2 ⟨fun p hp name hname => ?_, hnames' hform⟩
      obtain ⟨a, ha, rfl⟩ := List.mem_map.1 hp
      exact henv.named name (hnames hform name hname)
    · refine List.forall_mem_append.2 ⟨fun p hp hlabel => ?_, hoffered' hform⟩
      obtain ⟨a, ha, rfl⟩ := List.mem_map.1 hp
      exact hdeclared hform hlabel a ha

end

/-- Runs of one term in related environments end alike, with any accessors where nodes are
accessible. -/
theorem ends_uses [Nonempty ι] (haccess : accessors → P.Accessible) (term : Program) {u : Usage}
    {w : P.World} {env : ι → Env} (henv : P.Envs u w env) (h : term.Uses accessors u) :
    P.Ends P.Related w (fun i => term.run (P.numbering i) (env i)) :=
  ends_along term (fun ha path _ => Accessible.follows (haccess ha) path) henv h

/-- Builds of one term in related environments end alike. -/
theorem ends_build_along [Nonempty ι] {term : Program}
    (hpaths : accessors → ∀ path ∈ term.paths, P.Follows path) (henv : P.Envs u w env)
    (h : term.Uses accessors u) : P.Ends P.Node w (fun i => term.build (P.numbering i) (env i)) :=
  ends_bind (ends_along term hpaths henv h) fun _ _ _ ha =>
    ends_ofExcept (agree_normalize ha "build")

theorem ends_build_of_uses [Nonempty ι] (haccess : accessors → P.Accessible) {term : Program}
    (henv : P.Envs u w env) (h : term.Uses accessors u) :
    P.Ends P.Node w (fun i => term.build (P.numbering i) (env i)) :=
  ends_build_along (fun ha path _ => Accessible.follows (haccess ha) path) henv h

theorem ends_term [Nonempty ι] {term : Program} (henv : P.Envs u w env) (h : term.Within u) :
    P.Ends P.Node w (fun i => term.build (P.numbering i) (env i)) :=
  ends_build_of_uses False.elim henv (Program.uses_of_within term h)

/-- What one run by depth builds in an environment of its nodes is a node of it. -/
theorem node_of_build {P : Parallel Unit} {w : P.World} (hdepth : P.numbering () = .byDepth)
    (hnamed : ∀ name, P.Named name) {env : Env}
    (hnode : ∀ x e, env.lookup x = some (.node e) → P.Node w (fun _ => e))
    (hnodes : ∀ x es, env.lookup x = some (.nodes es) → ∀ e ∈ es, P.Node w (fun _ => e))
    {term : Program} (hpaths : accessors → ∀ path ∈ term.paths, P.Follows path)
    (huses : term.Uses accessors .free) {e : Expr} {atEnd : Nat}
    (hbuild : term.build .byDepth env (P.count w ()) = .ok e atEnd) :
    ∃ w', P.Node w' (fun _ => e) := by
  have henv : P.Envs .free w (fun _ => env) := by
    refine .of_captured (fun name _ => hnamed name) (fun _ _ _ _ => trivial) fun x _ e he => ?_
    rcases Env.mem_captured.1 he with hlookup | ⟨es, hlookup, he⟩
    · exact hnode x e hlookup
    · exact hnodes x es hlookup e he
  obtain ⟨w', -, ⟨e', he', hok⟩ | ⟨stop, hstop⟩⟩ := ends_build_along hpaths henv huses
  · have hrun : term.build (P.numbering ()) env (P.count w ()) = .ok (e' ()) (P.count w' ()) :=
      hok ()
    rw [hdepth, hbuild] at hrun
    cases hrun
    exact ⟨w', he'⟩
  · have hrun : term.build (P.numbering ()) env (P.count w ()) = .error stop (P.count w' ()) :=
      hstop ()
    rw [hdepth, hbuild] at hrun
    cases hrun

end Parallel

end QueryTree
