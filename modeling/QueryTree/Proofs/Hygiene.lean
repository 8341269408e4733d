import QueryTree.Proofs.Calls

/-!
# Hygiene of implicit names

A term that names no implicit variable itself is built by depth. A function call is handed the
parameters of the lambda that is made from it. Built afresh, where a number belongs to one parameter
of one function call, the term gives a node of the same resolved form: a variable refers to the
lambda and the parameter that it was handed for, although by depth a name may stand at several
places of a tree.
-/

namespace QueryTree

open QueryTree.Expr

/-! ## Fresh numbers -/

/-- One run afresh, whose count goes on. -/
def advancing : Parallel Unit where
  numbering _ := .afresh
  World := Nat
  count w _ := w
  Later w w' := w ≤ w'
  Inside _ _ := True
  enter := Nat.add
  Named _ := True
  Node _ _ := True
  later_refl := Nat.le_refl
  later_trans := Nat.le_trans
  inside_of_later _ := trivial
  inside_trans _ _ := trivial
  inside_enter _ _ := trivial
  count_enter _ _ _ := rfl
  node_mono _ h := h
  string_eq _ _ _ := rfl
  names_eq _ _ _ _ := rfl
  node_literal _ _ := trivial
  node_array _ _ := trivial
  node_object _ _ _ := trivial
  node_leaf _ _ _ := trivial
  node_operation _ _ _ _ _ := trivial
  node_let _ _ _ _ _ := trivial
  node_lambda _ _ _ _ := trivial
  node_handed _ _ _ _ := trivial
  leave h := ⟨_, Nat.le_trans (Nat.le_add_right _ _) h, fun _ => rfl⟩
  node_leave _ h _ := ⟨_, Nat.le_trans (Nat.le_add_right _ _) h, fun _ => rfl, trivial⟩

theorem accessible_advancing : advancing.Accessible := by
  intro w e step _
  cases hfound : (e ()).step? step with
  | none => exact .inl fun _ => hfound
  | some found => exact .inr ⟨fun _ => found, trivial, fun _ => hfound⟩

/-- A term that is run afresh gives back no number. -/
theorem Program.le_endCount_run (env : Env) (term : Program) (bound : Nat) :
    bound ≤ Build.endCount (term.run .afresh env bound) := by
  have henv : advancing.Envs .free bound fun _ => env :=
    .of_captured (fun _ _ => trivial) (fun _ _ _ _ => trivial) fun _ _ _ _ => trivial
  obtain ⟨w, hlater, hend⟩ := exists_endCount env accessible_advancing henv term
  exact Nat.le_trans hlater (Nat.le_of_eq hend.symm)

/-! ## Builds by depth and afresh -/

/-- The usage of a term that names no implicit variable, and reads some of the names of an
environment. -/
def Usage.explicit (reads : String → Prop) (env : Env) : Usage := .naming Explicit reads env

/-- Earlier builds by depth. The names of those that use no implicit name themselves may be read. -/
inductive Earlier : (reads : String → Prop) → Env → Prop
  | start : Earlier (fun _ => True) []
  | built {reads env} {term : Program} {e atEnd} (name : String) :
      Earlier reads env → term.Within (.explicit reads env) →
      term.build .byDepth env 0 = .ok e atEnd →
      Earlier (fun x => x = name ∨ reads x) (env.bind name e)
  | other {reads env} (name : String) (b : Binding) : Earlier reads env →
      Earlier (fun x => x ≠ name ∧ reads x) ((name, b) :: env)

/-- The same builds afresh, with the next fresh number. -/
inductive Renewed : (reads : String → Prop) → (env fresh : Env) → (next : Nat) → Prop
  | start : Renewed (fun _ => True) [] [] 0
  | built {reads env fresh next} {term : Program} {e u atEnd next'} (name : String) :
      Renewed reads env fresh next → term.build .byDepth env 0 = .ok e atEnd →
      term.build .afresh fresh next = .ok u next' →
      Renewed (fun x => x = name ∨ reads x) (env.bind name e) (fresh.bind name u) next'
  | other {reads env fresh next} (name : String) (b b' : Binding) : Renewed reads env fresh next →
      Renewed (fun x => x ≠ name ∧ reads x) ((name, b) :: env) ((name, b') :: fresh) next

/-- The environments of both runs. -/
def bothEnvs (env fresh : Env) : Numbering → Env
  | .byDepth => env
  | .afresh => fresh

/-- Runs of a whole term, with no variable bound around it. -/
def Outset.outermost : Outset := .numbered 0 0

/-- No variable is in scope, and no lambda has been built. -/
def Scope.outside : Scope .outermost := ⟨[], 0, fun _ => none, nofun, nofun, Nat.le_refl _⟩

/-- What a name stands for in both environments. -/
def Alike (w : Scope .outermost) (env fresh : Env) (x : String) : Prop :=
  (∀ i, (bothEnvs env fresh i).lookup x = none) ∨
    ∃ b, (twofold .outermost).Binds w b ∧ ∀ i, (bothEnvs env fresh i).lookup x = some (b i)

theorem Alike.offered_eq {w : Scope .outermost} {env fresh : Env} {x : String}
    (h : Alike w env fresh x) (i : Numbering) :
    (bothEnvs env fresh i).offered x = env.offered x := by
  show _ = (bothEnvs env fresh .byDepth).offered x
  unfold Env.offered
  rcases h with hnone | ⟨b, hb, hsome⟩
  · rw [hnone, hnone]
  · rw [hsome, hsome]
    cases hb with
    | node he => exact he.shaped.offered_eq i .byDepth
    | nodes es hes =>
      simp only [Option.map_some, Option.getD_some, Binding.offered, List.flatMap_map]
      exact List.flatMap_congr fun e he => (hes e he).shaped.offered_eq i .byDepth

theorem envs_explicit {reads : String → Prop} {w : Scope .outermost} {env fresh : Env}
    (h : ∀ x, reads x → Alike w env fresh x) :
    (twofold .outermost).Envs (.explicit reads env) w (bothEnvs env fresh) := by
  refine ⟨fun _ h => ⟨h, List.not_mem_nil⟩, h, fun i x hx name hname => hx.2 name ?_⟩
  rw [(h x hx.1).offered_eq i] at hname
  exact hname

theorem Alike.mono {w w' : Scope .outermost} (h : w.Inside w') {env fresh : Env} {x : String}
    (hx : Alike w env fresh x) : Alike w' env fresh x := by
  rcases hx with hnone | ⟨b, hb, hsome⟩
  · exact .inl hnone
  · exact .inr ⟨b, hb.mono h, hsome⟩

/-- Clean builds in related environments give related nodes. -/
theorem build_twofold {reads : String → Prop} {env fresh : Env} {w : Scope .outermost}
    (hw : w.numbers = [])
    (henv : (twofold .outermost).Envs (.explicit reads env) w (bothEnvs env fresh))
    {term : Program} (hterm : term.Within (.explicit reads env)) {e : Expr} {atEnd : Nat}
    (hbuild : term.build .byDepth env 0 = .ok e atEnd) :
    atEnd = 0 ∧ ∃ (w' : Scope .outermost) (u : Expr), w.Later w' ∧
      term.build .afresh fresh w.next = .ok u w'.next ∧ w'.Node fun
        | .byDepth => e
        | .afresh => u := by
  have hcount : ∀ v : Scope .outermost, v.numbers = [] →
      (twofold .outermost).count v .byDepth = 0 := by
    intro v hv
    show v.numbers.length - 0 = 0
    rw [hv]
    rfl
  obtain ⟨w', hlater, ⟨both, hboth, hok⟩ | ⟨stop, hstop⟩⟩ := Parallel.ends_term henv hterm
  · have hdepth := hok .byDepth
    rw [hcount w hw, hcount w' (hlater.1.trans hw)] at hdepth
    injection hdepth.symm.trans hbuild with hnode hatEnd
    refine ⟨hatEnd.symm, w', both .afresh, hlater, hok .afresh, ?_⟩
    have hfamily : (fun
        | .byDepth => e
        | .afresh => both .afresh : Numbering → Expr) = both := by
      funext i
      cases i
      · exact hnode.symm
      · rfl
    rw [hfamily]
    exact hboth
  · have hdepth := hstop .byDepth
    rw [hcount w hw] at hdepth
    cases hdepth.symm.trans hbuild

/-- A name that is bound in front of both environments. -/
theorem alike_cons {w : Scope .outermost} {env fresh : Env} {name x : String} {b b' : Binding}
    (h : name ≠ x → Alike w env fresh x)
    (hname : name = x → (twofold .outermost).Binds w fun
      | .byDepth => b
      | .afresh => b') :
    Alike w ((name, b) :: env) ((name, b') :: fresh) x := by
  have hlookup : ∀ i, (bothEnvs ((name, b) :: env) ((name, b') :: fresh) i).lookup x =
      if name = x then some (match i with
        | .byDepth => b
        | .afresh => b') else (bothEnvs env fresh i).lookup x := by
    intro i
    cases i <;> exact Fields.lookup_cons _ _ _ _
  unfold Alike
  simp only [hlookup]
  by_cases hx : name = x
  · simp only [if_pos hx]
    exact .inr ⟨_, hname hx, fun i => by cases i <;> rfl⟩
  · simp only [if_neg hx]
    exact h hx

/-- Earlier builds can be made afresh, and what may be read is alike. -/
theorem Earlier.renewed {reads : String → Prop} {env : Env} (h : Earlier reads env) :
    ∃ (fresh : Env) (w : Scope .outermost), w.numbers = [] ∧
      Renewed reads env fresh w.next ∧ ∀ x, reads x → Alike w env fresh x := by
  induction h with
  | start => exact ⟨[], .outside, rfl, .start, fun x _ => .inl fun i => by cases i <;> rfl⟩
  | built name hearlier hterm hbuild ih =>
    rename_i reads env term e atEnd
    obtain ⟨fresh, w, hnumbers, hrenewed, halike⟩ := ih
    obtain ⟨-, w', u, hlater, hfresh, hnode⟩ :=
      build_twofold hnumbers (envs_explicit halike) hterm hbuild
    refine ⟨fresh.bind name u, w', hlater.1.trans hnumbers, .built name hrenewed hbuild hfresh,
      fun x hx => alike_cons (fun hname => ?_) fun _ => ?_⟩
    · have hinside : w.Inside w' := (twofold .outermost).inside_of_later hlater
      exact (halike x (hx.resolve_left (Ne.symm hname))).mono hinside
    · have hbinding : (fun
          | .byDepth => Binding.node e
          | .afresh => Binding.node u : Numbering → Binding) = fun i => .node (match i with
            | .byDepth => e
            | .afresh => u) := by
        funext i
        cases i <;> rfl
      rw [hbinding]
      exact .node hnode
  | other name b hearlier ih =>
    obtain ⟨fresh, w, hnumbers, hrenewed, halike⟩ := ih
    refine ⟨(name, b) :: fresh, w, hnumbers, .other name b b hrenewed, fun x hx => ?_⟩
    exact alike_cons (fun _ => halike x hx.2) fun hname => absurd hname.symm hx.1

/-- A build by depth leaves no variable in scope and takes no implicit name from around it. In any
numbering a lambda position hands its function one variable for each parameter of the lambda that it
makes, in the same order, and each call in the build stands in a node that declares what it is
handed. Built afresh, where no number is given twice, the term has the same resolved form, and each
implicit name is declared by one lambda only, which declares all the names that were handed out with
it: a variable refers to the very function call and to the parameter that it was handed for. -/
theorem Earlier.build_hygienic {reads : String → Prop} {env : Env} (h : Earlier reads env)
    {term : Program} (hterm : term.Within (.explicit reads env)) {e : Expr} {atEnd : Nat}
    (hbuild : term.build .byDepth env 0 = .ok e atEnd) :
    (atEnd = 0 ∧ ∀ k, implicitName k ∉ e.free) ∧
    (∀ (numbering : Numbering) (tag : String) (n : Nat) (function : List Expr → Build Argument)
        (bound : Nat), n ≠ 0 →
      ∃ (names : List String) (form : Expr → Expr), names = implicitNames bound n ∧
        names.length = n ∧ names.Nodup ∧ (∀ body : Expr, body.Under names (form body)) ∧
        (Argument.function n function).normalizeLambda numbering tag bound =
          match function (names.map variableNode) (bound + n) with
          | .ok given middle =>
            match given.normalizeLambda numbering tag middle with
            | .ok body atEnd => .ok (form body) (numbering.leave bound atEnd)
            | .error stop atEnd => .error stop (numbering.leave bound atEnd)
          | .error stop atEnd => .error stop (numbering.leave bound atEnd)) ∧
    (∀ (more : Nat) (env' : Env) (f : Program) (es : List Expr) (bound : Nat),
      Reaches (.term env term) 0 more (.host env' f es) bound →
      ∃ names, f.arity? = some names.length ∧ es = names.map variableNode ∧
        ∃ env₁ caller first n, Reaches (.term env term) 0 n (.term env₁ caller) first ∧
          ∀ e atEnd, caller.run .byDepth env₁ first = .ok (.node e) atEnd →
            e.Frames names env' f es bound) ∧
    (∀ (env' : Env) (part : Program) (bound : Nat),
      bound ≤ Build.endCount (part.run .afresh env' bound)) ∧
    ∃ fresh next u next', Renewed reads env fresh next ∧
      term.build .afresh fresh next = .ok u next' ∧ e.resolved [] = u.resolved [] ∧
      u.DeclaresOnce ∧ ∀ s ∈ u.subterms, ∀ k, implicitName k ∈ s.declares →
        ∃ first n, s.declares = implicitNames first n := by
  obtain ⟨fresh, w, hnumbers, hrenewed, halike⟩ := h.renewed
  obtain ⟨hatEnd, w', u, hlater, hfresh, hnode⟩ :=
    build_twofold hnumbers (envs_explicit halike) hterm hbuild
  have houtside : w'.Covers ([], []) := by
    refine ⟨fun i k hk => ?_, fun _ _ => rfl⟩
    rw [hlater.1, hnumbers] at hk
    cases hk
  have howns : ∀ s ∈ u.subterms, ∀ k, implicitName k ∈ s.declares →
      w'.owner k = some s ∧ ∃ first n, s.declares = implicitNames first n :=
    fun s hs k hk => hnode.owns s hs k (Nat.zero_le _) hk
  refine ⟨⟨hatEnd, fun k hk => ?_⟩, ?_, ?_, Program.le_endCount_run, fresh, w.next, u, w'.next,
    hrenewed, hfresh, hnode.resolved_eq _ houtside, ?_, ?_⟩
  · obtain ⟨s, hs, hrefers⟩ := List.mem_flatMap.1 hk
    exact hnode.explicit _ houtside s hs _ hrefers k rfl
  · intro numbering tag n function bound hn
    refine ⟨implicitNames bound n, lambdaNode (parameterNode (implicitNames bound n)), rfl,
      length_implicitNames bound n, nodup_implicitNames bound n, ?_, ?_⟩
    · exact fun body => .lambda (lists_parameterNode _)
    · exact Argument.normalizeLambda_of_ne_zero hn numbering tag function bound
  · intro more env' f es bound hreaches
    exact hreaches.handed
  · intro s hs t ht k hk hk'
    exact Option.some.inj ((howns s hs k hk).1.symm.trans (howns t ht k hk').1)
  · exact fun s hs k hk => (howns s hs k hk).2

/-- A node that was built before is used under a lambda that reuses its name. -/
theorem build_hygienic_reused :
    let f : Program := .function ["y", "z"] (.list [.get "f", .get "z", .get "y"])
    let term : Program := .lambdaOf f
    let name := implicitName 0
    let other := implicitName 1
    let identity := lambdaNode (.string name) (variableNode name)
    let env : Env := [("f", .node identity)]
    let e := lambdaNode (.array [.string name, .string other])
      (.array [identity, variableNode other, variableNode name])
    let giving : List Expr → Build Argument := fun es bound => .ok (.array (es.map .node)) bound
    (∀ k, implicitName k ∉ e.free) ∧
    (∃ form : Expr → Expr, (∀ body : Expr, body.Under (implicitNames 5 2) (form body)) ∧
      (Argument.function 2 giving).normalizeLambda .afresh "map" 5 =
        .ok (form (.array [variableNode (implicitName 5), variableNode (implicitName 6)])) 7) ∧
    (∃ names, f.arity? = some names.length ∧
      [variableNode name, variableNode other] = names.map variableNode ∧
      ∃ env₁ caller first n, Reaches (.term env term) 0 n (.term env₁ caller) first ∧
        ∀ e atEnd, caller.run .byDepth env₁ first = .ok (.node e) atEnd →
          e.Frames names env f [variableNode name, variableNode other] 2) ∧
    5 ≤ Build.endCount (term.run .afresh env 5) ∧
    ∃ fresh next u next', Renewed (fun x => x = "f" ∨ True) env fresh next ∧
      term.build .afresh fresh next = .ok u next' ∧ e.resolved [] = u.resolved [] ∧
      u.DeclaresOnce ∧ ∀ s ∈ u.subterms, ∀ k, implicitName k ∈ s.declares →
        ∃ first n, s.declares = implicitNames first n := by
  intro f term name other identity env e giving
  have hfirst : Program.Within (.explicit (fun _ => True) [])
      (.lambdaOf (.function ["x"] (.get "x"))) := by
    simp [Program.lambdaOf, Program.Within, Usage.under]
  have hterm : term.Within (.explicit (fun x => x = "f" ∨ True) env) := by
    simp [term, f, Program.lambdaOf, Program.Within, Program.WithinItems, Usage.under,
      Usage.explicit, Usage.naming]
  have hbuild : term.build .byDepth env 0 = .ok e 0 := rfl
  have hhost : Reaches (.term env term) 0 2
      (.host env f [variableNode name, variableNode other]) 2 := Reaches.body rfl env 0
  obtain ⟨⟨-, hfree⟩, hhanded, hcalls, hfresh, hsame⟩ :=
    (Earlier.built "f" .start hfirst rfl).build_hygienic hterm hbuild
  obtain ⟨names, form, rfl, -, -, hunder, hnode⟩ := hhanded .afresh "map" 2 giving 5 (by decide)
  exact ⟨hfree, ⟨form, hunder, hnode⟩, hcalls 2 env f _ 2 hhost, hfresh env term 5, hsame⟩

end QueryTree
