import QueryTree.Proofs.Threefold
import QueryTree.Proofs.Twofold

/-!
# Native and explicit lambdas

A host function becomes a lambda with implicit parameters, or the body of a lambda under names that
are given. Both end alike, and the bodies differ in the names of parameters only.
-/

namespace QueryTree

open QueryTree.Expr

/-! ## Lambda terms -/

namespace Program

/-- The term for declared names: a single one stands alone. -/
def namesTerm : List String → Program
  | [name] => .literal (.string name)
  | names => .list (names.map fun name => .literal (.string name))

/-- A lambda node with declared names, from a host function. -/
def lambdaWith (lambda : Builder) (names : List String) (function : Program) : Program :=
  .call lambda [(.field lambda.tag, namesTerm names), (.field "expr", function)]

theorem runItems_strings (numbering : Numbering) (env : Env) (names : List String) :
    runItems numbering env (names.map fun name => .literal (.string name)) =
      pure (names.map fun name => .literal (.string name)) := by
  induction names with
  | nil => rfl
  | cons name rest ih =>
    rw [List.map_cons, runItems_cons, ih]
    rfl

theorem run_namesTerm (numbering : Numbering) (env : Env) (tag : String) (names : List String) :
    ∃ a, run numbering env (namesTerm names) = pure a ∧
      a.bindingNames tag = .ok (parameterNode names, names) := by
  match names with
  | [name] => exact ⟨_, rfl, rfl⟩
  | [] => exact ⟨.array [], rfl, rfl⟩
  | name :: other :: rest =>
    refine ⟨.array ((name :: other :: rest).map fun name => .literal (.string name)), ?_, ?_⟩
    · simp only [namesTerm, run, runItems_strings]
      rfl
    · have hdeclared : ∀ names : List String,
          (names.map fun name => Argument.literal (.string name)).mapM
            (Argument.declaredName tag) = .ok names := by
        intro names
        induction names with
        | nil => rfl
        | cons name rest ih =>
          rw [List.map_cons, List.mapM_cons, ih]
          rfl
      simp only [Argument.bindingNames, hdeclared]
      rfl

end Program

/-- A failure that was captured fails again. -/
theorem Build.captured_normalize (x : Build Expr) (tag : String) :
    (do Build.ofExcept ((← x.captured).normalize tag)) = x := by
  funext bound
  simp only [captured, bind_apply, outcome]
  cases hx : x bound with
  | ok e atEnd => rfl
  | error stop atEnd => cases stop <;> rfl

namespace Program

variable {f : Program} {n : Nat} (numbering : Numbering) (env : Env)

theorem build_lambdaOf (h : f.arity? = some (n + 1)) : (lambdaOf f).build numbering env =
    Build.binding numbering (n + 1) fun first => do
      return lambdaNode (parameterNode (implicitNames first (n + 1)))
        (← Argument.enter numbering "lambda" (f.hosted numbering env)
          ((implicitNames first (n + 1)).map variableNode)) := by
  have hrun : (lambdaOf f).run numbering env =
      ((Argument.function (n + 1) (f.hosted numbering env)).normalizeLambda numbering
        "lambda").captured := by
    simp only [lambdaOf, run, run_function h]
    rfl
  rw [build, hrun, Build.captured_normalize]
  exact Argument.normalizeLambda_function numbering "lambda" n _

theorem build_lambdaWith {lambda : Builder} (hlambda : lambda.form = .lambda) {names : List String}
    (h : f.arity? = some names.length) : (lambdaWith lambda names f).build numbering env = do
      return lambdaNode (parameterNode names)
        (← Argument.enter numbering "lambda" (f.hosted numbering env)
          (names.map variableNode)) := by
  have htag : lambda.tag = "lambda" := Builder.tag_of_lambda hlambda
  obtain ⟨a, hrun, hnames⟩ := run_namesTerm numbering env "lambda" names
  let operands : Operands :=
    [(.field "lambda", a), (.field "expr", .function names.length (f.hosted numbering env))]
  have hoperands : runOperands numbering env
      [(.field "lambda", namesTerm names), (.field "expr", f)] = pure operands := by
    have hterm : ∀ name, namesTerm names ≠ .spread name := by
      intro name
      match names with
      | [] | [_] | _ :: _ :: _ => exact nofun
    have hf : ∀ name, f ≠ .spread name := by
      rintro name rfl
      cases h
    rw [runOperands_cons, runOperands_cons, runElements_of_ne _ _ hterm, runElements_of_ne _ _ hf,
      hrun, run_function h]
    rfl
  have hbuild : lambda.build numbering operands = do
      return lambdaNode (parameterNode names)
        (← Argument.enter numbering "lambda" (f.hosted numbering env)
          (names.map variableNode)) := by
    have hfield : operands.field "lambda" = a := by
      simp [operands, Operands.field, Operands.field?]
    have hbody : operands.field "expr" =
        .function names.length (f.hosted numbering env) := by
      simp [operands, Operands.field, Operands.field?]
    rw [Builder.build, hlambda, htag, Form.build, Form.buildLambda, hfield, hbody, hnames]
    have hnormalized : Argument.normalizeBody numbering "lambda" names
        (.function names.length (f.hosted numbering env)) =
          Argument.enter numbering "lambda" (f.hosted numbering env) (names.map variableNode) :=
      if_pos rfl
    rw [← hnormalized]
    rfl
  have hcall : (lambdaWith lambda names f).run numbering env =
      (lambda.build numbering operands).captured := by
    rw [lambdaWith, run, htag, hoperands]
    rfl
  rw [build, hcall, Build.captured_normalize, hbuild]

end Program

/-! ## Captured nodes -/

theorem Env.exists_numbersBelow (env : Env) : ∃ bound, ∀ x, ∀ e ∈ env.captured x,
    e.Everywhere (NumbersBelow bound) := by
  obtain ⟨bound, hbound⟩ := Expr.exists_numbersBelow (env.flatMap fun p => p.2.exprs)
  refine ⟨bound, fun x e he => hbound e ?_⟩
  rcases Env.mem_captured.1 he with hnode | ⟨es, hnodes, he⟩
  · exact List.mem_flatMap.2 ⟨_, Fields.mem_of_lookup hnode, List.mem_singleton.2 rfl⟩
  · exact List.mem_flatMap.2 ⟨_, Fields.mem_of_lookup hnodes, he⟩

namespace Parallel

variable {ι : Type} {P : Parallel ι} {w : P.World}

theorem envs_captured {named reads : String → Prop} {env : Env}
    (hnamed : ∀ name, named name → P.Named name)
    (h : ∀ x, reads x → ∀ e ∈ env.captured x, P.Node w (fun _ => e)) :
    P.Envs (.naming named reads env) w (fun _ => env) :=
  .of_captured hnamed (fun _ hx => hx.2) h

/-- Host functions of one term, called with related variables, end alike. -/
theorem ends_hosted_of_uses [Nonempty ι] {accessors : Prop} (haccess : accessors → P.Accessible)
    {u : Usage} {env : ι → Env} {f : Program} {n : Nat} (hf : f.arity? = some n)
    (henv : P.Envs u w env) (h : f.Uses accessors u) (tag : String) {es : List (ι → Expr)}
    (hlength : es.length = n) (hes : ∀ e ∈ es, P.Handed w e) :
    P.Ends P.Node w (fun i => Argument.enter (P.numbering i) tag
      (f.hosted (P.numbering i) (env i)) (es.map (· i))) := by
  cases f with
  | function parameters body =>
    obtain rfl : parameters.length = n := Option.some.inj hf
    exact ends_bind (ends_uses haccess body (henv.bindAll hlength hes) h)
      fun _ _ _ ha => ends_normalizeLambda ha tag
  | functionOf arity name body =>
    obtain rfl : arity = n := Option.some.inj hf
    subst hlength
    exact ends_bind (ends_uses haccess body (henv.bindNumbered name hes) h)
      fun _ _ _ ha => ends_normalizeLambda ha tag
  | _ => cases hf

theorem ends_hosted [Nonempty ι] {u : Usage} {env : ι → Env} {f : Program} {n : Nat}
    (hf : f.arity? = some n) (henv : P.Envs u w env) (h : f.Within u) (tag : String)
    {es : List (ι → Expr)} (hlength : es.length = n) (hes : ∀ e ∈ es, P.Handed w e) :
    P.Ends P.Node w (fun i => Argument.enter (P.numbering i) tag
      (f.hosted (P.numbering i) (env i)) (es.map (· i))) :=
  ends_hosted_of_uses False.elim hf henv (Program.uses_of_within f h) tag hlength hes

end Parallel

/-! ## Both lambdas -/

variable {o : Outset}

/-- The variables that the function is called with. -/
def Outset.handed (o : Outset) : List (Way → Expr) :=
  o.names.zipIdx.map fun p way => variableNode (match way with
    | .native => implicitName (o.depth + p.2)
    | .explicit => p.1
    | .afresh => implicitName (o.first + p.2))

theorem Outset.map_handed (o : Outset) (way : Way) :
    o.handed.map (· way) = (o.parameters way).map variableNode := by
  have hnumbers : ∀ first, (o.names.zipIdx.map fun p => variableNode (implicitName (first + p.2))) =
      (implicitNames first o.names.length).map variableNode := by
    intro first
    rw [implicitNames_eq_map_range, List.range_eq_range', ← List.zipIdx_map_snd 0 o.names,
      List.map_map, List.map_map]
    rfl
  cases way with
  | native => simpa [handed, parameters, Function.comp_def] using hnumbers o.depth
  | explicit =>
    have hnames : o.names.map variableNode = (o.names.zipIdx.map Prod.fst).map variableNode := by
      rw [List.zipIdx_map_fst]
    rw [parameters, hnames, handed, List.map_map, List.map_map]
    rfl
  | afresh => simpa [handed, parameters, Function.comp_def] using hnumbers o.first

theorem Outset.node_handed (o : Outset) {e : Way → Expr} (he : e ∈ o.handed) :
    (Places.start o).Node e := by
  obtain ⟨⟨name, j⟩, hmem, rfl⟩ := List.mem_map.1 he
  have hname : o.names[j]? = some name := List.mem_zipIdx_iff_getElem?.1 hmem
  have hlabel : o.names[o.first + j - o.first]? = some name := by
    rw [Nat.add_sub_cancel_left, hname]
  apply Places.node_variable
  · intro way
    rw [renumber_implicitName]
    unfold label
    rw [if_neg (by omega), hlabel, Nat.add_sub_cancel_left]
    cases way <;> rfl
  · intro k hk
    obtain rfl := implicitName_injective hk
    have hj := (List.getElem?_eq_some_iff.1 hname).1
    exact Nat.add_lt_add_left hj _

/-! ## Places of explicit parameters -/

/-- The node is no entry of a let, and takes from around it only variables that are bound there and
names other than some. -/
def Expr.Enclosed (depth : Nat) (names : List String) (e : Expr) : Prop :=
  e.declared = [] ∧ ∀ x ∈ e.free, (Explicit x ∧ x ∉ names) ∨ ∃ i < depth, x = implicitName i

namespace Scope

/-- The variables bound around the function, and its parameters. -/
def start (o : Outset) (h : o.depth ≤ o.first) : Scope o where
  numbers := List.range o.depth ++ List.range' o.first o.names.length
  next := o.first + o.names.length
  owner _ := none
  below := by
    intro k hk
    rcases List.mem_append.1 hk with hk | hk
    · have hlt := List.mem_range.1 hk
      omega
    · exact (List.mem_range'_1.1 hk).2
  owned := by
    intro k s hs
    cases hs
  entered := by simp

theorem number_of_lt {o : Outset} {h : o.depth ≤ o.first} {i : Nat} (hi : i < o.depth) :
    (start o h).numbers[i]? = some i := by
  rw [start, List.getElem?_append_left (by simpa using hi)]
  simp [hi]

theorem number_of_parameter {o : Outset} {h : o.depth ≤ o.first} {j : Nat}
    (hj : j < o.names.length) : (start o h).numbers[o.depth + j]? = some (o.first + j) := by
  rw [start, List.getElem?_append_right (by simp)]
  simp [hj]

theorem node_enclosed (h : o.depth ≤ o.first) {e : Expr} (he : e.Enclosed o.depth o.names)
    (hbelow : e.Everywhere (NumbersBelow o.first)) : (start o h).Node (fun _ => e) := by
  obtain ⟨hplain, hfree⟩ := he
  have hbound : ∀ ρ, (start o h).Covers ρ → ∀ i < o.depth, ∃ p,
      position (implicitName i) ρ.1 = some p ∧ position (implicitName i) ρ.2 = some p := by
    intro ρ hρ i hi
    obtain ⟨p, hp, hp'⟩ := hρ.bound i i (number_of_lt hi)
    rw [Outset.name, if_pos hi] at hp
    exact ⟨p, hp, hp'⟩
  refine ⟨⟨fun _ _ => rfl, fun _ _ _ => rfl, fun _ _ => rfl, fun _ => hplain⟩, fun ρ hρ => ?_,
    fun ρ hρ s hs x hx => ?_, fun s hs => ?_⟩
  · apply resolved_congr
    intro x hx
    rcases hfree x hx with hapart | ⟨i, hi, rfl⟩
    · exact hρ.apart x hapart
    · obtain ⟨p, hp, hp'⟩ := hbound ρ hρ i hi
      rw [hp, hp']
  · obtain ⟨hx, hnot⟩ := free_of_mem_referred (List.mem_flatMap.2 ⟨s, hs, hx⟩)
    rcases hfree x hx with hapart | ⟨i, hi, rfl⟩
    · exact hapart.1
    · obtain ⟨p, hp, -⟩ := hbound ρ hρ i hi
      rw [position_eq_none.2 hnot] at hp
      cases hp
  · intro k hfirst hk
    have hlt := hbelow s hs k (List.mem_append_right _ hk)
    exact absurd hfirst (Nat.not_le_of_lt hlt)

/-- An explicit parameter stands at the place of its fresh number. -/
theorem position_parameter (hnodup : o.names.Nodup) {name : String} {j : Nat}
    (hname : o.names[j]? = some name) (scope scope' : List String) :
    ∃ p, position name (o.names.reverse ++ scope) = some p ∧ position (implicitName (o.first + j))
      ((implicitNames o.first o.names.length).reverse ++ scope') = some p := by
  let pairs := (o.names.zipIdx.map fun p => (p.1, implicitName (o.first + p.2))).reverse
  have hfst : pairs.map Prod.fst = o.names.reverse := by
    rw [List.map_reverse, List.map_map]
    exact congrArg List.reverse (List.zipIdx_map_fst 0 o.names)
  have hsnd : pairs.map Prod.snd = (implicitNames o.first o.names.length).reverse := by
    rw [List.map_reverse, List.map_map, implicitNames_eq_map_range,
      List.range_eq_range', ← List.zipIdx_map_snd 0 o.names, List.map_map]
    rfl
  have hpairs : ∀ p ∈ pairs, p.1 = name ↔ p.2 = implicitName (o.first + j) := by
    intro p hp
    obtain ⟨⟨name', j'⟩, hmem, rfl⟩ := List.mem_map.1 (List.mem_reverse.1 hp)
    have hname' : o.names[j']? = some name' := List.mem_zipIdx_iff_getElem?.1 hmem
    rw [implicitName_inj]
    constructor
    · rintro rfl
      have hj := (List.getElem?_eq_some_iff.1 hname).1
      have hindex := (List.getElem?_inj hj hnodup).1 (hname.trans hname'.symm)
      rw [hindex]
    · intro hnumber
      obtain rfl := Nat.add_left_cancel hnumber
      exact Option.some.inj (hname'.symm.trans hname)
  have hmem : (name, implicitName (o.first + j)) ∈ pairs :=
    List.mem_reverse.2 (List.mem_map.2 ⟨(name, j), List.mem_zipIdx_iff_getElem?.2 hname, rfl⟩)
  rw [← hfst, ← hsnd]
  exact position_append_of_pairs pairs hpairs ⟨_, hmem, rfl⟩ scope scope'

/-- Explicit parameters, declared in front of a scope that has the variables bound around. -/
theorem covers_parameters {w : Scope o} {h : o.depth ≤ o.first}
    (hnumbers : w.numbers = (start o h).numbers) (hnodup : o.names.Nodup) {scope : List String}
    (hscope : ∀ i < o.depth, implicitName i ∈ scope) :
    w.Covers (o.names.reverse ++ scope,
      (implicitNames o.first o.names.length).reverse ++ scope) := by
  refine ⟨fun i k hk => ?_, fun x hx => ?_⟩
  · rw [hnumbers] at hk
    by_cases hi : i < o.depth
    · obtain rfl : i = k := by simpa [number_of_lt hi] using hk
      have hname : o.name i = implicitName i := if_pos hi
      have hnot : implicitName i ∉ o.names.reverse := fun hmem =>
        o.explicit _ (List.mem_reverse.1 hmem) i rfl
      have hnot' : implicitName i ∉ (implicitNames o.first o.names.length).reverse := by
        rw [List.mem_reverse, mem_implicitNames]
        omega
      cases hposition : position (implicitName i) scope with
      | none => exact absurd (hscope i hi) (position_eq_none.1 hposition)
      | some p =>
        refine ⟨p + o.names.length, ?_, ?_⟩
        · rw [hname, position_append_of_not_mem hnot, hposition]
          simp
        · rw [position_append_of_not_mem hnot', hposition]
          simp [implicitNames]
    · obtain ⟨j, rfl⟩ := Nat.exists_eq_add_of_le (Nat.le_of_not_lt hi)
      have hj : j < o.names.length := by
        have hlength := (List.getElem?_eq_some_iff.1 hk).1
        simpa [start] using hlength
      obtain rfl : o.first + j = k := by simpa [number_of_parameter hj] using hk
      apply position_parameter hnodup
      rw [Outset.name, if_neg hi, Nat.add_sub_cancel_left, List.getElem?_eq_getElem hj]
      rfl
  · have hnot : x ∉ (implicitNames o.first o.names.length).reverse := by
      intro hmem
      obtain ⟨j, -, rfl⟩ := List.mem_map.1 (List.mem_reverse.1 hmem)
      exact hx.1 j rfl
    rw [position_append_of_not_mem (mt List.mem_reverse.1 hx.2), position_append_of_not_mem hnot]
    simp [implicitNames]

/-- The variables that the function is called with under explicit names and afresh. -/
def handed (o : Outset) : List (Numbering → Expr) :=
  o.names.zipIdx.map fun p i => variableNode (match i with
    | .byDepth => p.1
    | .afresh => implicitName (o.first + p.2))

theorem map_handed (o : Outset) : (handed o).map (· .byDepth) = o.names.map variableNode ∧
    (handed o).map (· .afresh) = (implicitNames o.first o.names.length).map variableNode := by
  have hexplicit := o.map_handed .explicit
  have hafresh := o.map_handed .afresh
  rw [Outset.handed, List.map_map] at hexplicit hafresh
  rw [handed, List.map_map, List.map_map]
  exact ⟨hexplicit, hafresh⟩

theorem node_handed_start (h : o.depth ≤ o.first) {e : Numbering → Expr} (he : e ∈ handed o) :
    (start o h).Node e := by
  obtain ⟨⟨name, j⟩, hmem, rfl⟩ := List.mem_map.1 he
  have hname : o.names[j]? = some name := List.mem_zipIdx_iff_getElem?.1 hmem
  have hj := (List.getElem?_eq_some_iff.1 hname).1
  apply node_variable
  intro ρ hρ
  obtain ⟨p, hp, hp'⟩ := hρ.bound _ _ (number_of_parameter hj)
  rw [Outset.name, if_neg (by omega), Nat.add_sub_cancel_left, hname] at hp
  exact .inr ⟨p, hp, hp'⟩

end Scope

/-! ## Ends of both lambdas -/

section

variable {f : Program} {reads : String → Prop} {env : Env} {lambda : Builder}

theorem Program.build_lambdaOf_apply {n : Nat} (h : f.arity? = some n) (hn : 0 < n)
    (numbering : Numbering) (env : Env) (bound : Nat) :
    (lambdaOf f).build numbering env bound =
      match Argument.enter numbering "lambda" (f.hosted numbering env)
        ((implicitNames bound n).map variableNode) (bound + n) with
      | .ok e atEnd => .ok (lambdaNode (parameterNode (implicitNames bound n)) e)
          (numbering.leave bound atEnd)
      | .error stop atEnd => .error stop (numbering.leave bound atEnd) := by
  obtain ⟨n, rfl⟩ := Nat.exists_eq_succ_of_ne_zero (Nat.ne_of_gt hn)
  rw [build_lambdaOf numbering env h, Build.binding, Build.bind_apply]
  cases Argument.enter numbering "lambda" (f.hosted numbering env)
    ((implicitNames bound (n + 1)).map variableNode) (bound + (n + 1)) <;> rfl

/-- Captured nodes have been given their numbers before. -/
def Env.NumbersBelow (env : Env) (reads : String → Prop) (bound : Nat) : Prop :=
  ∀ x, reads x → ∀ e ∈ env.captured x, e.Everywhere (Expr.NumbersBelow bound)

theorem Outset.lambdas_alike (hlambda : lambda.form = .lambda) (hnil : o.names ≠ [])
    (hf : f.arity? = some o.names.length) (hwithin : f.Within (.naming o.Apart reads env))
    (hbelow : env.NumbersBelow reads o.first) :
    (∃ stop, (Program.lambdaOf f).build .byDepth env o.depth = .error stop o.depth ∧
      (Program.lambdaWith lambda o.names f).build .byDepth env o.depth = .error stop o.depth) ∨
    ∃ place body next, (∀ k, o.depth ≤ place k) ∧
      (Program.lambdaOf f).build .byDepth env o.depth =
        .ok (o.lambda place .native body) o.depth ∧
      (Program.lambdaWith lambda o.names f).build .byDepth env o.depth =
        .ok (o.lambda place .explicit body) o.depth ∧
      (Program.lambdaOf f).build .afresh env o.first =
        .ok (lambdaNode (parameterNode (o.parameters .afresh)) body) next := by
  have hpos : 0 < o.names.length := List.length_pos_iff.2 hnil
  have henv : (threefold o).Envs (.naming o.Apart reads env) (Places.start o) (fun _ => env) :=
    Parallel.envs_captured (fun _ h => h.1) fun x hx e he =>
      Places.node_captured (hbelow x hx e he) _
  have hhanded : ∀ e ∈ o.handed, (threefold o).Handed (Places.start o) e := by
    intro e he
    refine ⟨o.node_handed he, fun way => ?_⟩
    obtain ⟨p, -, rfl⟩ := List.mem_map.1 he
    rfl
  obtain ⟨w, ⟨hdepth, -⟩, h⟩ := Parallel.ends_hosted hf henv hwithin "lambda"
    (by simp [Outset.handed]) hhanded
  simp only [Outset.map_handed] at h
  have hstart : (threefold o).count (Places.start o) .explicit = o.depth := Nat.add_sub_cancel _ _
  have hend : (threefold o).count w .explicit = o.depth := by
    show w.depth - o.names.length = o.depth
    rw [hdepth, Places.start, Nat.add_sub_cancel]
  rw [Program.build_lambdaOf_apply hf hpos, Program.build_lambdaOf_apply hf hpos,
    Program.build_lambdaWith .byDepth env hlambda hf, Build.bind_apply]
  rcases h with ⟨e, he, hok⟩ | ⟨stop, hstop⟩
  · have hnative : Argument.enter .byDepth "lambda" (f.hosted .byDepth env)
        ((implicitNames o.depth o.names.length).map variableNode) (o.depth + o.names.length) =
          .ok (e .native) w.depth := hok .native
    have hexplicit : Argument.enter .byDepth "lambda" (f.hosted .byDepth env)
        (o.names.map variableNode) o.depth = .ok (e .explicit) o.depth := by
      have hrun := hok .explicit
      rw [hstart, hend] at hrun
      exact hrun
    have hafresh : Argument.enter .afresh "lambda" (f.hosted .afresh env)
        ((implicitNames o.first o.names.length).map variableNode) (o.first + o.names.length) =
          .ok (e .afresh) w.next := hok .afresh
    rw [hnative, hexplicit, hafresh]
    refine .inr ⟨w.place, e .afresh, w.next, w.place_le, ?_, ?_, rfl⟩
    · rw [Outset.lambda, ← he.renamed .native]
      rfl
    · rw [Outset.lambda, ← he.renamed .explicit]
      rfl
  · have hnative : Argument.enter .byDepth "lambda" (f.hosted .byDepth env)
        ((implicitNames o.depth o.names.length).map variableNode) (o.depth + o.names.length) =
          .error stop w.depth := hstop .native
    have hexplicit : Argument.enter .byDepth "lambda" (f.hosted .byDepth env)
        (o.names.map variableNode) o.depth = .error stop o.depth := by
      have hrun := hstop .explicit
      rw [hstart, hend] at hrun
      exact hrun
    rw [hnative, hexplicit]
    exact .inl ⟨stop, rfl, rfl⟩

theorem Outset.native_resolved {reads : String → Prop} (hle : o.depth ≤ o.first)
    (hwithin : f.Within (.naming o.Apart reads env)) (hbelow : env.NumbersBelow reads o.first)
    (henclosed : ∀ x, reads x → ∀ e ∈ env.captured x, e.Enclosed o.depth o.names)
    {native fresh : Expr} {atEnd next : Nat}
    (hnative : (Program.lambdaOf f).build .byDepth env o.depth = .ok native atEnd)
    (hfresh : (Program.lambdaOf f).build .afresh env o.first = .ok fresh next)
    {scope : List String} (hscope : ∀ i < o.depth, implicitName i ∈ scope) :
    native.resolved scope = fresh.resolved scope := by
  let outer : Outset := .numbered o.depth o.first
  have hcaptured : ∀ x, reads x → ∀ e ∈ env.captured x,
      (Scope.start outer hle).Node (fun _ => e) := by
    intro x hx e he
    obtain ⟨hplain, hfree⟩ := henclosed x hx e he
    have houter : e.Enclosed outer.depth outer.names :=
      ⟨hplain, fun y hy => (hfree y hy).imp_left fun h => ⟨h.1, List.not_mem_nil⟩⟩
    exact Scope.node_enclosed (o := outer) hle houter (hbelow x hx e he)
  have henv : (twofold outer).Envs (.naming o.Apart reads env) (Scope.start outer hle)
      (fun _ => env) :=
    Parallel.envs_captured (fun _ h => ⟨h.1, List.not_mem_nil⟩) hcaptured
  have hterm : (Program.lambdaOf f).Within (.naming o.Apart reads env) := hwithin
  obtain ⟨w, ⟨hnumbers, -⟩, h⟩ := Parallel.ends_term henv hterm
  have hstart : (twofold outer).count (Scope.start outer hle) .byDepth = o.depth := by
    show (List.range o.depth ++ List.range' o.first 0).length - 0 = o.depth
    simp
  rcases h with ⟨e, he, hok⟩ | ⟨stop, hstop⟩
  · have hdepth := hok .byDepth
    rw [hstart] at hdepth
    injection hdepth.symm.trans hnative with hnode
    injection (hok .afresh).symm.trans hfresh with hnode'
    rw [← hnode, ← hnode']
    exact he.resolved_eq (scope, scope) (Scope.covers_parameters hnumbers List.nodup_nil hscope)
  · have hdepth := hstop .byDepth
    rw [hstart] at hdepth
    cases hdepth.symm.trans hnative

theorem Outset.explicit_resolved {reads : String → Prop} (hlambda : lambda.form = .lambda)
    (hnil : o.names ≠ []) (hnodup : o.names.Nodup) (hf : f.arity? = some o.names.length)
    (hle : o.depth ≤ o.first)
    (hwithin : f.Within (.naming o.Apart reads env)) (hbelow : env.NumbersBelow reads o.first)
    (henclosed : ∀ x, reads x → ∀ e ∈ env.captured x, e.Enclosed o.depth o.names)
    {explicit fresh : Expr} {atEnd next : Nat}
    (hexplicit : (Program.lambdaWith lambda o.names f).build .byDepth env o.depth =
      .ok explicit atEnd)
    (hfresh : (Program.lambdaOf f).build .afresh env o.first = .ok fresh next)
    {scope : List String} (hscope : ∀ i < o.depth, implicitName i ∈ scope) :
    explicit.resolved scope = fresh.resolved scope := by
  have henv : (twofold o).Envs (.naming o.Apart reads env) (Scope.start o hle) (fun _ => env) :=
    Parallel.envs_captured (fun _ h => h) fun x hx e he =>
      Scope.node_enclosed hle (henclosed x hx e he) (hbelow x hx e he)
  have hhanded : ∀ e ∈ Scope.handed o, (twofold o).Handed (Scope.start o hle) e := by
    intro e he
    refine ⟨Scope.node_handed_start hle he, fun i => ?_⟩
    obtain ⟨p, -, rfl⟩ := List.mem_map.1 he
    rfl
  obtain ⟨w, ⟨hnumbers, -⟩, h⟩ := Parallel.ends_hosted hf henv hwithin "lambda"
    (by simp [Scope.handed]) hhanded
  have hstart : (twofold o).count (Scope.start o hle) .byDepth = o.depth := by
    show (List.range o.depth ++ List.range' o.first o.names.length).length - o.names.length = _
    simp
  obtain ⟨hdepth, hafresh⟩ := Scope.map_handed o
  rw [Program.build_lambdaOf_apply hf (List.length_pos_iff.2 hnil)] at hfresh
  rw [Program.build_lambdaWith .byDepth env hlambda hf, Build.bind_apply] at hexplicit
  rcases h with ⟨e, he, hok⟩ | ⟨stop, hstop⟩
  · have hrun : Argument.enter .byDepth "lambda" (f.hosted .byDepth env)
        (o.names.map variableNode) o.depth = .ok (e .byDepth) ((twofold o).count w .byDepth) := by
      rw [← hdepth, ← hstart]
      exact hok .byDepth
    have hrun' : Argument.enter .afresh "lambda" (f.hosted .afresh env)
        ((implicitNames o.first o.names.length).map variableNode) (o.first + o.names.length) =
          .ok (e .afresh) ((twofold o).count w .afresh) := by
      rw [← hafresh]
      exact hok .afresh
    rw [hrun] at hexplicit
    rw [hrun'] at hfresh
    injection hexplicit with hexplicit
    injection hfresh with hfresh
    have hbody := he.resolved_eq _ (Scope.covers_parameters hnumbers hnodup hscope)
    rw [← hexplicit, ← hfresh, resolved_lambdaNode, resolved_lambdaNode, offered_parameterNode,
      offered_parameterNode, hbody]
    simp [implicitNames]
  · have hrun : Argument.enter .byDepth "lambda" (f.hosted .byDepth env)
        (o.names.map variableNode) o.depth = .error stop ((twofold o).count w .byDepth) := by
      rw [← hdepth, ← hstart]
      exact hstop .byDepth
    rw [hrun] at hexplicit
    cases hexplicit

/-- A host function as a native lambda and as the body of an explicit one: both end alike, and give
the same node but for names. The fresh run tells which ones. Its numbers from `first` on stand for
the parameters, by depth or by the given names, and then for the parameters of functions called
inside, whose numbers by depth are higher in the native lambda by the number of names. All other
names are those of captured nodes, and the same. -/
theorem Program.native_explicit_lambda (hlambda : lambda.form = .lambda) {names : List String}
    (hnil : names ≠ []) (hnodup : names.Nodup) (hexplicit : ∀ name ∈ names, Explicit name)
    (hf : f.arity? = some names.length)
    (hwithin : f.Within (.naming (fun x => Explicit x ∧ x ∉ names) reads env)) (depth : Nat) :
    (∃ stop, (lambdaOf f).build .byDepth env depth = .error stop depth ∧
      (lambdaWith lambda names f).build .byDepth env depth = .error stop depth) ∨
    ∃ (o : Outset) (place : Nat → Nat) (body : Expr) (next : Nat),
      o.depth = depth ∧ o.names = names ∧ env.NumbersBelow reads o.first ∧
      (∀ k, depth ≤ place k) ∧
      (lambdaOf f).build .byDepth env depth = .ok (o.lambda place .native body) depth ∧
      (lambdaWith lambda names f).build .byDepth env depth =
        .ok (o.lambda place .explicit body) depth ∧
      (lambdaOf f).build .afresh env o.first =
        .ok (lambdaNode (parameterNode (o.parameters .afresh)) body) next ∧
      ((∀ x, reads x → ∀ e ∈ env.captured x, e.Enclosed depth names) →
        ∀ scope, (∀ i < depth, implicitName i ∈ scope) →
          (o.lambda place .native body).resolved scope =
            (o.lambda place .explicit body).resolved scope) := by
  obtain ⟨bound, hbound⟩ := env.exists_numbersBelow
  let o : Outset := ⟨depth, max depth bound, names, hexplicit⟩
  have hbelow : env.NumbersBelow reads o.first := fun x _ e he =>
    (hbound x e he).imp fun s hs k hk => Nat.lt_of_lt_of_le (hs k hk) (Nat.le_max_right _ _)
  rcases Outset.lambdas_alike (o := o) hlambda hnil hf hwithin hbelow with
    hstop | ⟨place, body, next, hplace, hnative, hwith, hfresh⟩
  · exact .inl hstop
  · refine .inr ⟨o, place, body, next, rfl, rfl, hbelow, hplace, hnative, hwith, hfresh, ?_⟩
    intro henclosed scope hscope
    have hle : o.depth ≤ o.first := Nat.le_max_left _ _
    rw [Outset.native_resolved hle hwithin hbelow henclosed hnative hfresh hscope,
      Outset.explicit_resolved hlambda hnil hnodup hf hle hwithin hbelow henclosed hwith hfresh
        hscope]

end

/-- The builder of lambdas with given names. -/
def explicitLambda : Builder where
  entry := ⟨.basic, "lambda", "lambda", "lambda(vars, body) | lambda_fn(f)", false,
    some ⟨"lambda", .lambda⟩⟩
  tag := "lambda"
  form := .lambda
  listed := by simp [Catalog.entries, Catalog.basicEntries]
  recipe := rfl

theorem native_explicit_lambda_nested :
    let inner : Program := .function ["y"] (.list [.get "outer", .get "x", .get "y"])
    let f : Program := .function ["x"] (.lambdaOf inner)
    let env : Env := [("outer", .node (variableNode (implicitName 0)))]
    ∃ (o : Outset) (place : Nat → Nat) (body : Expr), o.names = ["a"] ∧
      (Program.lambdaOf f).build .byDepth env 1 = .ok (o.lambda place .native body) 1 ∧
      (Program.lambdaWith explicitLambda ["a"] f).build .byDepth env 1 =
        .ok (o.lambda place .explicit body) 1 ∧
      (o.lambda place .native body).resolved [implicitName 0] =
        (o.lambda place .explicit body).resolved [implicitName 0] := by
  intro inner f env
  have hexplicit : ∀ name ∈ ["a"], Explicit name := by
    intro name hname
    rw [List.mem_singleton.1 hname, explicit_iff]
    decide
  have hwithin : f.Within (.naming (fun x => Explicit x ∧ x ∉ ["a"]) (fun _ => True) env) := by
    simp [f, inner, Program.lambdaOf, Program.Within, Program.WithinItems, Usage.under,
      Usage.naming]
  have hf : f.arity? = some ["a"].length := rfl
  have hlambda : explicitLambda.form = .lambda := rfl
  have henclosed : (variableNode (implicitName 0)).Enclosed 1 ["a"] :=
    ⟨rfl, fun x hx => .inr ⟨0, Nat.one_pos, List.mem_singleton.1 hx⟩⟩
  rcases Program.native_explicit_lambda hlambda (List.cons_ne_nil "a" []) (List.nodup_singleton "a")
    hexplicit hf hwithin 1 with
    ⟨stop, hstop, -⟩ | ⟨o, place, body, next, -, hnames, -, -, hnative, hwith, -, hresolved⟩
  · cases hstop
  · refine ⟨o, place, body, hnames, hnative, hwith, hresolved ?_ _ ?_⟩
    · intro x _ e he
      by_cases hx : x = "outer"
      · subst hx
        exact List.mem_singleton.1 he ▸ henclosed
      · have hnone : env.lookup x = none := by
          simp [env, hx]
        simp [Env.captured, hnone] at he
    · intro i hi
      obtain rfl := Nat.lt_one_iff.1 hi
      exact List.mem_singleton.2 rfl

end QueryTree
