import QueryTree.Proofs.Parallel.Run
import QueryTree.Proofs.Renaming

/-!
# Native and explicit parameters

The body of a host function is run three times: with parameters numbered by depth, with parameters
of explicit names, and afresh. A world keeps the number that each fresh number stands for in the run
with explicit names. Both runs by depth then give the fresh node with other names.
-/

namespace QueryTree

open QueryTree.Expr

/-- The ways in which the parameters of a function are handed. -/
inductive Way where
  | native
  | explicit
  | afresh
deriving DecidableEq

instance : Nonempty Way := ⟨.afresh⟩

def Way.numbering : Way → Numbering
  | .native | .explicit => .byDepth
  | .afresh => .afresh

/-! ## Worlds -/

variable {o : Outset}

/-- The number of variables in scope in the native run, the next fresh number, and the number that
each fresh number stands for in the explicit run. -/
structure Places (o : Outset) where
  depth : Nat
  next : Nat
  place : Nat → Nat
  depth_le : o.depth + o.names.length ≤ depth
  next_le : o.first + o.names.length ≤ next
  place_le : ∀ k, o.depth ≤ place k

/-- The name that a fresh number stands for: the number itself where it was given before, a
parameter, or a number given since. -/
def Outset.label (o : Outset) (place : Nat → Nat) (way : Way) (k : Nat) : String :=
  if k < o.first then implicitName k
  else match way, o.names[k - o.first]? with
    | .native, some _ => implicitName (o.depth + (k - o.first))
    | .native, none => implicitName (place k + o.names.length)
    | .explicit, some name => name
    | .explicit, none => implicitName (place k)
    | .afresh, _ => implicitName k

/-- The names of the parameters of the function that starts the runs. -/
def Outset.parameters (o : Outset) : Way → List String
  | .native => implicitNames o.depth o.names.length
  | .explicit => o.names
  | .afresh => implicitNames o.first o.names.length

/-- The lambda node of the function, from its body in the fresh run. -/
def Outset.lambda (o : Outset) (place : Nat → Nat) (way : Way) (body : Expr) : Expr :=
  lambdaNode (parameterNode (o.parameters way)) (body.rename (renumber (o.label place way)))

theorem Outset.label_congr {place place' : Nat → Nat} {k : Nat} (h : place k = place' k)
    (way : Way) : o.label place way k = o.label place' way k := by
  simp only [label, h]

namespace Places

variable {w : Places o}

/-- No function but the one that starts the runs has been called. -/
def start (o : Outset) : Places o where
  depth := o.depth + o.names.length
  next := o.first + o.names.length
  place _ := o.depth
  depth_le := Nat.le_refl _
  next_le := Nat.le_refl _
  place_le _ := Nat.le_refl _

def enter (w : Places o) (n : Nat) : Places o where
  depth := w.depth + n
  next := w.next + n
  place k := if k < w.next then w.place k else w.depth - o.names.length + (k - w.next)
  depth_le := Nat.le_trans w.depth_le (Nat.le_add_right _ _)
  next_le := Nat.le_trans w.next_le (Nat.le_add_right _ _)
  place_le k := by
    have hdepth := w.depth_le
    have hplace := w.place_le k
    split <;> omega

/-- The scope before, with the numbers given since. -/
def left (w w' : Places o) : Places o := { w' with depth := w.depth, depth_le := w.depth_le }

def count (w : Places o) : Way → Nat
  | .native => w.depth
  | .explicit => w.depth - o.names.length
  | .afresh => w.next

/-- Numbers that were given stand for the same. -/
def Keeps (w w' : Places o) : Prop := w.next ≤ w'.next ∧ ∀ k < w.next, w'.place k = w.place k

theorem Keeps.trans {w w' w'' : Places o} (h : w.Keeps w') (h' : w'.Keeps w'') : w.Keeps w'' :=
  ⟨Nat.le_trans h.1 h'.1, fun k hk => (h'.2 k (Nat.lt_of_lt_of_le hk h.1)).trans (h.2 k hk)⟩

theorem keeps_enter (w : Places o) (n : Nat) : w.Keeps (w.enter n) :=
  ⟨Nat.le_add_right _ _, fun _ hk => if_pos hk⟩

/-! ## Related nodes -/

/-- Nodes that are the fresh one with other names. -/
structure Node (w : Places o) (e : Way → Expr) : Prop where
  renamed : ∀ way, e way = (e .afresh).rename (renumber (o.label w.place way))
  below : (e .afresh).Everywhere (NumbersBelow w.next)

theorem Node.mono {w' : Places o} (h : w.Keeps w') {e : Way → Expr} (he : w.Node e) :
    w'.Node e := by
  refine ⟨fun way => ?_, he.below.imp fun s hs k hk => Nat.lt_of_lt_of_le (hs k hk) h.1⟩
  rw [he.renamed way]
  refine rename_congr _ fun s hs name hname => renumber_eq ?_
  rintro k rfl
  exact Outset.label_congr (h.2 k (he.below s hs k hname)).symm way

/-- A node that was built before. -/
theorem node_captured {e : Expr} (h : e.Everywhere (NumbersBelow o.first)) (w : Places o) :
    w.Node (fun _ => e) := by
  have hfirst : o.first ≤ w.next := Nat.le_trans (Nat.le_add_right _ _) w.next_le
  refine ⟨fun way => (rename_eq_self fun s hs name hname => ?_).symm,
    h.imp fun s hs k hk => Nat.lt_of_lt_of_le (hs k hk) hfirst⟩
  have hlabel : ∀ k, name = implicitName k → o.label w.place way k = implicitName k := by
    rintro k rfl
    exact if_pos (h s hs k hname)
  rw [renumber_eq hlabel]
  by_cases hexplicit : Explicit name
  · exact renumber_of_explicit hexplicit _
  · obtain ⟨k, rfl⟩ : ∃ k, name = implicitName k := by simpa [Explicit] using hexplicit
    exact renumber_implicitName _ k

theorem node_literal (w : Places o) (value : Literal) : w.Node (fun _ => .literal value) :=
  ⟨fun _ => rfl, everywhere_literal (numbersBelow_of_nil rfl)⟩

theorem node_array {es : List (Way → Expr)} (h : ∀ e ∈ es, w.Node e) :
    w.Node (fun way => .array (es.map (· way))) := by
  refine ⟨renumbered_array fun e he => (h e he).renamed,
    everywhere_array (numbersBelow_of_nil rfl) fun e he => ?_⟩
  obtain ⟨e', he', rfl⟩ := List.mem_map.1 he
  exact (h e' he').below

theorem given_fields {fields : List (String × (Way → Expr))} (h : ∀ p ∈ fields, w.Node p.2) :
    ∀ p ∈ fields.map fun p => (p.1, p.2 .afresh), p.2.Everywhere (NumbersBelow w.next) := by
  intro p hp
  obtain ⟨p', hp', rfl⟩ := List.mem_map.1 hp
  exact (h p' hp').below

theorem node_object {fields : List (String × (Way → Expr))} (h : ∀ p ∈ fields, w.Node p.2) :
    w.Node (fun way => .object (fields.map fun p => (p.1, p.2 way))) :=
  ⟨renumbered_object fun p hp => (h p hp).renamed,
    everywhere_object (numbersBelow_of_nil rfl) (given_fields h)⟩

theorem node_operation {tag : String} (htag : tag ∉ ["var", "lambda"]) {operand : Way → Expr}
    {fields : List (String × (Way → Expr))}
    (hbinds : ∀ k, implicitName k ∉ binds tag (operand .afresh))
    (hoperand : w.Node operand) (hfields : ∀ p ∈ fields, w.Node p.2) :
    w.Node (fun way => .operation tag (operand way) (fields.map fun p => (p.1, p.2 way))) := by
  refine ⟨renumbered_operation htag hoperand.renamed fun p hp => (hfields p hp).renamed,
    everywhere_operation (fun k hk => ?_) hoperand.below (given_fields hfields)⟩
  simp only [List.mem_cons, List.not_mem_nil, or_false, not_or] at htag
  simp only [ownNames, refers, declares, if_neg htag.1, List.nil_append] at hk
  exact absurd hk (hbinds k)

theorem node_variable {name : Way → String}
    (hname : ∀ way, name way = renumber (o.label w.place way) (name .afresh))
    (hgiven : ∀ k, name .afresh = implicitName k → k < w.next) :
    w.Node (fun way => variableNode (name way)) := by
  refine ⟨renumbered_variable hname, everywhere_operation (fun k hk => hgiven k ?_)
    (everywhere_literal (numbersBelow_of_nil rfl)) nofun⟩
  simpa [ownNames, refers, declares, binds, Expr.string, string?, literal?, Literal.string?,
    eq_comm] using hk

theorem node_leaf {value : Leaf} (h : ∀ name, value = .variable name → Explicit name) :
    w.Node (fun _ => value.node) := by
  have hmarker : ∀ tag text, tag ∉ ["var", "lambda", "let"] →
      w.Node (fun _ => .operation tag (.string text) []) := by
    intro tag text htag
    simp only [List.mem_cons, List.not_mem_nil, or_false, not_or] at htag
    exact node_operation (by simp [htag]) (by simp [binds, htag]) (node_literal w (.string text))
      (List.forall_mem_nil _)
  rcases value with path | iso | iso | name | data
  · exact hmarker "@ref" path (by simp)
  · exact hmarker "@ts" iso (by simp)
  · exact hmarker "@date" iso (by simp)
  · exact node_variable (fun way => (renumber_of_explicit (h name rfl) _).symm)
      fun k hk => absurd hk (h name rfl k)
  · exact node_literal w (.bytes data)

theorem node_lambda {parameters body : Way → Expr} {tag : String} {names : List String}
    (hparameters : w.Node parameters)
    (hdeclared : ∀ way, Argument.nodeNames tag (parameters way) = .ok names)
    (hnames : ∀ name ∈ names, Explicit name) (hbody : w.Node body) :
    w.Node (fun way => lambdaNode (parameters way) (body way)) := by
  refine ⟨renumbered_declared hparameters.renamed hdeclared hnames hbody.renamed,
    everywhere_operation (fun k hk => ?_) hparameters.below (by simpa using hbody.below)⟩
  simp only [ownNames, refers, declares, binds, if_true,
    Argument.offered_of_nodeNames (hdeclared .afresh)] at hk
  exact absurd rfl (hnames _ (by simpa using hk) k)

theorem node_let {values : List (String × (Way → Expr))} {body : Way → Expr}
    (hnames : ∀ p ∈ values, Explicit p.1) (hvalues : ∀ p ∈ values, w.Node p.2)
    (hbody : w.Node body) :
    w.Node (fun way => .operation "let" (.array (values.map fun p => .binding p.1 (p.2 way)))
      [("in", body way)]) := by
  have hoperand : w.Node fun way => .array (values.map fun p => .binding p.1 (p.2 way)) := by
    have hitems : ∀ e ∈ values.map fun p => fun way => .binding p.1 (p.2 way), w.Node e := by
      intro e he
      obtain ⟨p, hp, rfl⟩ := List.mem_map.1 he
      exact ⟨renumbered_binding p.1 (hvalues p hp).renamed,
        everywhere_binding (numbersBelow_of_nil rfl) (hvalues p hp).below⟩
    simpa [Function.comp_def] using node_array hitems
  have hbinds : ∀ k, implicitName k ∉
      binds "let" (.array (values.map fun p => .binding p.1 (p.2 .afresh))) := by
    intro k hk
    have hmap : (values.map fun p => Expr.binding p.1 (p.2 .afresh)) =
        (values.map fun p => (p.1, p.2 .afresh)).map fun p => .binding p.1 p.2 := by
      simp [Function.comp_def]
    rw [hmap, binds_let, List.map_map] at hk
    obtain ⟨p, hp, hname⟩ := List.mem_map.1 hk
    exact hnames p hp k hname
  exact node_operation (by simp) hbinds hoperand
    (show ∀ p ∈ [("in", body)], w.Node p.2 from fun p hp => List.mem_singleton.1 hp ▸ hbody)

/-! ## Parameters -/

/-- Each number that is given stands for the number of the variable by depth. -/
theorem label_enter {w' : Places o} {n j : Nat} (hj : j < n) (h : (w.enter n).Keeps w')
    (way : Way) : o.label w'.place way (w.next + j) = implicitName (w.count way + j) := by
  have hnext := w.next_le
  have hdepth := w.depth_le
  have hplace : w'.place (w.next + j) = w.depth - o.names.length + j := by
    rw [h.2 _ (Nat.add_lt_add_left hj _)]
    show (if w.next + j < w.next then _ else w.depth - o.names.length + (w.next + j - w.next)) = _
    rw [if_neg (by omega), Nat.add_sub_cancel_left]
  have hnone : o.names[w.next + j - o.first]? = none :=
    List.getElem?_eq_none (by omega)
  unfold Outset.label
  rw [if_neg (by omega), hnone]
  cases way with
  | native =>
    show implicitName (w'.place (w.next + j) + o.names.length) = implicitName (w.depth + j)
    rw [hplace]
    congr 1
    omega
  | explicit => exact congrArg implicitName hplace
  | afresh => rfl

theorem node_handed (w : Places o) {j n : Nat} (hj : j < n) :
    (w.enter n).Node (fun way => variableNode (implicitName (w.count way + j))) := by
  refine node_variable (fun way => ?_) fun k hk => ?_
  · show _ = renumber _ (implicitName (w.next + j))
    rw [renumber_implicitName, label_enter hj ⟨Nat.le_refl _, fun _ _ => rfl⟩]
  · obtain rfl := implicitName_injective hk
    exact Nat.add_lt_add_left hj _

theorem node_leave {w' : Places o} {n : Nat} (h : (w.enter n).Keeps w') {body : Way → Expr}
    (hbody : w'.Node body) :
    w'.Node (fun way => lambdaNode (parameterNode (implicitNames (w.count way) n)) (body way)) := by
  have hparameters : ∀ names, (parameterNode names).Everywhere (NumbersBelow w'.next) :=
    everywhere_parameterNode (fun _ => numbersBelow_of_nil rfl) fun _ => numbersBelow_of_nil rfl
  refine ⟨renumbered_lambda (fun way => ?_) hbody.renamed, everywhere_operation (fun k hk => ?_)
    (hparameters _) (by simpa using hbody.below)⟩
  · rw [implicitNames_eq_map_range, implicitNames_eq_map_range, List.map_map]
    apply List.map_congr_left
    intro j hj
    show _ = renumber _ (implicitName (w.next + j))
    rw [renumber_implicitName, label_enter (List.mem_range.1 hj) h]
  · simp only [ownNames, refers, declares, binds, if_true, offered_parameterNode] at hk
    have hlt := mem_implicitNames.1 (by simpa using hk)
    exact Nat.lt_of_lt_of_le hlt.2 h.1

end Places

/-! ## The runs -/

/-- The runs with native, explicit and fresh parameters, side by side. -/
def threefold (o : Outset) : Parallel Way where
  numbering := Way.numbering
  World := Places o
  count := Places.count
  Later w w' := w'.depth = w.depth ∧ w.Keeps w'
  Inside w w' := w.Keeps w'
  enter := Places.enter
  Named := Explicit
  Node := Places.Node
  later_refl w := ⟨rfl, Nat.le_refl _, fun _ _ => rfl⟩
  later_trans h h' := ⟨h'.1.trans h.1, h.2.trans h'.2⟩
  inside_of_later h := h.2
  inside_trans h h' := h.trans h'
  inside_enter := Places.keeps_enter
  count_enter w n way := by
    have hdepth := w.depth_le
    cases way with
    | native => rfl
    | explicit =>
      show w.depth + n - o.names.length = w.depth - o.names.length + n
      omega
    | afresh => rfl
  node_mono h he := he.mono h
  string_eq h i j := by rw [h.renamed i, h.renamed j, string?_rename, string?_rename]
  names_eq h tag i j := by rw [h.renamed i, h.renamed j, nodeNames_rename, nodeNames_rename]
  node_literal := Places.node_literal
  node_array _ := Places.node_array
  node_object _ _ := Places.node_object
  node_leaf w value h := Places.node_leaf h
  node_operation := by
    intro w entry form position slots operand fields hentry hform hlayout hfits hfilled
    have hreserved := Catalog.layout_tag_not_reserved _ hentry (by simp [hform, hlayout])
    simp only [Catalog.reservedTags, List.mem_cons, not_or] at hreserved
    refine Places.node_operation (by simp [hreserved]) (by simp [binds, hreserved])
      (hfits.node fun _ => Places.node_array) (hfilled.node fun _ => Places.node_array)
  node_let _ _ := Places.node_let
  node_lambda := Places.node_lambda
  node_handed w j n hj := Places.node_handed w hj
  leave := by
    rintro w n w' ⟨hdepth, hkeeps⟩
    refine ⟨w.left w', ⟨rfl, (w.keeps_enter n).trans hkeeps⟩, fun way => ?_⟩
    cases way <;> rfl
  node_leave := by
    rintro w n w' e - ⟨hdepth, hkeeps⟩ he
    refine ⟨w.left w', ⟨rfl, (w.keeps_enter n).trans hkeeps⟩, fun way => ?_, ?_⟩
    · cases way <;> rfl
    · have hnode := Places.node_leave hkeeps he
      exact ⟨hnode.renamed, hnode.below⟩

end QueryTree
