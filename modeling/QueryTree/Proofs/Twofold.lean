import QueryTree.Proofs.Free
import QueryTree.Proofs.Parallel.Run

/-!
# Numbering by depth and afresh

A term is run twice, with its implicit variables numbered by depth and numbered afresh. A world
lists the fresh numbers of the variables in scope, by their depth. Related nodes resolve alike in
all scopes that have these variables at the same places, whatever else is in scope there: this is
what lets a node be used at another depth than it was built at.
-/

namespace QueryTree

open QueryTree.Expr

/-! ## Places in scope -/

/-- Names at the same places of two lists have the same place in any scopes that go on. -/
theorem position_append_of_pairs {x y : String} (pairs : List (String × String))
    (hxy : ∀ p ∈ pairs, p.1 = x ↔ p.2 = y) (hx : ∃ p ∈ pairs, p.1 = x)
    (scope scope' : List String) : ∃ i, position x (pairs.map Prod.fst ++ scope) = some i ∧
      position y (pairs.map Prod.snd ++ scope') = some i := by
  induction pairs with
  | nil =>
    obtain ⟨p, hp, -⟩ := hx
    cases hp
  | cons pair rest ih =>
    have hhead := hxy pair List.mem_cons_self
    rw [List.map_cons, List.cons_append, List.map_cons, List.cons_append, position, position]
    by_cases hname : pair.1 = x
    · exact ⟨0, if_pos hname.symm, if_pos (hhead.1 hname).symm⟩
    · obtain ⟨i, hi, hi'⟩ := ih (fun p hp => hxy p (List.mem_cons_of_mem _ hp)) (by simp_all)
      rw [if_neg (Ne.symm hname), if_neg (fun h => hname (hhead.2 h.symm)), hi, hi']
      exact ⟨i + 1, rfl, rfl⟩

/-! ## Worlds -/

variable {o : Outset}

/-- The fresh numbers of the variables in scope, the outermost one first, the next number, and the
lambda that declares a number, once it has been built. -/
structure Scope (o : Outset) where
  numbers : List Nat
  next : Nat
  owner : Nat → Option Expr
  below : ∀ k ∈ numbers, k < next
  owned : ∀ k s, owner k = some s → k < next ∧ k ∉ numbers
  entered : o.depth + o.names.length ≤ numbers.length

namespace Scope

/-- A scope with further variables. -/
def enter (w : Scope o) (n : Nat) : Scope o where
  numbers := w.numbers ++ List.range' w.next n
  next := w.next + n
  owner := w.owner
  below := by
    intro k hk
    rcases List.mem_append.1 hk with hk | hk
    · exact Nat.lt_of_lt_of_le (w.below k hk) (Nat.le_add_right _ _)
    · obtain ⟨j, hj, rfl⟩ := List.mem_range'.1 hk
      omega
  owned := by
    intro k s hs
    obtain ⟨hlt, hout⟩ := w.owned k s hs
    refine ⟨Nat.lt_of_lt_of_le hlt (Nat.le_add_right _ _), fun hk => ?_⟩
    rcases List.mem_append.1 hk with hk | hk
    · exact hout hk
    · exact Nat.not_le_of_lt hlt (List.mem_range'_1.1 hk).1
  entered := by
    rw [List.length_append]
    exact Nat.le_trans w.entered (Nat.le_add_right _ _)

/-- The number of the next variable. -/
def count (w : Scope o) : Numbering → Nat
  | .byDepth => w.numbers.length - o.names.length
  | .afresh => w.next

/-- Numbers and lambdas are only added. -/
def Grows (w w' : Scope o) : Prop :=
  w.next ≤ w'.next ∧ ∀ k s, w.owner k = some s → w'.owner k = some s

theorem Grows.trans {w w' w'' : Scope o} (h : w.Grows w') (h' : w'.Grows w'') : w.Grows w'' :=
  ⟨Nat.le_trans h.1 h'.1, fun k s hs => h'.2 k s (h.2 k s hs)⟩

def Later (w w' : Scope o) : Prop := w'.numbers = w.numbers ∧ w.Grows w'

def Inside (w w' : Scope o) : Prop :=
  (∃ added, w'.numbers = w.numbers ++ added) ∧ w.Grows w'

/-- The scope before, with the numbers given since. -/
def left {n : Nat} (w w' : Scope o) (h : (w.enter n).Later w') : Scope o where
  numbers := w.numbers
  next := w'.next
  owner := w'.owner
  below k hk := Nat.lt_of_lt_of_le (w.below k hk) (Nat.le_trans (Nat.le_add_right _ _) h.2.1)
  owned k s hs := by
    obtain ⟨hlt, hout⟩ := w'.owned k s hs
    refine ⟨hlt, fun hk => hout ?_⟩
    rw [h.1]
    exact List.mem_append_left _ hk
  entered := w.entered

theorem later_left {n : Nat} {w w' : Scope o} (h : (w.enter n).Later w') : w.Later (w.left w' h) :=
  ⟨rfl, Nat.le_trans (Nat.le_add_right _ _) h.2.1, h.2.2⟩

/-- The numbers of a function are those of the lambda that it became. -/
def own {n : Nat} (w w' : Scope o) (h : (w.enter n).Later w') (lambda : Expr) : Scope o where
  numbers := w.numbers
  next := w'.next
  owner k := if w.next ≤ k ∧ k < w.next + n then some lambda else w'.owner k
  below := (w.left w' h).below
  owned k s hs := by
    by_cases hk : w.next ≤ k ∧ k < w.next + n
    · refine ⟨Nat.lt_of_lt_of_le hk.2 h.2.1, fun hmem => ?_⟩
      exact Nat.not_le_of_lt (w.below k hmem) hk.1
    · rw [if_neg hk] at hs
      exact (w.left w' h).owned k s hs
  entered := w.entered

theorem later_own {n : Nat} {w w' : Scope o} (h : (w.enter n).Later w') (lambda : Expr) :
    w.Later (w.own w' h lambda) := by
  refine ⟨rfl, (later_left h).2.1, fun k s hs => ?_⟩
  have hlt := (w.owned k s hs).1
  have hk : ¬(w.next ≤ k ∧ k < w.next + n) := by omega
  exact (if_neg hk).trans (h.2.2 k s hs)

/-- Two lists of names in scope that have the variables in scope at the same places. -/
structure Covers (w : Scope o) (ρ : List String × List String) : Prop where
  bound : ∀ i k, w.numbers[i]? = some k → ∃ p, position (o.name i) ρ.1 = some p ∧
    position (implicitName k) ρ.2 = some p
  apart : ∀ x, o.Apart x → position x ρ.1 = position x ρ.2

theorem Covers.mono {w w' : Scope o} (h : w.Inside w') {ρ : List String × List String}
    (hρ : w'.Covers ρ) : w.Covers ρ := by
  obtain ⟨⟨added, hnumbers⟩, -⟩ := h
  refine ⟨fun i k hk => hρ.bound i k ?_, hρ.apart⟩
  rw [hnumbers, List.getElem?_append_left (List.getElem?_eq_some_iff.1 hk).1]
  exact hk

/-- Names that stand for the same may be declared in front. -/
theorem Covers.declare {w : Scope o} {ρ : List String × List String} (hρ : w.Covers ρ)
    {names : List String} (hnames : ∀ name ∈ names, o.Apart name) :
    w.Covers (names ++ ρ.1, names ++ ρ.2) := by
  refine ⟨fun i k hk => ?_, fun x hx => ?_⟩
  · obtain ⟨p, hp, hp'⟩ := hρ.bound i k hk
    have hname : o.name i ∉ names := fun hmem => o.not_apart_name i (hnames _ hmem)
    have hnumber : implicitName k ∉ names := fun hmem => (hnames _ hmem).1 k rfl
    refine ⟨p + names.length, ?_, ?_⟩
    · rw [position_append_of_not_mem hname, hp]
      rfl
    · rw [position_append_of_not_mem hnumber, hp']
      rfl
  · by_cases hmem : x ∈ names
    · rw [position_append_of_mem hmem, position_append_of_mem hmem]
    · rw [position_append_of_not_mem hmem, position_append_of_not_mem hmem, hρ.apart x hx]

/-- The names that a function binds by depth are none of those in scope. -/
theorem name_not_mem_implicitNames {w : Scope o} {i : Nat} (hi : i < w.numbers.length) (n : Nat) :
    o.name i ∉ (implicitNames (w.count .byDepth) n).reverse := by
  have hentered := w.entered
  rw [List.mem_reverse]
  rcases o.name_cases i with ⟨hdepth, hname⟩ | hmem | ⟨hle, hname⟩
  · rw [hname, mem_implicitNames, count]
    omega
  · intro hbound
    obtain ⟨j, -, hname⟩ := List.mem_map.1 hbound
    exact o.explicit _ hmem j hname.symm
  · rw [hname, mem_implicitNames, count]
    omega

/-- A lambda declares the same places by depth and afresh. -/
theorem Covers.enter {w w' : Scope o} {n : Nat} (hw : w'.numbers = (w.enter n).numbers)
    {ρ : List String × List String} (hρ : w.Covers ρ) :
    w'.Covers ((implicitNames (w.count .byDepth) n).reverse ++ ρ.1,
      (implicitNames w.next n).reverse ++ ρ.2) := by
  refine ⟨fun i k hk => ?_, fun x hx => ?_⟩
  · rw [hw, Scope.enter] at hk
    by_cases hi : i < w.numbers.length
    · rw [List.getElem?_append_left hi] at hk
      obtain ⟨p, hp, hp'⟩ := hρ.bound i k hk
      have hk' := w.below k (List.mem_of_getElem? hk)
      refine ⟨p + n, ?_, ?_⟩
      · rw [position_append_of_not_mem (name_not_mem_implicitNames hi n), hp]
        simp [implicitNames]
      · rw [position_append_of_not_mem, hp']
        · simp [implicitNames]
        · rw [List.mem_reverse, mem_implicitNames]
          omega
    · rw [List.getElem?_append_right (by omega)] at hk
      obtain ⟨hj, hk⟩ := List.getElem?_eq_some_iff.1 hk
      rw [List.length_range'] at hj
      rw [List.getElem_range'] at hk
      have hentered := w.entered
      let pairs := ((List.range n).map fun j =>
        (implicitName (w.count .byDepth + j), implicitName (w.next + j))).reverse
      have hxy : ∀ p ∈ pairs, p.1 = o.name i ↔ p.2 = implicitName k := by
        intro p hp
        obtain ⟨j, -, rfl⟩ := List.mem_map.1 (List.mem_reverse.1 hp)
        rw [Outset.name_of_le (by omega), implicitName_inj, implicitName_inj, count]
        omega
      have hx : ∃ p ∈ pairs, p.1 = o.name i := by
        refine ⟨_, List.mem_reverse.2 (List.mem_map_of_mem (List.mem_range.2 hj)), ?_⟩
        rw [Outset.name_of_le (by omega), implicitName_inj, count]
        omega
      obtain ⟨p, hp, hp'⟩ := position_append_of_pairs pairs hxy hx ρ.1 ρ.2
      refine ⟨p, ?_, ?_⟩
      · simpa [pairs, implicitNames, List.range'_eq_map_range, Function.comp_def] using hp
      · simpa [pairs, implicitNames, List.range'_eq_map_range, Function.comp_def] using hp'
  · have hnot : ∀ first, x ∉ (implicitNames first n).reverse := by
      intro first hmem
      obtain ⟨j, -, rfl⟩ := List.mem_map.1 (List.mem_reverse.1 hmem)
      exact hx.1 j rfl
    rw [position_append_of_not_mem (hnot _), position_append_of_not_mem (hnot _),
      hρ.apart x hx]
    simp [implicitNames]

end Scope

/-! ## Related nodes -/

/-- Where a binding stands, the nodes declare the same names. -/
structure Shaped {ι : Type} (e : ι → Expr) : Prop where
  string_eq : ∀ i j, (e i).string? = (e j).string?
  names_eq : ∀ tag i j, Argument.nodeNames tag (e i) = Argument.nodeNames tag (e j)
  offered_eq : ∀ i j, (e i).offered = (e j).offered
  plain : ∀ i, (e i).declared = []

namespace Shaped

variable {ι : Type}

theorem literal (value : Literal) : Shaped (fun _ : ι => Expr.literal value) :=
  ⟨fun _ _ => rfl, fun _ _ _ => rfl, fun _ _ => rfl, fun _ => rfl⟩

theorem array {es : List (ι → Expr)} (h : ∀ e ∈ es, Shaped e) :
    Shaped (fun i => Expr.array (es.map (· i))) := by
  refine ⟨fun _ _ => rfl, fun tag i j => ?_, fun i j => ?_, fun _ => rfl⟩
  · simp only [Argument.nodeNames]
    induction es with
    | nil => rfl
    | cons e rest ih =>
      rw [List.map_cons, List.map_cons, List.mapM_cons, List.mapM_cons,
        (h e List.mem_cons_self).string_eq i j, ih fun e he => h e (List.mem_cons_of_mem _ he)]
  · simp only [offered, List.filterMap_map]
    exact List.filterMap_congr fun e he => (h e he).string_eq i j

theorem object (fields : ι → List (String × Expr)) : Shaped (fun i => Expr.object (fields i)) :=
  ⟨fun _ _ => rfl, fun _ _ _ => rfl, fun _ _ => rfl, fun _ => rfl⟩

theorem operation (tag : ι → String) (operand : ι → Expr) (fields : ι → List (String × Expr)) :
    Shaped (fun i => Expr.operation (tag i) (operand i) (fields i)) :=
  ⟨fun _ _ => rfl, fun _ _ _ => rfl, fun _ _ => rfl, fun _ => rfl⟩

end Shaped

/-- Only explicit names are referred to. -/
def RefersExplicitly (s : Expr) : Prop := ∀ x ∈ s.refers, Explicit x

/-- The implicit names that a node declares, from the first one on, are its own, and it declares all
that were handed out with them. -/
def Scope.Owns (w : Scope o) (s : Expr) : Prop :=
  ∀ k, o.first ≤ k → implicitName k ∈ s.declares →
    w.owner k = some s ∧ ∃ first n, s.declares = implicitNames first n

/-- Two nodes, by depth and afresh, that differ in their implicit names only. -/
structure Scope.Node (w : Scope o) (e : Numbering → Expr) : Prop where
  shaped : Shaped e
  resolved_eq : ∀ ρ, w.Covers ρ → (e .byDepth).resolved ρ.1 = (e .afresh).resolved ρ.2
  explicit : ∀ ρ, w.Covers ρ → ((e .byDepth).resolved ρ.1).Everywhere RefersExplicitly
  owns : (e .afresh).Everywhere w.Owns

namespace Scope

variable {w : Scope o}

theorem Node.mono {w' : Scope o} (h : w.Inside w') {e : Numbering → Expr} (he : w.Node e) :
    w'.Node e := by
  refine ⟨he.shaped, fun ρ hρ => he.resolved_eq ρ (hρ.mono h),
    fun ρ hρ => he.explicit ρ (hρ.mono h), he.owns.imp fun s hs k hfirst hk => ?_⟩
  obtain ⟨howner, hnames⟩ := hs k hfirst hk
  exact ⟨h.2.2 k s howner, hnames⟩

theorem owns_of_declares_nil {s : Expr} (h : s.declares = []) : w.Owns s := by
  intro k _ hk
  rw [h] at hk
  cases hk

theorem owns_of_explicit {s : Expr} (h : ∀ x ∈ s.declares, Explicit x) : w.Owns s :=
  fun k _ hk => absurd rfl (h _ hk k)

theorem node_literal (w : Scope o) (value : Literal) : w.Node (fun _ => .literal value) :=
  ⟨.literal value, fun _ _ => rfl, fun _ _ => everywhere_literal nofun,
    everywhere_literal (owns_of_declares_nil rfl)⟩

theorem node_array {es : List (Numbering → Expr)} (h : ∀ e ∈ es, w.Node e) :
    w.Node (fun i => .array (es.map (· i))) := by
  have hplain : ∀ i, ∀ e ∈ es.map (· i), e.declared = [] := by
    intro i e he
    obtain ⟨e', he', rfl⟩ := List.mem_map.1 he
    exact (h e' he').shaped.plain i
  refine ⟨.array fun e he => (h e he).shaped, fun ρ hρ => ?_, fun ρ hρ => ?_, ?_⟩
  · rw [resolved, resolved, resolvedItems_eq_map (hplain _), resolvedItems_eq_map (hplain _),
      List.map_map, List.map_map]
    exact congrArg Expr.array (List.map_congr_left fun e he => (h e he).resolved_eq ρ hρ)
  · rw [resolved, resolvedItems_eq_map (hplain _), List.map_map]
    refine everywhere_array nofun fun e he => ?_
    obtain ⟨e', he', rfl⟩ := List.mem_map.1 he
    exact (h e' he').explicit ρ hρ
  · apply everywhere_array (owns_of_declares_nil rfl)
    intro e he
    obtain ⟨e', he', rfl⟩ := List.mem_map.1 he
    exact (h e' he').owns

theorem node_object {fields : List (String × (Numbering → Expr))}
    (h : ∀ p ∈ fields, w.Node p.2) :
    w.Node (fun i => .object (fields.map fun p => (p.1, p.2 i))) := by
  refine ⟨.object _, fun ρ hρ => ?_, fun ρ hρ => ?_, ?_⟩
  · rw [resolved, resolved, resolvedFields_eq_map, resolvedFields_eq_map, List.map_map,
      List.map_map]
    refine congrArg Expr.object (List.map_congr_left fun p hp => ?_)
    exact congrArg (Prod.mk p.1) ((h p hp).resolved_eq ρ hρ)
  · rw [resolved, resolvedFields_eq_map, List.map_map]
    refine everywhere_object nofun fun p hp => ?_
    obtain ⟨p', hp', rfl⟩ := List.mem_map.1 hp
    exact (h p' hp').explicit ρ hρ
  · apply everywhere_object (owns_of_declares_nil rfl)
    intro p hp
    obtain ⟨p', hp', rfl⟩ := List.mem_map.1 hp
    exact (h p' hp').owns

theorem node_operation {tag : String} (htag : tag ∉ ["var", "lambda", "let"])
    {operand : Numbering → Expr} {fields : List (String × (Numbering → Expr))}
    (hoperand : w.Node operand) (hfields : ∀ p ∈ fields, w.Node p.2) :
    w.Node (fun i => .operation tag (operand i) (fields.map fun p => (p.1, p.2 i))) := by
  have hdeclares : ∀ (operand : Expr) (fields : List (String × Expr)),
      (Expr.operation tag operand fields).declares = [] := by
    simp only [List.mem_cons, List.not_mem_nil, or_false, not_or] at htag
    simp [declares, binds, htag]
  have hrefers : ∀ (operand : Expr) (fields : List (String × Expr)),
      (Expr.operation tag operand fields).refers = [] := by
    simp only [List.mem_cons, List.not_mem_nil, or_false, not_or] at htag
    simp [refers, htag]
  refine ⟨.operation _ _ _, fun ρ hρ => ?_, fun ρ hρ => ?_, ?_⟩
  · rw [resolved_operation htag, resolved_operation htag, hoperand.resolved_eq ρ hρ, List.map_map,
      List.map_map]
    refine congrArg (Expr.operation tag _) (List.map_congr_left fun p hp => ?_)
    exact congrArg (Prod.mk p.1) ((hfields p hp).resolved_eq ρ hρ)
  · rw [resolved_operation htag, List.map_map]
    refine everywhere_operation ?_ (hoperand.explicit ρ hρ) fun p hp => ?_
    · simp [RefersExplicitly, hrefers]
    · obtain ⟨p', hp', rfl⟩ := List.mem_map.1 hp
      exact (hfields p' hp').explicit ρ hρ
  · refine everywhere_operation (owns_of_declares_nil (hdeclares _ _)) hoperand.owns
      fun p hp => ?_
    obtain ⟨p', hp', rfl⟩ := List.mem_map.1 hp
    exact (hfields p' hp').owns

/-! ## Variables and binders -/

theorem everywhere_marks (n : Nat) : (marks n).Everywhere RefersExplicitly := by
  refine everywhere_array nofun fun e he => ?_
  obtain rfl := List.eq_of_mem_replicate he
  exact everywhere_literal nofun

/-- A resolved variable refers to no implicit name if it is bound or explicit. -/
theorem everywhere_variable {scope : List String} {name : String}
    (h : position name scope = none → Explicit name) :
    ((variableNode name).resolved scope).Everywhere RefersExplicitly := by
  rw [resolved_variableNode]
  cases hposition : position name scope with
  | none =>
    refine everywhere_operation ?_ (everywhere_literal nofun) nofun
    intro x hx
    simp only [refers, if_true, Option.map_none, Option.getD_none] at hx
    exact List.mem_singleton.1 hx ▸ h hposition
  | some i =>
    refine everywhere_operation ?_ (everywhere_marks i) nofun
    intro x hx
    simp [refers, marks, string?, literal?] at hx

theorem node_variable {name : Numbering → String}
    (h : ∀ ρ, w.Covers ρ → (o.Apart (name .byDepth) ∧ name .byDepth = name .afresh) ∨
      ∃ p, position (name .byDepth) ρ.1 = some p ∧ position (name .afresh) ρ.2 = some p) :
    w.Node (fun i => variableNode (name i)) := by
  refine ⟨.operation (fun _ => "var") (fun i => .string (name i)) fun _ => [],
    fun ρ hρ => ?_, fun ρ hρ => ?_, ?_⟩
  · rw [resolved_variableNode, resolved_variableNode]
    rcases h ρ hρ with ⟨hapart, hname⟩ | ⟨p, hp, hp'⟩
    · rw [← hname, hρ.apart _ hapart]
    · rw [hp, hp']
      rfl
  · apply everywhere_variable
    intro hnone
    rcases h ρ hρ with ⟨hapart, -⟩ | ⟨p, hp, -⟩
    · exact hapart.1
    · rw [hnone] at hp
      cases hp
  · exact everywhere_operation (owns_of_declares_nil rfl)
      (everywhere_literal (owns_of_declares_nil rfl)) nofun

theorem node_leaf {value : Leaf} (h : ∀ name, value = .variable name → o.Apart name) :
    w.Node (fun _ => value.node) := by
  have hmarker : ∀ tag text, tag ∉ ["var", "lambda", "let"] →
      w.Node (fun _ => .operation tag (.string text) []) := by
    intro tag text htag
    exact node_operation htag (node_literal w (.string text)) (List.forall_mem_nil _)
  match value with
  | .reference path => exact hmarker "@ref" path (by simp)
  | .timestamp iso => exact hmarker "@ts" iso (by simp)
  | .date iso => exact hmarker "@date" iso (by simp)
  | .variable name => exact node_variable fun ρ hρ => .inl ⟨h name rfl, rfl⟩
  | .bytes data => exact node_literal w (.bytes data)

theorem node_handed (w : Scope o) {j n : Nat} (hj : j < n) :
    (w.enter n).Node (fun i => variableNode (implicitName (w.count i + j))) := by
  have hentered := w.entered
  have hname : implicitName (w.count .byDepth + j) = o.name (w.numbers.length + j) := by
    rw [Outset.name_of_le (by omega), implicitName_inj, count]
    omega
  refine node_variable fun ρ hρ => .inr ?_
  rw [hname]
  apply hρ.bound _ _
  rw [enter, List.getElem?_append_right (Nat.le_add_right _ _)]
  simp [count, hj]

theorem everywhere_lambda {n : Nat} {body : Expr} (h : body.Everywhere RefersExplicitly) :
    (lambdaNode (marks n) body).Everywhere RefersExplicitly :=
  everywhere_operation nofun (everywhere_marks n) (by simpa using h)

theorem node_lambda {parameters body : Numbering → Expr} {tag : String} {names : List String}
    (hparameters : w.Node parameters)
    (hdeclared : ∀ i, Argument.nodeNames tag (parameters i) = .ok names)
    (hnames : ∀ name ∈ names, o.Apart name) (hbody : w.Node body) :
    w.Node (fun i => lambdaNode (parameters i) (body i)) := by
  have hoffered := fun i => Argument.offered_of_nodeNames (hdeclared i)
  have hreverse : ∀ name ∈ names.reverse, o.Apart name :=
    fun name hname => hnames name (List.mem_reverse.1 hname)
  refine ⟨.operation _ _ _, fun ρ hρ => ?_, fun ρ hρ => ?_, ?_⟩
  · rw [resolved_lambdaNode, resolved_lambdaNode, hoffered, hoffered,
      hbody.resolved_eq _ (hρ.declare hreverse)]
  · rw [resolved_lambdaNode, hoffered]
    exact everywhere_lambda (hbody.explicit _ (hρ.declare hreverse))
  · refine everywhere_operation (owns_of_explicit fun x hx => ?_) hparameters.owns
      (by simpa using hbody.owns)
    simp only [declares, binds, if_true, hoffered] at hx
    exact (hnames x hx).1

/-- A lambda that is left declares the numbers of its function. -/
theorem node_leave {w' : Scope o} {n : Nat} (h : (w.enter n).Later w') {body : Numbering → Expr}
    (hbody : w'.Node body) :
    (w.own w' h (lambdaNode (parameterNode (implicitNames w.next n)) (body .afresh))).Node
      (fun i => lambdaNode (parameterNode (implicitNames (w.count i) n)) (body i)) := by
  have hcovers : ∀ ρ, w.Covers ρ →
      w'.Covers ((implicitNames (w.count .byDepth) n).reverse ++ ρ.1,
        (implicitNames w.next n).reverse ++ ρ.2) := fun ρ hρ => Covers.enter h.1 hρ
  refine ⟨.operation _ _ _, fun ρ hρ => ?_, fun ρ hρ => ?_, ?_⟩
  · have hbody' := hbody.resolved_eq _ (hcovers ρ ⟨hρ.bound, hρ.apart⟩)
    rw [resolved_lambdaNode, resolved_lambdaNode, offered_parameterNode, offered_parameterNode]
    simp only [implicitNames, List.length_map, List.length_range'] at hbody' ⊢
    exact congrArg (lambdaNode (marks n)) hbody'
  · rw [resolved_lambdaNode, offered_parameterNode]
    exact everywhere_lambda (hbody.explicit _ (hcovers ρ ⟨hρ.bound, hρ.apart⟩))
  · refine everywhere_operation (fun k _ hk => ?_)
      (everywhere_parameterNode (fun _ => owns_of_declares_nil rfl)
        (fun _ => owns_of_declares_nil rfl) _) fun p hp => ?_
    · have hnames : (lambdaNode (parameterNode (implicitNames w.next n)) (body .afresh)).declares =
          implicitNames w.next n := offered_parameterNode _
      have hrange : w.next ≤ k ∧ k < w.next + n := mem_implicitNames.1 (hnames ▸ hk)
      exact ⟨if_pos hrange, w.next, n, hnames⟩
    · obtain rfl := List.mem_singleton.1 hp
      refine hbody.owns.imp fun s hs k hfirst hk => ?_
      obtain ⟨howner, hnames⟩ := hs k hfirst hk
      have hout := (w'.owned k s howner).2
      rw [h.1] at hout
      refine ⟨(if_neg fun hrange => hout ?_).trans howner, hnames⟩
      exact List.mem_append_right _ (List.mem_range'_1.2 hrange)

theorem resolved_bindings {values : List (String × (Numbering → Expr))}
    (hnames : ∀ p ∈ values, o.Apart p.1) (hvalues : ∀ p ∈ values, w.Node p.2)
    {ρ : List String × List String} (hρ : w.Covers ρ) :
    resolvedItems ρ.1 (values.map fun p => .binding p.1 (p.2 .byDepth)) =
        resolvedItems ρ.2 (values.map fun p => .binding p.1 (p.2 .afresh)) ∧
      ∀ e ∈ resolvedItems ρ.1 (values.map fun p => .binding p.1 (p.2 .byDepth)),
        e.Everywhere RefersExplicitly := by
  induction values generalizing ρ with
  | nil => exact ⟨rfl, nofun⟩
  | cons value rest ih =>
    have hvalue := hvalues value List.mem_cons_self
    have hname : ∀ name ∈ [value.1], o.Apart name := by
      simpa using hnames value List.mem_cons_self
    have hrest := ih (fun p hp => hnames p (List.mem_cons_of_mem _ hp))
      (fun p hp => hvalues p (List.mem_cons_of_mem _ hp)) (hρ.declare hname)
    simp only [List.map_cons, resolvedItems, resolved, declared]
    refine ⟨?_, List.forall_mem_cons.2 ⟨everywhere_binding nofun (hvalue.explicit ρ hρ), hrest.2⟩⟩
    rw [hvalue.resolved_eq ρ hρ, hrest.1]

theorem node_let {values : List (String × (Numbering → Expr))} {body : Numbering → Expr}
    (hnames : ∀ p ∈ values, o.Apart p.1) (hvalues : ∀ p ∈ values, w.Node p.2)
    (hbody : w.Node body) :
    w.Node (fun i => .operation "let" (.array (values.map fun p => .binding p.1 (p.2 i)))
      [("in", body i)]) := by
  have hdeclared : ∀ name ∈ (values.map Prod.fst).reverse, o.Apart name := by
    intro name hname
    obtain ⟨p, hp, rfl⟩ := List.mem_map.1 (List.mem_reverse.1 hname)
    exact hnames p hp
  have hmap : ∀ i, (values.map fun p => Expr.binding p.1 (p.2 i)) =
      (values.map fun p => (p.1, p.2 i)).map fun p => .binding p.1 p.2 := fun i => by
    simp [Function.comp_def]
  have hfirst : ∀ i, (values.map fun p => (p.1, p.2 i)).map Prod.fst = values.map Prod.fst :=
    fun i => by simp [Function.comp_def]
  refine ⟨.operation _ _ _, fun ρ hρ => ?_, fun ρ hρ => ?_, ?_⟩
  · rw [hmap, hmap, resolved_let, resolved_let, hfirst, hfirst,
      hbody.resolved_eq _ (hρ.declare hdeclared), ← hmap, ← hmap,
      (resolved_bindings hnames hvalues hρ).1]
  · rw [hmap, resolved_let, hfirst, ← hmap]
    refine everywhere_operation nofun
      (everywhere_array nofun (resolved_bindings hnames hvalues hρ).2) ?_
    simpa using hbody.explicit _ (hρ.declare hdeclared)
  · refine everywhere_operation (owns_of_explicit fun x hx => ?_)
      (everywhere_array (owns_of_declares_nil rfl) fun e he => ?_) (by simpa using hbody.owns)
    · rw [declares, hmap, binds_let, hfirst, ← List.mem_reverse] at hx
      exact (hdeclared x hx).1
    · obtain ⟨p, hp, rfl⟩ := List.mem_map.1 he
      exact everywhere_binding (owns_of_declares_nil rfl) (hvalues p hp).owns

end Scope

/-! ## Both runs -/

instance : Nonempty Numbering := ⟨.byDepth⟩

/-- The runs by depth and afresh, side by side. -/
def twofold (o : Outset) : Parallel Numbering where
  numbering i := i
  World := Scope o
  count := Scope.count
  Later := Scope.Later
  Inside := Scope.Inside
  enter := Scope.enter
  Named := o.Apart
  Node := Scope.Node
  later_refl w := ⟨rfl, Nat.le_refl _, fun _ _ hs => hs⟩
  later_trans h h' := ⟨h'.1.trans h.1, h.2.trans h'.2⟩
  inside_of_later h := ⟨⟨[], by simpa using h.1⟩, h.2⟩
  inside_trans := by
    rintro w w' w'' ⟨⟨added, hnumbers⟩, hgrows⟩ ⟨⟨added', hnumbers'⟩, hgrows'⟩
    refine ⟨⟨added ++ added', ?_⟩, hgrows.trans hgrows'⟩
    rw [hnumbers', hnumbers, List.append_assoc]
  inside_enter w n := ⟨⟨_, rfl⟩, Nat.le_add_right _ _, fun _ _ hs => hs⟩
  count_enter w n i := by
    have hentered := w.entered
    cases i with
    | byDepth =>
      simp only [Scope.count, Scope.enter, List.length_append, List.length_range']
      omega
    | afresh => rfl
  node_mono h he := he.mono h
  string_eq h := h.shaped.string_eq
  names_eq h := h.shaped.names_eq
  node_literal := Scope.node_literal
  node_array _ := Scope.node_array
  node_object _ _ := Scope.node_object
  node_leaf w value h := Scope.node_leaf h
  node_operation := by
    intro w entry form position slots operand fields hentry hform hlayout hfits hfilled
    have hreserved := Catalog.layout_tag_not_reserved _ hentry (by simp [hform, hlayout])
    refine Scope.node_operation (fun htag => hreserved ?_)
      (hfits.node fun _ => Scope.node_array) (hfilled.node fun _ => Scope.node_array)
    simp only [Catalog.reservedTags, List.mem_cons] at htag ⊢
    tauto
  node_let _ _ := Scope.node_let
  node_lambda := Scope.node_lambda
  node_handed w j n hj := Scope.node_handed w hj
  leave := by
    intro w n w' h
    refine ⟨w.left w' h, Scope.later_left h, fun i => ?_⟩
    cases i <;> rfl
  node_leave := by
    intro w n w' e _ h he
    refine ⟨_, Scope.later_own h _, fun i => ?_, Scope.node_leave h he⟩
    cases i <;> rfl

end QueryTree
