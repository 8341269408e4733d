import QueryTree.Proofs.Catalog
import QueryTree.Proofs.Usage

/-!
# Parallel runs

One term is run several times, with its implicit variables numbered in different ways. A world says
which variables are in scope and which numbers have been given so far, and relates the nodes of the
runs. The runs end alike: all of them give related results in a later world, or all of them stop
with the same error or exception.
-/

namespace QueryTree

variable {ι α β : Type}

/-! ## Nodes side by side -/

/-- The node in a position: a list of nodes where a list is taken, any node elsewhere. -/
def Fits (Node : (ι → Expr) → Prop) (e : ι → Expr) : Position → Prop
  | .items least =>
    ∃ es : List (ι → Expr), (e = fun i => .array (es.map (· i))) ∧ least ≤ es.length ∧
      ∀ e' ∈ es, Node e'
  | _ => Node e

/-- Fields for slots in their order. -/
inductive Filled (Node : (ι → Expr) → Prop) : List Slot → List (String × (ι → Expr)) → Prop
  | nil : Filled Node [] []
  | skip {slot slots fields} : slot.optional = true → Filled Node slots fields →
      Filled Node (slot :: slots) fields
  | fill {slot slots fields e} : Fits Node e slot.position → Filled Node slots fields →
      Filled Node (slot :: slots) ((slot.name, e) :: fields)

theorem Fits.node {Node : (ι → Expr) → Prop}
    (harray : ∀ es : List (ι → Expr), (∀ e ∈ es, Node e) → Node (fun i => .array (es.map (· i))))
    {e : ι → Expr} {position : Position} (h : Fits Node e position) : Node e := by
  cases position with
  | items least =>
    obtain ⟨es, rfl, -, hes⟩ := h
    exact harray es hes
  | value => exact h
  | lambda => exact h

theorem Filled.node {Node : (ι → Expr) → Prop}
    (harray : ∀ es : List (ι → Expr), (∀ e ∈ es, Node e) → Node (fun i => .array (es.map (· i))))
    {slots : List Slot} {fields : List (String × (ι → Expr))} (h : Filled Node slots fields) :
    ∀ p ∈ fields, Node p.2 := by
  induction h with
  | nil => exact nofun
  | skip _ _ ih => exact ih
  | fill hfits _ ih => exact List.forall_mem_cons.2 ⟨hfits.node harray, ih⟩

/-- Runs side by side. `Later` keeps the scope, `Inside` may also extend it. -/
structure Parallel (ι : Type) where
  numbering : ι → Numbering
  World : Type
  count : World → ι → Nat
  Later : World → World → Prop
  Inside : World → World → Prop
  enter : World → Nat → World
  Named : String → Prop
  Node : World → (ι → Expr) → Prop
  later_refl : ∀ w, Later w w
  later_trans : ∀ {w w' w''}, Later w w' → Later w' w'' → Later w w''
  inside_of_later : ∀ {w w'}, Later w w' → Inside w w'
  inside_trans : ∀ {w w' w''}, Inside w w' → Inside w' w'' → Inside w w''
  inside_enter : ∀ w n, Inside w (enter w n)
  count_enter : ∀ w n i, count (enter w n) i = count w i + n
  node_mono : ∀ {w w' e}, Inside w w' → Node w e → Node w' e
  string_eq : ∀ {w e}, Node w e → ∀ i j, (e i).string? = (e j).string?
  names_eq : ∀ {w e}, Node w e → ∀ tag i j,
    Argument.nodeNames tag (e i) = Argument.nodeNames tag (e j)
  node_literal : ∀ w value, Node w (fun _ => .literal value)
  node_array : ∀ {w} (es : List (ι → Expr)), (∀ e ∈ es, Node w e) →
    Node w (fun i => .array (es.map (· i)))
  node_object : ∀ {w} (fields : List (String × (ι → Expr))), Fields.Ascending fields →
    (∀ p ∈ fields, Node w p.2) → Node w (fun i => .object (fields.map fun p => (p.1, p.2 i)))
  node_leaf : ∀ w (value : Leaf), (∀ name, value = .variable name → Named name) →
    Node w (fun _ => value.node)
  node_operation : ∀ {w} {entry : Entry} {form : Form} {position slots operand fields},
    entry ∈ Catalog.entries → entry.form? = some form → form.layout? = some (position, slots) →
    Fits (Node w) operand position → Filled (Node w) slots fields →
    Node w (fun i => .operation entry.tag (operand i) (fields.map fun p => (p.1, p.2 i)))
  node_let : ∀ {w} (values : List (String × (ι → Expr))) {body}, (∀ p ∈ values, Named p.1) →
    (∀ p ∈ values, Node w p.2) → Node w body →
    Node w (fun i => .operation "let" (.array (values.map fun p => .binding p.1 (p.2 i)))
      [("in", body i)])
  node_lambda : ∀ {w parameters tag names body}, Node w parameters →
    (∀ i, Argument.nodeNames tag (parameters i) = .ok names) → (∀ name ∈ names, Named name) →
    Node w body → Node w (fun i => lambdaNode (parameters i) (body i))
  node_handed : ∀ w {j n}, j < n →
    Node (enter w n) (fun i => variableNode (implicitName (count w i + j)))
  leave : ∀ {w n w'}, Later (enter w n) w' → ∃ w'', Later w w'' ∧
    ∀ i, count w'' i = (numbering i).leave (count w i) (count w' i)
  node_leave : ∀ {w n w' e}, 0 < n → Later (enter w n) w' → Node w' e → ∃ w'', Later w w'' ∧
    (∀ i, count w'' i = (numbering i).leave (count w i) (count w' i)) ∧
    Node w'' (fun i => lambdaNode (parameterNode (implicitNames (count w i) n)) (e i))

/-- Runs by depth, which start at counts that are so much apart. Their nodes are related without
regard to the scope. -/
structure ByDepth (ι : Type) where
  apart : ι → Nat
  Named : String → Prop
  Node : (ι → Expr) → Prop
  string_eq : ∀ {e}, Node e → ∀ i j, (e i).string? = (e j).string?
  names_eq : ∀ {e}, Node e → ∀ tag i j,
    Argument.nodeNames tag (e i) = Argument.nodeNames tag (e j)
  node_literal : ∀ value, Node (fun _ => .literal value)
  node_array : ∀ es : List (ι → Expr), (∀ e ∈ es, Node e) → Node (fun i => .array (es.map (· i)))
  node_object : ∀ fields : List (String × (ι → Expr)), Fields.Ascending fields →
    (∀ p ∈ fields, Node p.2) → Node (fun i => .object (fields.map fun p => (p.1, p.2 i)))
  node_leaf : ∀ value : Leaf, (∀ name, value = .variable name → Named name) →
    Node (fun _ => value.node)
  node_operation : ∀ {entry : Entry} {form : Form} {position slots operand fields},
    entry ∈ Catalog.entries → entry.form? = some form → form.layout? = some (position, slots) →
    Fits Node operand position → Filled Node slots fields →
    Node (fun i => .operation entry.tag (operand i) (fields.map fun p => (p.1, p.2 i)))
  node_let : ∀ (values : List (String × (ι → Expr))) {body}, (∀ p ∈ values, Named p.1) →
    (∀ p ∈ values, Node p.2) → Node body →
    Node (fun i => .operation "let" (.array (values.map fun p => .binding p.1 (p.2 i)))
      [("in", body i)])
  node_lambda : ∀ {parameters tag names body}, Node parameters →
    (∀ i, Argument.nodeNames tag (parameters i) = .ok names) → (∀ name ∈ names, Named name) →
    Node body → Node (fun i => lambdaNode (parameters i) (body i))
  node_variable : ∀ number, Node (fun i => variableNode (implicitName (number + apart i)))
  node_reified : ∀ first n {body}, Node body → Node (fun i =>
    lambdaNode (parameterNode (implicitNames (first + apart i) n)) (body i))

/-- A world is the count of a run that is not apart. It does not change. -/
def ByDepth.parallel (P : ByDepth ι) : Parallel ι where
  numbering _ := .byDepth
  World := Nat
  count w i := w + P.apart i
  Later w w' := w = w'
  Inside _ _ := True
  enter w n := w + n
  Named := P.Named
  Node _ := P.Node
  later_refl _ := rfl
  later_trans h h' := h.trans h'
  inside_of_later _ := trivial
  inside_trans _ _ := trivial
  inside_enter _ _ := trivial
  count_enter w n i := Nat.add_right_comm w n (P.apart i)
  node_mono _ h := h
  string_eq := P.string_eq
  names_eq := P.names_eq
  node_literal _ := P.node_literal
  node_array := P.node_array
  node_object := P.node_object
  node_leaf _ := P.node_leaf
  node_operation := P.node_operation
  node_let := P.node_let
  node_lambda := P.node_lambda
  node_handed w j n _ := by
    have hnode := P.node_variable (w + j)
    simp only [Nat.add_right_comm w j] at hnode
    exact hnode
  leave := by
    rintro w n _ rfl
    exact ⟨w, rfl, fun _ => rfl⟩
  node_leave := by
    rintro w n _ e - rfl he
    exact ⟨w, rfl, fun _ => rfl, P.node_reified w n he⟩

/-! ## Results side by side -/

/-- All of the results are values, with the property, or all are the same error. -/
def Agree (Q : (ι → α) → Prop) (r : ι → Except BuildError α) : Prop :=
  (∃ a, Q a ∧ ∀ i, r i = .ok (a i)) ∨ ∃ error, ∀ i, r i = .error error

/-- Lists of the same length, whose elements are related place by place. -/
def Each (Q : (ι → α) → Prop) (length : Nat) (as : ι → List α) : Prop :=
  ∃ l : List (ι → α), (as = fun i => l.map (· i)) ∧ l.length = length ∧ ∀ a ∈ l, Q a

theorem agree_pure {Q : (ι → α) → Prop} {a : ι → α} (h : Q a) :
    Agree Q (fun i => (pure (a i) : Except BuildError α)) := .inl ⟨a, h, fun _ => rfl⟩

theorem agree_error {Q : (ι → α) → Prop} (error : BuildError) :
    Agree Q (fun _ => (.error error : Except BuildError α)) := .inr ⟨error, fun _ => rfl⟩

theorem agree_bind {Q : (ι → α) → Prop} {R : (ι → β) → Prop} {r : ι → Except BuildError α}
    {f : ι → α → Except BuildError β} (hr : Agree Q r)
    (hf : ∀ a, Q a → Agree R (fun i => f i (a i))) : Agree R (fun i => r i >>= f i) := by
  rcases hr with ⟨a, ha, hok⟩ | ⟨error, herror⟩
  · rcases hf a ha with ⟨b, hb, hok'⟩ | ⟨error, herror⟩
    · refine .inl ⟨b, hb, fun i => ?_⟩
      simp only [hok]
      exact hok' i
    · refine .inr ⟨error, fun i => ?_⟩
      simp only [hok]
      exact herror i
  · refine .inr ⟨error, fun i => ?_⟩
    simp only [herror]
    rfl

namespace Parallel

variable (P : Parallel ι)

/-- The runs, started at the counts of a world, end alike in a later one. -/
def Ends (Q : P.World → (ι → α) → Prop) (w : P.World) (x : ι → Build α) : Prop :=
  ∃ w', P.Later w w' ∧
    ((∃ a, Q w' a ∧ ∀ i, x i (P.count w i) = .ok (a i) (P.count w' i)) ∨
      ∃ stop, ∀ i, x i (P.count w i) = .error stop (P.count w' i))

variable {P} {Q : P.World → (ι → α) → Prop} {R : P.World → (ι → β) → Prop} {w : P.World}

theorem ends_pure {a : ι → α} (h : Q w a) : P.Ends Q w (fun i => pure (a i)) :=
  ⟨w, P.later_refl w, .inl ⟨a, h, fun _ => rfl⟩⟩

theorem ends_stop (x : Build α) (stop : Stop) (h : ∀ bound, x bound = .error stop bound) :
    P.Ends Q w (fun _ => x) :=
  ⟨w, P.later_refl w, .inr ⟨stop, fun i => h (P.count w i)⟩⟩

theorem ends_bind {x : ι → Build α} {f : ι → α → Build β} (hx : P.Ends Q w x)
    (hf : ∀ w' a, P.Later w w' → Q w' a → P.Ends R w' (fun i => f i (a i))) :
    P.Ends R w (fun i => x i >>= f i) := by
  obtain ⟨w', hlater, ⟨a, ha, hok⟩ | ⟨stop, hstop⟩⟩ := hx
  · obtain ⟨w'', hlater', h⟩ := hf w' a hlater ha
    refine ⟨w'', P.later_trans hlater hlater', ?_⟩
    simp only [Build.bind_apply, hok]
    exact h
  · refine ⟨w', hlater, .inr ⟨stop, fun i => ?_⟩⟩
    simp only [Build.bind_apply, hstop]

theorem ends_ofExcept {r : ι → Except BuildError α} (h : Agree (Q w) r) :
    P.Ends Q w (fun i => Build.ofExcept (r i)) := by
  refine ⟨w, P.later_refl w, ?_⟩
  rcases h with ⟨a, ha, hok⟩ | ⟨error, herror⟩
  · refine .inl ⟨a, ha, fun i => ?_⟩
    simp only [hok]
    rfl
  · refine .inr ⟨.failed error, fun i => ?_⟩
    simp only [herror]
    rfl

theorem Ends.imp {Q' : P.World → (ι → α) → Prop} {x : ι → Build α} (hx : P.Ends Q w x)
    (h : ∀ w' a, P.Later w w' → Q w' a → Q' w' a) : P.Ends Q' w x := by
  obtain ⟨w', hlater, ⟨a, ha, hok⟩ | hstop⟩ := hx
  · exact ⟨w', hlater, .inl ⟨a, h w' a hlater ha, hok⟩⟩
  · exact ⟨w', hlater, .inr hstop⟩

/-- What each run yields holds of the values. -/
theorem Ends.yields {Y : ι → α → Prop} {x : ι → Build α} (hx : P.Ends Q w x)
    (h : ∀ i, Build.Yields (Y i) (x i)) : P.Ends (fun w a => Q w a ∧ ∀ i, Y i (a i)) w x := by
  obtain ⟨w', hlater, ⟨a, ha, hok⟩ | hstop⟩ := hx
  · exact ⟨w', hlater, .inl ⟨a, ⟨ha, fun i => h i _ _ _ (hok i)⟩, hok⟩⟩
  · exact ⟨w', hlater, .inr hstop⟩

theorem ends_binding {n : Nat} (hn : 0 < n) {part : ι → Nat → Build Expr}
    {body : ι → Build Expr}
    (hpart : ∀ i, part i (P.count w i) = do
      return lambdaNode (parameterNode (implicitNames (P.count w i) n)) (← body i))
    (h : P.Ends P.Node (P.enter w n) body) :
    P.Ends P.Node w (fun i => Build.binding (P.numbering i) n (part i)) := by
  obtain ⟨w', hlater, ⟨e, he, hok⟩ | ⟨stop, hstop⟩⟩ := h
  · obtain ⟨w'', hlater', hcount, hnode⟩ := P.node_leave hn hlater he
    refine ⟨w'', hlater', .inl ⟨_, hnode, fun i => ?_⟩⟩
    simp only [Build.binding, hpart, Build.bind_apply, ← P.count_enter, hcount, hok]
    rfl
  · obtain ⟨w'', hlater', hcount⟩ := P.leave hlater
    refine ⟨w'', hlater', .inr ⟨stop, fun i => ?_⟩⟩
    simp only [Build.binding, hpart, Build.bind_apply, ← P.count_enter, hcount, hstop]

/-! ## Arguments side by side -/

/-- Variables that a function may be called with. -/
def Handed (P : Parallel ι) (w : P.World) (e : ι → Expr) : Prop :=
  P.Node w e ∧ ∀ i, (e i).offered = []

/-- Related functions, called with related variables in any scope around them, end alike. -/
inductive Related (P : Parallel ι) (w : P.World) : (ι → Argument) → Prop
  | literal (value) : Related P w (fun _ => .literal value)
  | array (items : List (ι → Argument)) : (∀ a ∈ items, Related P w a) →
      Related P w (fun i => .array (items.map (· i)))
  | object (fields : List (String × (ι → Argument))) : (∀ p ∈ fields, Related P w p.2) →
      Related P w (fun i => .object (fields.map fun p => (p.1, p.2 i)))
  | node {e} : P.Node w e → Related P w (fun i => .node (e i))
  | function {arity} {f : ι → List Expr → Build Argument} :
      (∀ tag w' (es : List (ι → Expr)), P.Inside w w' → es.length = arity →
        (∀ e ∈ es, P.Handed w' e) → P.Ends P.Node w' fun i =>
          Argument.enter (P.numbering i) tag (f i) (es.map (· i))) →
      Related P w (fun i => .function arity (f i))
  | failed (error) : Related P w (fun _ => .failed error)

theorem Related.mono {w w' : P.World} {a : ι → Argument} (h : P.Inside w w')
    (ha : P.Related w a) : P.Related w' a := by
  induction ha with
  | literal value => exact .literal value
  | array items _ ih => exact .array items ih
  | object fields _ ih => exact .object fields ih
  | node he => exact .node (P.node_mono h he)
  | function hf =>
    exact .function fun tag w'' es hinside => hf tag w'' es (P.inside_trans h hinside)
  | failed error => exact .failed error

theorem related_ofExcept {r : ι → Except BuildError Expr} (h : Agree (P.Node w) r) :
    P.Related w (fun i => .ofExcept (r i)) := by
  rcases h with ⟨e, he, hok⟩ | ⟨error, herror⟩
  · simp only [hok]
    exact .node he
  · simp only [herror]
    exact .failed error

theorem ends_captured {x : ι → Build Expr} (h : P.Ends P.Node w x) :
    P.Ends P.Related w (fun i => (x i).captured) := by
  obtain ⟨w', hlater, h⟩ := h
  refine ⟨w', hlater, ?_⟩
  simp only [Build.captured, Build.bind_apply, Build.outcome]
  rcases h with ⟨e, he, hok⟩ | ⟨stop, hstop⟩
  · refine .inl ⟨_, .node he, fun i => ?_⟩
    simp only [hok]
    rfl
  · cases stop with
    | failed error =>
      refine .inl ⟨_, .failed error, fun i => ?_⟩
      simp only [hstop]
      rfl
    | thrown message =>
      refine .inr ⟨.thrown message, fun i => ?_⟩
      simp only [hstop]

theorem ends_catching {x fallback : ι → Build Argument} (hx : P.Ends P.Related w x)
    (hf : ∀ w', P.Later w w' → P.Ends P.Related w' fallback) :
    P.Ends P.Related w (fun i => (x i).catching (fallback i)) := by
  obtain ⟨w', hlater, h⟩ := hx
  simp only [Ends, Build.catching]
  rcases h with ⟨a, ha, hok⟩ | ⟨stop, hstop⟩
  · refine ⟨w', hlater, .inl ⟨a, ha, fun i => ?_⟩⟩
    simp only [hok]
  · cases stop with
    | failed error =>
      refine ⟨w', hlater, .inr ⟨.failed error, fun i => ?_⟩⟩
      simp only [hstop]
    | thrown message =>
      obtain ⟨w'', hlater', h⟩ := hf w' hlater
      refine ⟨w'', P.later_trans hlater hlater', ?_⟩
      simp only [hstop]
      exact h

theorem ends_replacingFailure {x fallback : ι → Build Argument} (hx : P.Ends P.Related w x)
    (hf : ∀ w', P.Later w w' → P.Ends P.Related w' fallback) :
    P.Ends P.Related w (fun i => (x i).replacingFailure (fallback i)) := by
  apply ends_bind hx
  intro w' a hlater ha
  cases ha with
  | failed error => exact hf w' hlater
  | literal value => exact ends_pure (.literal value)
  | array items h => exact ends_pure (.array items h)
  | object fields h => exact ends_pure (.object fields h)
  | node he => exact ends_pure (.node he)
  | function h => exact ends_pure (.function h)

end Parallel

end QueryTree
