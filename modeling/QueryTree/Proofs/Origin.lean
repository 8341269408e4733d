import QueryTree.Proofs.Capture
import QueryTree.Proofs.Curried
import QueryTree.Proofs.Declared

/-!
# Where lambdas come from

A lambda is the node of a host function that is reified, or of a call that is given explicit
bindings. The first kind declares at least one name, and none twice. The second kind declares the
names of its bindings, in their order and as often as they stand there. An argument is followed with
the tasks that run for it, so that each lambda in its node is one of these two kinds.
-/

namespace QueryTree

open QueryTree.Expr

/-- With a task the set has all that this task starts. -/
def Closed (ran : Task → Nat → Prop) : Prop :=
  ∀ {task c n task' c'}, ran task c → Starts task c n task' c' → ran task' c'

/-! ## Lists that run in order -/

section

variable {α β γ : Type} {run : List α → Build β} {reach : α → Nat → Prop} {x : α} {xs : List α}
  {c c' : Nat}

/-- Each place of the list is met at the count at which the places before it end. -/
def Met (run : List α → Build β) (reach : α → Nat → Prop) (xs : List α) (c : Nat) : Prop :=
  ∀ before x rest b c', xs = before ++ x :: rest → run before c = .ok b c' → reach x c'

theorem Met.head {b : β} (h : Met run reach (x :: xs) c) (hrun : run [] c = .ok b c) :
    reach x c := h [] x xs b c rfl hrun

theorem Met.tail (h : Met run reach (x :: xs) c)
    (hcons : ∀ before b c'', run before c' = .ok b c'' →
      ∃ b', run (x :: before) c = .ok b' c'') : Met run reach xs c' := by
  intro before y rest b c'' hsplit hrun
  obtain ⟨b', hrun'⟩ := hcons before b c'' hrun
  exact h (x :: before) y rest b' c'' (congrArg (x :: ·) hsplit) hrun'

/-- The first place runs before the others. -/
theorem Met.tail_bind {first : Build γ} {join : γ → β → β} {a : γ}
    (h : Met run reach (x :: xs) c)
    (hcons : ∀ before, run (x :: before) = do return join (← first) (← run before))
    (hfirst : first c = .ok a c') : Met run reach xs c' := by
  refine h.tail fun before b c'' hrun => ⟨join a b, ?_⟩
  rw [hcons, Build.bind_apply, hfirst]
  simp only [Build.bind_apply, hrun]
  rfl

end

/-! ## Lambdas of tasks -/

namespace Expr

/-- The node is that of a host function in a lambda position. -/
def Reified (ran : Task → Nat → Prop) (s : Expr) : Prop :=
  ∃ tag env f n c atEnd, Program.arity? f = some n ∧ ran (.lambda tag (f.given env n)) c ∧
    (f.given env n).normalizeLambda .byDepth tag c = .ok s atEnd

/-- The node is that of a call whose explicit bindings list these names. -/
def Bound (ran : Task → Nat → Prop) (names : List String) (s : Expr) : Prop :=
  ∃ (b : Builder) (operands : Operands) (c atEnd : Nat) (parameters : Expr), b.form = .lambda ∧
    ran (.call b operands) c ∧ b.build .byDepth operands c = .ok s atEnd ∧
    (operands.field b.tag).bindingNames b.tag = .ok (parameters, names)

/-- If the node is a lambda, it comes from one of the tasks. -/
def Sourced (ran : Task → Nat → Prop) (s : Expr) : Prop :=
  s.tag? = some "lambda" → s.Reified ran ∨ ∃ names, s.Bound ran names

theorem sourced_of_none {ran : Task → Nat → Prop} {s : Expr} (h : s.tag? = none) :
    s.Sourced ran := by
  intro hlambda
  rw [h] at hlambda
  cases hlambda

theorem sourced_operation {ran : Task → Nat → Prop} {tag : String} (h : tag ≠ "lambda")
    {operand : Expr} {fields : List (String × Expr)} :
    (operation tag operand fields).Sourced ran :=
  fun hlambda => absurd (Option.some.inj hlambda) h

theorem sourced_variables (ran : Task → Nat → Prop) (names : List String) :
    ∀ e ∈ names.map variableNode, e.Everywhere (Sourced ran) := by
  intro e he
  obtain ⟨name, -, rfl⟩ := List.mem_map.1 he
  refine everywhere_operation (sourced_operation (by decide)) ?_ (List.forall_mem_nil _)
  exact everywhere_literal (sourced_of_none rfl)

/-- A function that becomes a lambda has parameters, is called on their variables while they are
counted, and what it gives becomes the body. -/
theorem reified_ok {tag : String} {n c atEnd : Nat} {function : List Expr → Build Argument}
    {s : Expr} (h : (Argument.function n function).normalizeLambda .byDepth tag c = .ok s atEnd) :
    n ≠ 0 ∧ ∃ given start body middle,
      function ((implicitNames c n).map variableNode) (c + n) = .ok given start ∧
      given.normalizeLambda .byDepth tag start = .ok body middle ∧
      s = lambdaNode (parameterNode (implicitNames c n)) body := by
  cases n with
  | zero => cases h
  | succ n =>
    rw [Argument.normalizeLambda_function] at h
    simp only [Build.binding] at h
    split at h
    · rename_i hpart
      obtain ⟨body, _, henter, hpart⟩ := Build.bind_eq_ok hpart
      obtain ⟨given, start, hgiven, hbody⟩ := Build.bind_eq_ok henter
      cases hpart
      cases h
      exact ⟨Nat.succ_ne_zero n, given, start, body, _, hgiven, hbody, rfl⟩
    · cases h

theorem Reified.declares {ran : Task → Nat → Prop} {s : Expr} (h : s.Reified ran) :
    s.declares ≠ [] ∧ s.declares.Nodup := by
  obtain ⟨tag, env, f, n, c, atEnd, -, -, hnode⟩ := h
  obtain ⟨hn, given, start, body, middle, -, -, rfl⟩ := reified_ok hnode
  have hsynthesized : (lambdaNode (parameterNode (implicitNames c n)) body).declares =
      implicitNames c n := offered_parameterNode _
  rw [hsynthesized]
  exact ⟨by simpa [implicitNames] using hn, nodup_implicitNames _ _⟩

theorem Bound.declares {ran : Task → Nat → Prop} {names : List String} {s : Expr}
    (h : s.Bound ran names) : s.declares = names := by
  obtain ⟨b, operands, c, atEnd, parameters, hform, -, hnode, hnames⟩ := h
  obtain ⟨operand, field, body, rfl, hbinds, -⟩ :=
    Builder.build_declaring (.declared hform hnames) hnode
  exact hbinds

end Expr

/-! ## Arguments -/

variable {ran : Task → Nat → Prop}

/-- All lambdas in the argument come from tasks, also those in what its functions give. -/
inductive Argument.Sourced (ran : Task → Nat → Prop) : Argument → Prop
  | literal (value : Literal) : Sourced ran (.literal value)
  | array {items : List Argument} : (∀ a ∈ items, Sourced ran a) → Sourced ran (.array items)
  | object {fields : List (String × Argument)} : (∀ p ∈ fields, Sourced ran p.2) →
      Sourced ran (.object fields)
  | node {e : Expr} : e.Everywhere (Expr.Sourced ran) → Sourced ran (.node e)
  | failed (error : BuildError) : Sourced ran (.failed error)
  | function {env : Env} {f : Program} {n : Nat} : f.arity? = some n →
      (∀ es c a atEnd, ran (.host env f es) c → (∀ e ∈ es, e.Everywhere (Expr.Sourced ran)) →
        f.hosted .byDepth env es c = .ok a atEnd → Sourced ran a) →
      Sourced ran (f.given env n)

theorem Argument.forall_of_normalizeFields {Q : Expr → Prop} {tag : String}
    {pairs : List (String × Argument)} {fields : List (String × Expr)}
    (h : ∀ p ∈ pairs, ∀ e, p.2.normalize tag = .ok e → Q e)
    (hfields : normalizeFields tag pairs = .ok fields) : ∀ p ∈ fields, Q p.2 := by
  intro p hp
  rw [normalizeFields_eq_mapM] at hfields
  obtain ⟨q, hq, hnode⟩ := mem_of_mapM_ok hfields hp
  obtain ⟨e, hvalue, hpair⟩ := bind_ok hnode
  cases hpair
  exact h q hq e hvalue

namespace Argument.Sourced

variable {a : Argument} {tag : String} {c atEnd : Nat} {e : Expr}

theorem normalize (h : a.Sourced ran) (he : a.normalize tag = .ok e) :
    e.Everywhere (Expr.Sourced ran) := by
  induction h generalizing e with
  | literal value =>
    cases he
    exact everywhere_literal (sourced_of_none rfl)
  | array _ ih =>
    obtain ⟨es, hitems, rfl⟩ := normalize_array_ok he
    refine everywhere_array (sourced_of_none rfl) fun e he => ?_
    rw [normalizeItems_eq_mapM] at hitems
    obtain ⟨a, ha, hnode⟩ := mem_of_mapM_ok hitems he
    exact ih a ha hnode
  | object _ ih =>
    obtain ⟨fields, hfields, rfl⟩ := normalize_object_ok he
    refine everywhere_object (sourced_of_none rfl) fun p hp => ?_
    exact forall_of_normalizeFields (fun q hq e => ih q hq) hfields p (Fields.mem_of_mem_sorted hp)
  | node hnode =>
    cases he
    exact hnode
  | failed error => cases he
  | function => cases he

theorem ofExcept (h : a.Sourced ran) (he : Build.ofExcept (a.normalize tag) c = .ok e atEnd) :
    e.Everywhere (Expr.Sourced ran) := h.normalize (Build.ofExcept_ok_iff.1 he).2

theorem normalizeLambda_data (h : a.Sourced ran) (ha : a.arity? = none)
    (he : a.normalizeLambda .byDepth tag c = .ok e atEnd) : e.Everywhere (Expr.Sourced ran) := by
  rw [normalizeLambda_of_data .byDepth ha] at he
  exact h.ofExcept he

/-- The node in a lambda position. A function that is called there becomes a lambda of this task,
and what it gives is a task of its own. -/
theorem normalizeLambda (hran : Closed ran) (h : a.Sourced ran) (ha : ran (.lambda tag a) c)
    (he : a.normalizeLambda .byDepth tag c = .ok e atEnd) : e.Everywhere (Expr.Sourced ran) := by
  induction h generalizing c atEnd e with
  | @function env f n harity _ ih =>
    have hreified : e.Reified ran := ⟨tag, env, f, n, c, atEnd, harity, ha, he⟩
    obtain ⟨hn, given, start, body, middle, hgiven, hbody, rfl⟩ := reified_ok he
    obtain ⟨m, rfl⟩ := Nat.exists_eq_succ_of_ne_zero hn
    have hsourced := ih _ _ _ _ (hran ha (.reified harity)) (sourced_variables ran _) hgiven
      (hran ha (.result harity hgiven)) hbody
    refine everywhere_operation (fun _ => .inl hreified) ?_ (List.forall_mem_singleton.2 hsourced)
    exact everywhere_parameterNode (fun _ => sourced_of_none rfl) (fun _ => sourced_of_none rfl) _
  | literal value => exact (literal value).normalizeLambda_data rfl he
  | array hitems => exact (array hitems).normalizeLambda_data rfl he
  | object hfields => exact (object hfields).normalizeLambda_data rfl he
  | node hnode => exact (node hnode).normalizeLambda_data rfl he
  | failed error => cases he

/-- The body under declared names. -/
theorem normalizeBody (hran : Closed ran) {names : List String} (h : a.Sourced ran)
    (ha : ran (.body tag names a) c)
    (he : a.normalizeBody .byDepth tag names c = .ok e atEnd) :
    e.Everywhere (Expr.Sourced ran) := by
  by_cases hdata : a.arity? = none
  · rw [normalizeBody_of_data .byDepth names hdata] at he
    exact h.ofExcept he
  · cases h with
    | @function env f n harity hhosted =>
      simp only [Program.given, Argument.normalizeBody] at he
      split at he
      · rename_i hn
        subst hn
        obtain ⟨given, start, hgiven, hbody⟩ := Build.bind_eq_ok he
        have hsourced :=
          hhosted _ _ _ _ (hran ha (.applied harity)) (sourced_variables ran _) hgiven
        exact hsourced.normalizeLambda hran (hran ha (.appliedResult harity hgiven)) hbody
      · cases he
    | _ => exact absurd rfl hdata

end Argument.Sourced

/-! ## Builder calls -/

/-- Only the lambda form has the tag of lambdas. -/
theorem Builder.tag_ne_lambda (b : Builder) (h : b.form.layout?.isSome) : b.tag ≠ "lambda" := by
  have hreserved := Catalog.layout_tag_not_reserved _ b.listed (by simpa [b.formed] using h)
  intro htag
  rw [b.entry_tag, htag] at hreserved
  simp [Catalog.reservedTags] at hreserved

section

variable {b : Builder} {operands : Operands} {tag : String} {c atEnd : Nat} {e : Expr}

theorem sourced_field (h : ∀ p ∈ operands, p.2.Sourced ran) (name : String) :
    (operands.field name).Sourced ran := by
  rw [Operands.field, Operands.field?]
  cases hfound : operands.reverse.find? (fun p => p.1 == .field name) with
  | none => exact .literal .null
  | some p => exact h p (List.mem_reverse.1 (List.mem_of_find?_eq_some hfound))

theorem sourced_items (h : ∀ p ∈ operands, p.2.Sourced ran) :
    ∀ a ∈ operands.items, a.Sourced ran := by
  intro a ha
  obtain ⟨⟨label, a'⟩, hmem, hsome⟩ := List.mem_filterMap.1 ha
  cases label <;> cases hsome
  exact h _ hmem

theorem sourced_entries (h : ∀ p ∈ operands, p.2.Sourced ran) :
    ∀ p ∈ operands.entries, p.2.Sourced ran := by
  intro p hp
  obtain ⟨⟨label, a⟩, hmem, hsome⟩ := List.mem_filterMap.1 hp
  cases label <;> cases hsome
  exact h _ hmem

/-- The operand in a position. In a lambda position it is a task. -/
theorem sourced_normalizeAt (hran : Closed ran) (h : ∀ p ∈ operands, p.2.Sourced ran)
    {name : String} {position : Position}
    (hposition : position = .lambda → ran (.lambda tag (operands.field name)) c)
    (he : operands.normalizeAt .byDepth tag name position c = .ok e atEnd) :
    e.Everywhere (Expr.Sourced ran) := by
  cases position with
  | value => exact (sourced_field h name).ofExcept he
  | lambda => exact (sourced_field h name).normalizeLambda hran (hposition rfl) he
  | items least =>
    rw [Operands.normalizeAt, Argument.normalizeOperands] at he
    split at he
    · cases he
    · exact (Argument.Sourced.array (sourced_items h)).ofExcept he

theorem sourced_normalizeSlots (hran : Closed ran) (h : ∀ p ∈ operands, p.2.Sourced ran)
    {slots : List Slot} {fields : List (String × Expr)}
    (hslots : Met (operands.normalizeSlots .byDepth tag) (fun slot c => slot.position = .lambda →
      (slot.optional && !operands.fills slot) = false →
      ran (.lambda tag (operands.field slot.name)) c) slots c)
    (hfields : operands.normalizeSlots .byDepth tag slots c = .ok fields atEnd) :
    ∀ p ∈ fields, p.2.Everywhere (Expr.Sourced ran) := by
  induction slots generalizing c fields atEnd with
  | nil =>
    cases hfields
    exact List.forall_mem_nil _
  | cons slot rest ih =>
    rw [Operands.normalizeSlots] at hfields
    split at hfields
    · -- A slot that is left out runs nothing.
      rename_i hskip
      refine ih (hslots.tail fun before middle c' hbefore => ⟨middle, ?_⟩) hfields
      rw [Operands.normalizeSlots, if_pos hskip]
      exact hbefore
    · rename_i hfills
      obtain ⟨e, start, he, hfields⟩ := Build.bind_eq_ok hfields
      obtain ⟨others, _, hothers, hfields⟩ := Build.bind_eq_ok hfields
      cases hfields
      have hslot := sourced_normalizeAt hran h
        (fun hposition => hslots.head rfl hposition (Bool.eq_false_iff.2 hfills)) he
      have hcons : ∀ before, operands.normalizeSlots .byDepth tag (slot :: before) = do
          return (slot.name, ← operands.normalizeAt .byDepth tag slot.name slot.position) ::
            (← operands.normalizeSlots .byDepth tag before) := by
        intro before
        rw [Operands.normalizeSlots, if_neg hfills]
      exact List.forall_mem_cons.2 ⟨hslot, ih (hslots.tail_bind hcons he) hothers⟩

/-- A call with a lambda form gives a node from this call. -/
theorem sourced_buildLambda (hran : Closed ran) (h : ∀ p ∈ operands, p.2.Sourced ran)
    (hb : ran (.call b operands) c) (hform : b.form = .lambda)
    (he : b.build .byDepth operands c = .ok e atEnd) : e.Everywhere (Expr.Sourced ran) := by
  have hbuild := he
  rw [Builder.build, hform, Form.build, Form.buildLambda] at hbuild
  obtain ⟨⟨parameters, names⟩, start, hbinding, hrest⟩ := Build.bind_eq_ok hbuild
  obtain ⟨rfl, hnames⟩ := Build.ofExcept_ok_iff.1 hbinding
  obtain ⟨body, middle, hbody, hnode⟩ := Build.bind_eq_ok hrest
  cases hnode
  have hbound : (lambdaNode parameters body).Bound ran names :=
    ⟨b, operands, _, _, parameters, hform, hb, he, hnames⟩
  have hparameters := (sourced_field h b.tag).normalize (Argument.bindingNames_ok_iff.1 hnames).1
  have hsourced :=
    (sourced_field h "expr").normalizeBody hran (hran hb (.declared hform hnames)) hbody
  exact everywhere_operation (fun _ => .inr ⟨names, hbound⟩) hparameters
    (List.forall_mem_singleton.2 hsourced)

theorem sourced_buildLet (hran : Closed ran) (h : ∀ p ∈ operands, p.2.Sourced ran)
    (hb : ran (.call b operands) c) (hform : b.form = .letIn)
    (he : b.build .byDepth operands c = .ok e atEnd) : e.Everywhere (Expr.Sourced ran) := by
  have htag : b.tag = "let" := Builder.tag_of_letIn hform
  rw [Builder.build, hform, Form.build, Form.buildLet] at he
  obtain ⟨values, start, hvalues, hrest⟩ := Build.bind_eq_ok he
  obtain ⟨rfl, hentries⟩ := Build.ofExcept_ok_iff.1 hvalues
  obtain ⟨body, middle, hbody, hnode⟩ := Build.bind_eq_ok hrest
  cases hnode
  have hsourced :=
    (sourced_field h "in").normalizeBody hran (hran hb (.letIn hform hentries)) hbody
  have hbindings : ∀ p ∈ values, p.2.Everywhere (Expr.Sourced ran) :=
    Argument.forall_of_normalizeFields (fun p hp e => (sourced_entries h p hp).normalize) hentries
  rw [htag]
  refine everywhere_operation (sourced_operation (by decide)) ?_
    (List.forall_mem_singleton.2 hsourced)
  refine everywhere_array (sourced_of_none rfl) fun e he => ?_
  obtain ⟨p, hp, rfl⟩ := List.mem_map.1 he
  exact everywhere_binding (sourced_of_none rfl) (hbindings p hp)

theorem sourced_buildOperation (hran : Closed ran) (h : ∀ p ∈ operands, p.2.Sourced ran)
    (hb : ran (.call b operands) c) {position : Position} {slots : List Slot}
    (hlayout : b.form.layout? = some (position, slots))
    (he : Form.buildOperation .byDepth b.tag operands position slots c = .ok e atEnd) :
    e.Everywhere (Expr.Sourced ran) := by
  obtain ⟨operand, start, hoperand, he⟩ := Build.bind_eq_ok he
  obtain ⟨fields, middle, hfields, he⟩ := Build.bind_eq_ok he
  cases he
  have htag : b.tag ≠ "lambda" := b.tag_ne_lambda (by rw [hlayout]; rfl)
  refine everywhere_operation (sourced_operation htag) ?_ ?_
  · refine sourced_normalizeAt hran h (fun hposition => ?_) hoperand
    subst hposition
    exact hran hb (.position hlayout)
  · refine sourced_normalizeSlots hran h ?_ hfields
    rintro before slot rest filled c' rfl hbefore hposition hfills
    exact hran hb (.slot hlayout hposition hfills hoperand hbefore)

theorem sourced_buildCall (hran : Closed ran) (h : ∀ p ∈ operands, p.2.Sourced ran)
    (hform : b.form = .call) (he : Form.buildCall .byDepth b.tag operands c = .ok e atEnd) :
    e.Everywhere (Expr.Sourced ran) := by
  obtain ⟨arguments, start, harguments, he⟩ := Build.bind_eq_ok he
  obtain ⟨function, middle, hfunction, he⟩ := Build.bind_eq_ok he
  cases he
  refine everywhere_operation (sourced_operation (b.tag_ne_lambda (by rw [hform]; rfl))) ?_
    (List.forall_mem_singleton.2 ?_)
  · exact (sourced_field h b.tag).ofExcept hfunction
  · refine sourced_normalizeAt hran h (fun hposition => ?_) harguments
    cases hposition

/-- The node of a call. -/
theorem sourced_build (hran : Closed ran) (h : ∀ p ∈ operands, p.2.Sourced ran)
    (hb : ran (.call b operands) c) (he : b.build .byDepth operands c = .ok e atEnd) :
    e.Everywhere (Expr.Sourced ran) := by
  have hlayout : ∀ position slots, b.form.layout? = some (position, slots) →
      Form.buildOperation .byDepth b.tag operands position slots c = .ok e atEnd →
      e.Everywhere (Expr.Sourced ran) := fun _ _ => sourced_buildOperation hran h hb
  cases hform : b.form with
  | constant =>
    rw [Builder.build, hform] at he
    cases he
    exact everywhere_operation (sourced_operation (b.tag_ne_lambda (by rw [hform]; rfl)))
      (everywhere_literal (sourced_of_none rfl)) (List.forall_mem_nil _)
  | listing =>
    rw [Builder.build, hform] at he
    exact hlayout _ _ (by rw [hform]; rfl) he
  | operation operand fields =>
    rw [Builder.build, hform] at he
    exact hlayout _ _ (by rw [hform]; rfl) he
  | traversal =>
    rw [Builder.build, hform] at he
    exact hlayout _ _ (by rw [hform]; rfl) he
  | call =>
    rw [Builder.build, hform] at he
    exact sourced_buildCall hran h hform he
  | letIn => exact sourced_buildLet hran h hb hform he
  | lambda => exact sourced_buildLambda hran h hb hform he
  | object =>
    rw [Builder.build, hform] at he
    exact (Argument.Sourced.object (sourced_entries h)).ofExcept he

end

end QueryTree
