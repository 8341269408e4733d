import QueryTree.Proofs.Parallel.Normalize

/-!
# Builders in parallel runs

A builder that is called with related operands gives related nodes, or refuses all of them with one
error. The forms with a layout share one argument; those that bind names need that the names are
permitted.
-/

namespace QueryTree

variable {ι : Type}

/-! ## Operands side by side -/

/-- Operands with the same labels in every run. -/
abbrev Alongside (ι : Type) := List (Label × (ι → Argument))

namespace Alongside

/-- The operands of one run. -/
def inRun (operands : Alongside ι) (i : ι) : Operands := operands.map fun p => (p.1, p.2 i)

def field? (operands : Alongside ι) (name : String) : Option (ι → Argument) :=
  (operands.reverse.find? (fun p => p.1 == .field name)).map Prod.snd

def items (operands : Alongside ι) : List (ι → Argument) :=
  operands.filterMap fun
    | (.item, a) => some a
    | _ => none

def entries (operands : Alongside ι) : List (String × (ι → Argument)) :=
  operands.filterMap fun
    | (.entry name, a) => some (name, a)
    | _ => none

theorem field?_inRun (operands : Alongside ι) (name : String) (i : ι) :
    (operands.inRun i).field? name = (operands.field? name).map (· i) := by
  unfold Operands.field? Alongside.field? Alongside.inRun
  rw [← List.map_reverse, List.find?_map, Option.map_map, Option.map_map]
  rfl

theorem items_inRun (operands : Alongside ι) (i : ι) :
    (operands.inRun i).items = operands.items.map (· i) := by
  induction operands with
  | nil => rfl
  | cons operand rest ih =>
    obtain ⟨label, a⟩ := operand
    cases label with
    | item => exact congrArg (a i :: ·) ih
    | field name => exact ih
    | entry name => exact ih

theorem entries_inRun (operands : Alongside ι) (i : ι) :
    (operands.inRun i).entries = operands.entries.map fun p => (p.1, p.2 i) := by
  induction operands with
  | nil => rfl
  | cons operand rest ih =>
    obtain ⟨label, a⟩ := operand
    cases label with
    | entry name => exact congrArg ((name, a i) :: ·) ih
    | field name => exact ih
    | item => exact ih

theorem mem_items {operands : Alongside ι} {a : ι → Argument} (h : a ∈ operands.items) :
    (.item, a) ∈ operands := by
  obtain ⟨⟨label, a'⟩, hmem, hsome⟩ := List.mem_filterMap.1 h
  cases label <;> cases hsome
  exact hmem

theorem mem_entries {operands : Alongside ι} {p : String × (ι → Argument)}
    (h : p ∈ operands.entries) : (.entry p.1, p.2) ∈ operands := by
  obtain ⟨⟨label, a⟩, hmem, hsome⟩ := List.mem_filterMap.1 h
  cases label <;> cases hsome
  exact hmem

/-- What holds of null, and of each operand for a field, holds of the field. -/
theorem field_inRun {Q : (ι → Argument) → Prop} (hnull : Q fun _ => .null)
    (operands : Alongside ι) (name : String)
    (h : ∀ p ∈ operands, p.1 = .field name → Q p.2) :
    ∃ a, Q a ∧ ∀ i, (operands.inRun i).field name = a i := by
  simp only [Operands.field, field?_inRun]
  unfold field?
  cases hfound : operands.reverse.find? (fun p => p.1 == .field name) with
  | none => exact ⟨_, hnull, fun _ => rfl⟩
  | some p =>
    have hmem : p ∈ operands := List.mem_reverse.1 (List.mem_of_find?_eq_some hfound)
    have hlabel : p.1 = .field name := by simpa using List.find?_some hfound
    exact ⟨p.2, h p hmem hlabel, fun _ => rfl⟩

theorem fills_inRun (operands : Alongside ι) (slot : Slot) :
    ∃ b, ∀ i, (operands.inRun i).fills slot = b := by
  unfold Operands.fills
  simp only [field?_inRun, items_inRun]
  cases slot.position with
  | items least => exact ⟨!operands.items.isEmpty, fun i => by simp⟩
  | _ => exact ⟨(operands.field? slot.name).isSome, fun i => by simp⟩

end Alongside

/-! ## Positions and slots -/

theorem Fits.imp {Node Node' : (ι → Expr) → Prop} (h : ∀ e, Node e → Node' e) {e : ι → Expr}
    {position : Position} (hfits : Fits Node e position) : Fits Node' e position := by
  cases position with
  | items least =>
    obtain ⟨es, he, hleast, hes⟩ := hfits
    exact ⟨es, he, hleast, fun e' he' => h e' (hes e' he')⟩
  | value => exact h e hfits
  | lambda => exact h e hfits

namespace Parallel

open Argument

variable {P : Parallel ι} {w : P.World} {tag : String} {operands : Alongside ι}

theorem ends_normalizeAt (tag name : String) (h : ∀ p ∈ operands, P.Related w p.2)
    (position : Position) : P.Ends (fun w e => Fits (P.Node w) e position) w
      (fun i => (operands.inRun i).normalizeAt (P.numbering i) tag name position) := by
  obtain ⟨a, ha, hfield⟩ := Alongside.field_inRun (Q := P.Related w) (.literal .null) operands name
    fun p hp _ => h p hp
  cases position with
  | value =>
    simp only [Operands.normalizeAt, hfield]
    exact ends_ofExcept (agree_normalize ha tag)
  | lambda =>
    simp only [Operands.normalizeAt, hfield]
    exact ends_normalizeLambda ha tag
  | items least =>
    simp only [Operands.normalizeAt, Alongside.items_inRun, normalizeOperands, List.length_map]
    by_cases hless : operands.items.length < least
    · simp only [if_pos hless]
      exact ends_ofExcept (agree_error _)
    · simp only [if_neg hless, Argument.normalize]
      have hitems := agree_normalizeItems (w := w) tag fun a ha =>
        agree_normalize (h _ (Alongside.mem_items ha)) tag
      refine ends_ofExcept (agree_bind hitems ?_)
      rintro _ ⟨es, rfl, hlength, hes⟩
      exact agree_pure ⟨es, rfl, by omega, hes⟩

theorem ends_normalizeSlots (tag : String) (h : ∀ p ∈ operands, P.Related w p.2)
    (slots : List Slot) :
    P.Ends (fun w fields => ∃ l : List (String × (ι → Expr)),
        (fields = fun i => l.map fun p => (p.1, p.2 i)) ∧ Filled (P.Node w) slots l) w
      (fun i => (operands.inRun i).normalizeSlots (P.numbering i) tag slots) := by
  induction slots generalizing w with
  | nil => exact ends_pure (a := fun _ => []) ⟨[], rfl, .nil⟩
  | cons slot rest ih =>
    obtain ⟨filled, hfilled⟩ := operands.fills_inRun slot
    simp only [Operands.normalizeSlots, hfilled]
    by_cases hskip : (slot.optional && !filled) = true
    · simp only [if_pos hskip]
      apply (ih h).imp
      rintro w' _ - ⟨l, rfl, hl⟩
      exact ⟨l, rfl, .skip (by simp_all) hl⟩
    · simp only [if_neg hskip]
      apply ends_bind (ends_normalizeAt tag slot.name h slot.position)
      intro w' e hlater he
      have hrest := ih fun p hp => (h p hp).mono (P.inside_of_later hlater)
      apply ends_bind hrest
      rintro w'' _ hlater' ⟨l, rfl, hl⟩
      have he' := he.imp fun e => P.node_mono (P.inside_of_later hlater')
      exact ends_pure ⟨(slot.name, e) :: l, rfl, .fill he' hl⟩

/-! ## Forms -/

variable {entry : Entry} {form : Form}

theorem ends_buildOperation {position : Position} {slots : List Slot}
    (hentry : entry ∈ Catalog.entries) (hform : entry.form? = some form)
    (hlayout : form.layout? = some (position, slots)) (h : ∀ p ∈ operands, P.Related w p.2) :
    P.Ends P.Node w (fun i =>
      Form.buildOperation (P.numbering i) entry.tag (operands.inRun i) position slots) := by
  apply ends_bind (ends_normalizeAt entry.tag entry.tag h position)
  intro w' e hlater he
  have hslots := ends_normalizeSlots (w := w') entry.tag
    (fun p hp => (h p hp).mono (P.inside_of_later hlater)) slots
  apply ends_bind hslots
  rintro w'' _ hlater' ⟨fields, rfl, hfilled⟩
  have he' := he.imp fun e => P.node_mono (P.inside_of_later hlater')
  exact ends_pure (P.node_operation hentry hform hlayout he' hfilled)

theorem ends_buildCall (hentry : entry ∈ Catalog.entries) (hform : entry.form? = some .call)
    (h : ∀ p ∈ operands, P.Related w p.2) :
    P.Ends P.Node w (fun i =>
      Form.buildCall (P.numbering i) entry.tag (operands.inRun i)) := by
  apply ends_bind (ends_normalizeAt entry.tag entry.tag h (.items 0))
  intro w' es hlater hes
  have hfunction := ends_normalizeAt (w := w') entry.tag entry.tag
    (fun p hp => (h p hp).mono (P.inside_of_later hlater)) .value
  apply ends_bind hfunction
  intro w'' e hlater' he
  have hes' := hes.imp fun e => P.node_mono (P.inside_of_later hlater')
  exact ends_pure (P.node_operation hentry hform rfl he (.fill hes' .nil))

theorem ends_buildLet (hnames : ∀ p ∈ operands, ∀ name, p.1 = .entry name → P.Named name)
    (h : ∀ p ∈ operands, P.Related w p.2) :
    P.Ends P.Node w (fun i => Form.buildLet (P.numbering i) "let" (operands.inRun i)) := by
  obtain ⟨body, hbody, hfield⟩ := Alongside.field_inRun (Q := P.Related w) (.literal .null)
    operands "in" fun p hp _ => h p hp
  simp only [Form.buildLet, Alongside.entries_inRun, hfield]
  have hvalues := agree_normalizeFields (w := w) "let" fun p hp =>
    agree_normalize (h _ (Alongside.mem_entries hp)) "let"
  apply ends_bind (ends_ofExcept (Q := P.FieldNodes _) hvalues)
  rintro w' _ hlater ⟨values, rfl, hkeys, hnodes⟩
  have hnamed : ∀ name ∈ values.map Prod.fst, P.Named name := by
    rw [hkeys]
    intro name hname
    obtain ⟨p, hp, rfl⟩ := List.mem_map.1 hname
    exact hnames _ (Alongside.mem_entries hp) p.1 rfl
  have hkeysAt : ∀ i, (values.map fun p => (p.1, p.2 i)).map Prod.fst = values.map Prod.fst :=
    fun i => by simp
  simp only [hkeysAt]
  have hmono := P.inside_of_later hlater
  apply ends_bind (ends_normalizeBody (hbody.mono hmono) hnamed "let")
  intro w'' e hlater' he
  have hlet := P.node_let values (fun p hp => hnamed p.1 (List.mem_map_of_mem hp))
    (fun p hp => P.node_mono (P.inside_of_later hlater') (hnodes p hp)) he
  simpa [Function.comp_def] using ends_pure hlet

theorem ends_buildLambda [Nonempty ι] (hoffered : ∀ p ∈ operands, p.1 = .field tag →
      ∀ i, ∀ name ∈ (p.2 i).offered, P.Named name) (h : ∀ p ∈ operands, P.Related w p.2) :
    P.Ends P.Node w (fun i => Form.buildLambda (P.numbering i) tag (operands.inRun i)) := by
  obtain ⟨declared, ⟨hdeclared, hnames⟩, hfield⟩ := Alongside.field_inRun
    (Q := fun a => P.Related w a ∧ ∀ i, ∀ name ∈ (a i).offered, P.Named name)
    ⟨.literal .null, nofun⟩ operands tag fun p hp hlabel => ⟨h p hp, hoffered p hp hlabel⟩
  obtain ⟨body, hbody, hfield'⟩ := Alongside.field_inRun (Q := P.Related w) (.literal .null)
    operands "expr" fun p hp _ => h p hp
  simp only [Form.buildLambda, hfield, hfield']
  apply ends_bind (ends_ofExcept (agree_bindingNames hdeclared hnames tag))
  rintro w' _ hlater ⟨parameters, names, rfl, hparameters, hpermitted, tag', hnode⟩
  have hmono := P.inside_of_later hlater
  apply ends_bind (ends_normalizeBody (hbody.mono hmono) hpermitted tag)
  intro w'' e hlater' he
  have hparameters' := P.node_mono (P.inside_of_later hlater') hparameters
  exact ends_pure (P.node_lambda hparameters' hnode hpermitted he)

/-- Related operands become related nodes, if the names that the builder declares are
permitted. -/
theorem ends_build [Nonempty ι] (b : Builder) (h : ∀ p ∈ operands, P.Related w p.2)
    (hnames : b.form = .letIn → ∀ p ∈ operands, ∀ name, p.1 = .entry name → P.Named name)
    (hoffered : b.form = .lambda → ∀ p ∈ operands, p.1 = .field b.tag →
      ∀ i, ∀ name ∈ (p.2 i).offered, P.Named name) :
    P.Ends P.Node w (fun i => b.build (P.numbering i) (operands.inRun i)) := by
  have hformed := b.formed
  unfold Builder.build
  rw [← b.entry_tag] at hoffered ⊢
  cases hform : b.form with
  | constant =>
    rw [hform] at hformed
    exact ends_pure (P.node_operation b.listed hformed rfl (P.node_literal w .null) .nil)
  | listing =>
    rw [hform] at hformed
    exact ends_buildOperation b.listed hformed rfl h
  | operation operand fields =>
    rw [hform] at hformed
    exact ends_buildOperation b.listed hformed rfl h
  | traversal =>
    rw [hform] at hformed
    exact ends_buildOperation b.listed hformed rfl h
  | call =>
    rw [hform] at hformed
    exact ends_buildCall b.listed hformed h
  | letIn =>
    rw [hform] at hformed
    rw [(Catalog.consistent b.entry b.listed).tag_of_letIn hformed]
    exact ends_buildLet (hnames hform) h
  | lambda => exact ends_buildLambda (hoffered hform) h
  | object =>
    simp only [Form.build, Alongside.entries_inRun]
    exact ends_ofExcept (agree_normalize (.object _ fun p hp =>
      h _ (Alongside.mem_entries hp)) b.entry.tag)

end Parallel

end QueryTree
