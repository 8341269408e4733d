import QueryTree.Proofs.Depth
import QueryTree.Proofs.Failing

/-!
# Operands built before

A part of an operand that has a node of its own may be replaced by this node. The call ends as
before, also where another part fails. The declared names of a lambda are not such a part, since
what is wrong with them is reported by their type.
-/

namespace QueryTree

/-! ## Parts of an argument -/

/-- Some parts of an argument in a value position are replaced by their nodes. -/
inductive Argument.Prebuilt (tag : String) : Argument → Argument → Prop
  | same (a : Argument) : Prebuilt tag a a
  | built {a : Argument} {e : Expr} : a.normalize tag = .ok e → Prebuilt tag a (.node e)
  | array (items : List (Argument × Argument)) : (∀ p ∈ items, Prebuilt tag p.1 p.2) →
      Prebuilt tag (.array (items.map Prod.fst)) (.array (items.map Prod.snd))
  | object (fields : List (String × Argument × Argument)) :
      (∀ p ∈ fields, Prebuilt tag p.2.1 p.2.2) →
      Prebuilt tag (.object (fields.map fun p => (p.1, p.2.1)))
        (.object (fields.map fun p => (p.1, p.2.2)))

namespace Argument

variable {tag : String} {a a' : Argument}

theorem normalizeItems_congr {items : List (Argument × Argument)}
    (h : ∀ p ∈ items, p.2.normalize tag = p.1.normalize tag) :
    normalizeItems tag (items.map Prod.snd) = normalizeItems tag (items.map Prod.fst) := by
  induction items with
  | nil => rfl
  | cons p rest ih =>
    obtain ⟨hp, hrest⟩ := List.forall_mem_cons.1 h
    simp only [List.map_cons, normalizeItems, hp, ih hrest]

theorem normalizeFields_congr {fields : List (String × Argument × Argument)}
    (h : ∀ p ∈ fields, p.2.2.normalize tag = p.2.1.normalize tag) :
    normalizeFields tag (fields.map fun p => (p.1, p.2.2)) =
      normalizeFields tag (fields.map fun p => (p.1, p.2.1)) := by
  induction fields with
  | nil => rfl
  | cons p rest ih =>
    obtain ⟨hp, hrest⟩ := List.forall_mem_cons.1 h
    simp only [List.map_cons, normalizeFields, hp, ih hrest]

namespace Prebuilt

theorem normalize_eq (h : Prebuilt tag a a') : a'.normalize tag = a.normalize tag := by
  induction h with
  | same a => rfl
  | built hbuilt =>
    rw [hbuilt]
    rfl
  | array items _ ih =>
    unfold normalize
    rw [normalizeItems_congr ih]
  | object fields _ ih =>
    unfold normalize
    rw [normalizeFields_congr ih]

/-- A function has no node in a value position, so it is not replaced there. -/
theorem same_or_data (h : Prebuilt tag a a') :
    a' = a ∨ (a.arity? = none ∧ a'.arity? = none) := by
  cases h with
  | same => exact .inl rfl
  | built hbuilt =>
    refine .inr ⟨?_, rfl⟩
    cases a with
    | function arity body => cases hbuilt
    | _ => rfl
  | array => exact .inr ⟨rfl, rfl⟩
  | object => exact .inr ⟨rfl, rfl⟩

end Prebuilt

theorem normalizeLambda_of_data (numbering : Numbering) (h : a.arity? = none) :
    a.normalizeLambda numbering tag = Build.ofExcept (a.normalize tag) := by
  cases a with
  | function arity body => cases h
  | _ => simp only [normalizeLambda]

theorem normalizeBody_of_data (numbering : Numbering) (names : List String)
    (h : a.arity? = none) :
    a.normalizeBody numbering tag names = Build.ofExcept (a.normalize tag) := by
  cases a with
  | function arity body => cases h
  | _ => simp only [normalizeBody]

theorem Prebuilt.normalizeLambda_eq (h : Prebuilt tag a a') (numbering : Numbering) :
    a'.normalizeLambda numbering tag = a.normalizeLambda numbering tag := by
  rcases h.same_or_data with rfl | ⟨hdata, hdata'⟩
  · rfl
  · rw [normalizeLambda_of_data numbering hdata, normalizeLambda_of_data numbering hdata',
      h.normalize_eq]

theorem Prebuilt.normalizeBody_eq (h : Prebuilt tag a a') (numbering : Numbering)
    (names : List String) :
    a'.normalizeBody numbering tag names = a.normalizeBody numbering tag names := by
  rcases h.same_or_data with rfl | ⟨hdata, hdata'⟩
  · rfl
  · rw [normalizeBody_of_data numbering names hdata, normalizeBody_of_data numbering names hdata',
      h.normalize_eq]

end Argument

/-! ## Positions of operands -/

/-- The fields that take an operand, with their positions. -/
def Form.positions (tag : String) (form : Form) : List (String × Position) :=
  match form.layout? with
  | some (position, slots) => (tag, position) :: slots.map fun slot => (slot.name, slot.position)
  | none => []

theorem Form.positions_of_layout {form : Form} {position : Position} {slots : List Slot}
    (h : form.layout? = some (position, slots)) (tag : String) :
    form.positions tag =
      (tag, position) :: slots.map fun slot => (slot.name, slot.position) := by
  unfold Form.positions
  rw [h]

namespace Builder

/-- A field has one position. -/
theorem position_unique (b : Builder) {name : String} {position position' : Position}
    (h : (name, position) ∈ b.form.positions b.tag)
    (h' : (name, position') ∈ b.form.positions b.tag) : position = position' := by
  cases hlayout : b.form.layout? with
  | none =>
    unfold Form.positions at h
    rw [hlayout] at h
    cases h
  | some layout =>
    obtain ⟨operand, slots⟩ := layout
    obtain ⟨hnodup, htag⟩ := Catalog.fieldNames_nodup b.entry b.listed
    rw [Entry.fieldNames_of_form b.formed, Form.fieldNames_of_layout hlayout] at hnodup htag
    rw [b.entry_tag] at htag
    rw [Form.positions_of_layout hlayout] at h h'
    have hnames : (((b.tag, operand) :: slots.map fun slot =>
        (slot.name, slot.position)).map Prod.fst).Nodup := by
      rw [List.map_cons, List.map_map]
      exact List.nodup_cons.2 ⟨htag, hnodup⟩
    exact congrArg Prod.snd (List.inj_on_of_nodup_map hnames h h' rfl)

/-- An operand with parts that are replaced by their nodes. In a lambda position also a function may
be replaced, by the lambda that it gives at the count of the call. -/
inductive Prebuilt (b : Builder) (bound : Nat) : Label × Argument → Label × Argument → Prop
  | kept (operand : Label × Argument) : b.Prebuilt bound operand operand
  | value {label : Label} {a a' : Argument} : (b.form = .lambda → label ≠ .field b.tag) →
      a.Prebuilt b.tag a' → b.Prebuilt bound (label, a) (label, a')
  | lambda {name : String} {a : Argument} {e : Expr} {atEnd : Nat} :
      (name, .lambda) ∈ b.form.positions b.tag →
      a.normalizeLambda .byDepth b.tag bound = .ok e atEnd →
      b.Prebuilt bound (.field name, a) (.field name, .node e)

variable {b : Builder} {bound : Nat} {label : Label} {a a' : Argument}

theorem Prebuilt.of_not_lambda (h : b.Prebuilt bound (label, a) (label, a'))
    (hlabel : ∀ name, label = .field name → (name, .lambda) ∉ b.form.positions b.tag) :
    a.Prebuilt b.tag a' := by
  cases h with
  | kept => exact .same a
  | value _ hparts => exact hparts
  | lambda hposition _ => exact absurd hposition (hlabel _ rfl)

/-- A lambda position is left at the count at which it is entered, so a lambda built before gives
this count, too. -/
theorem Prebuilt.normalizeLambda_eq (h : b.Prebuilt bound (label, a) (label, a')) :
    a'.normalizeLambda .byDepth b.tag bound = a.normalizeLambda .byDepth b.tag bound := by
  cases h with
  | kept => rfl
  | value _ hparts => rw [hparts.normalizeLambda_eq]
  | lambda _ hbuilt =>
    have hcount := (a.balanced_normalizeLambda b.tag).of_ok hbuilt
    rw [hbuilt, hcount]
    rfl

theorem Prebuilt.names_eq (h : b.Prebuilt bound (.field b.tag, a) (.field b.tag, a'))
    (hform : b.form = .lambda) : a' = a := by
  cases h with
  | kept => rfl
  | value hlabel _ => exact absurd rfl (hlabel hform)
  | lambda hposition _ =>
    rw [hform] at hposition
    cases hposition

end Builder

/-! ## Calls -/

/-- Two operand lists place by place: the second run is the one with operands built before. -/
theorem Alongside.of_forall₂ {R : Label × Argument → Label × Argument → Prop}
    (hlabel : ∀ p q, R p q → p.1 = q.1) {operands operands' : Operands}
    (h : List.Forall₂ R operands operands') :
    ∃ both : Alongside Bool, both.inRun false = operands ∧ both.inRun true = operands' ∧
      ∀ p ∈ both, R (p.1, p.2 false) (p.1, p.2 true) := by
  induction h with
  | nil => exact ⟨[], rfl, rfl, nofun⟩
  | @cons p q operands operands' hpq _ ih =>
    obtain ⟨both, rfl, rfl, hboth⟩ := ih
    obtain ⟨label, a⟩ := p
    obtain ⟨label', a'⟩ := q
    cases hlabel _ _ hpq
    refine ⟨(label, fun run => bif run then a' else a) :: both, rfl, rfl, ?_⟩
    exact List.forall_mem_cons.2 ⟨hpq, hboth⟩

namespace Build

variable {α β : Type}

/-- Builds that agree at a count go on at this count. -/
theorem bind_congr_at {x y : Build α} {f g : α → Build β} {bound : Nat} (hx : x.Balanced)
    (hxy : y bound = x bound) (hfg : ∀ a, g a bound = f a bound) :
    (y >>= g) bound = (x >>= f) bound := by
  rw [bind_apply, bind_apply, hxy]
  cases hrun : x bound with
  | ok a atEnd =>
    rw [hx.of_ok hrun]
    exact hfg a
  | error stop atEnd => rfl

end Build

open Build

namespace Builder

section

variable {b : Builder} {bound : Nat} {both : Alongside Bool}
  (h : ∀ p ∈ both, b.Prebuilt bound (p.1, p.2 false) (p.1, p.2 true))

include h

theorem field_prebuilt (name : String) :
    b.Prebuilt bound (.field name, (both.inRun false).field name)
      (.field name, (both.inRun true).field name) := by
  obtain ⟨a, ha, hfield⟩ := Alongside.field_inRun
    (Q := fun a => b.Prebuilt bound (.field name, a false) (.field name, a true)) (.kept _) both
    name fun p hp hlabel => hlabel ▸ h p hp
  rw [hfield, hfield]
  exact ha

theorem items_prebuilt :
    Argument.Prebuilt b.tag (.array (both.inRun false).items) (.array (both.inRun true).items) := by
  have hparts : ∀ p ∈ both.items.map fun a => (a false, a true), p.1.Prebuilt b.tag p.2 := by
    intro p hp
    obtain ⟨a, ha, rfl⟩ := List.mem_map.1 hp
    exact (h _ (Alongside.mem_items ha)).of_not_lambda nofun
  simpa [Alongside.items_inRun, Function.comp_def] using Argument.Prebuilt.array _ hparts

theorem entries_prebuilt :
    ∃ fields : List (String × Argument × Argument),
      (both.inRun false).entries = fields.map (fun p => (p.1, p.2.1)) ∧
      (both.inRun true).entries = fields.map (fun p => (p.1, p.2.2)) ∧
      ∀ p ∈ fields, p.2.1.Prebuilt b.tag p.2.2 := by
  refine ⟨both.entries.map fun p => (p.1, p.2 false, p.2 true), ?_, ?_, ?_⟩
  · simp [Alongside.entries_inRun, Function.comp_def]
  · simp [Alongside.entries_inRun, Function.comp_def]
  · intro p hp
    obtain ⟨q, hq, rfl⟩ := List.mem_map.1 hp
    exact (h _ (Alongside.mem_entries hq)).of_not_lambda nofun

theorem normalizeAt_prebuilt {name : String} {position : Position}
    (hposition : (name, position) ∈ b.form.positions b.tag) :
    (both.inRun true).normalizeAt .byDepth b.tag name position bound =
      (both.inRun false).normalizeAt .byDepth b.tag name position bound := by
  have hfield := field_prebuilt h name
  cases position with
  | value =>
    have hvalue := hfield.of_not_lambda fun name' hname hlambda => by
      cases hname
      cases b.position_unique hposition hlambda
    unfold Operands.normalizeAt
    rw [hvalue.normalize_eq]
  | lambda => exact hfield.normalizeLambda_eq
  | items least =>
    have hitems := (items_prebuilt h).normalize_eq
    have hlength : (both.inRun true).items.length = (both.inRun false).items.length := by
      simp [Alongside.items_inRun]
    unfold Operands.normalizeAt Argument.normalizeOperands
    rw [hlength, hitems]

theorem normalizeSlots_prebuilt {slots : List Slot}
    (hslots : ∀ slot ∈ slots, (slot.name, slot.position) ∈ b.form.positions b.tag) :
    (both.inRun true).normalizeSlots .byDepth b.tag slots bound =
      (both.inRun false).normalizeSlots .byDepth b.tag slots bound := by
  induction slots with
  | nil => rfl
  | cons slot rest ih =>
    obtain ⟨hslot, hrest⟩ := List.forall_mem_cons.1 hslots
    obtain ⟨filled, hfilled⟩ := both.fills_inRun slot
    unfold Operands.normalizeSlots
    rw [hfilled, hfilled]
    split
    · exact ih hrest
    · apply bind_congr_at (Operands.balanced_normalizeAt _ _ _ _) (normalizeAt_prebuilt h hslot)
      intro e
      exact bind_congr_at (Operands.balanced_normalizeSlots _ _ _) (ih hrest) fun fields => rfl

theorem buildOperation_prebuilt {position : Position} {slots : List Slot}
    (hpositions : b.form.positions b.tag =
      (b.tag, position) :: slots.map fun slot => (slot.name, slot.position)) :
    Form.buildOperation .byDepth b.tag (both.inRun true) position slots bound =
      Form.buildOperation .byDepth b.tag (both.inRun false) position slots bound := by
  unfold Form.buildOperation
  apply bind_congr_at (Operands.balanced_normalizeAt _ _ _ _)
  · exact normalizeAt_prebuilt h (by simp [hpositions])
  · intro e
    apply bind_congr_at (Operands.balanced_normalizeSlots _ _ _)
    · refine normalizeSlots_prebuilt h fun slot hslot => ?_
      rw [hpositions]
      exact List.mem_cons_of_mem _ (List.mem_map_of_mem hslot)
    · exact fun fields => rfl

theorem buildCall_prebuilt (hform : b.form = .call) :
    Form.buildCall .byDepth b.tag (both.inRun true) bound =
      Form.buildCall .byDepth b.tag (both.inRun false) bound := by
  have harguments : ("arguments", .items 0) ∈ b.form.positions b.tag := by
    simp [hform, Form.positions, Form.layout?]
  have hfunction : (b.tag, .value) ∈ b.form.positions b.tag := by
    simp [hform, Form.positions, Form.layout?]
  unfold Form.buildCall
  -- A list is taken from its items, whatever its field is called.
  apply bind_congr_at (Operands.balanced_normalizeAt _ _ _ _) (normalizeAt_prebuilt h harguments)
  intro arguments
  apply bind_congr_at (Operands.balanced_normalizeAt _ _ _ _) (normalizeAt_prebuilt h hfunction)
  exact fun function => rfl

theorem buildLet_prebuilt (hform : b.form = .letIn) :
    Form.buildLet .byDepth b.tag (both.inRun true) bound =
      Form.buildLet .byDepth b.tag (both.inRun false) bound := by
  obtain ⟨fields, hfields, hfields', hparts⟩ := entries_prebuilt h
  have hbody := (field_prebuilt h "in").of_not_lambda fun _ _ hlambda => by
    rw [hform] at hlambda
    cases hlambda
  unfold Form.buildLet
  rw [hfields, hfields', Argument.normalizeFields_congr fun p hp => (hparts p hp).normalize_eq]
  apply bind_congr_at (balanced_ofExcept _) rfl
  intro values
  rw [hbody.normalizeBody_eq]

theorem buildLambda_prebuilt (hform : b.form = .lambda) :
    Form.buildLambda .byDepth b.tag (both.inRun true) bound =
      Form.buildLambda .byDepth b.tag (both.inRun false) bound := by
  have hnames := (field_prebuilt h b.tag).names_eq hform
  have hbody := (field_prebuilt h "expr").of_not_lambda fun _ _ hlambda => by
    rw [hform] at hlambda
    cases hlambda
  unfold Form.buildLambda
  rw [hnames]
  apply bind_congr_at (balanced_ofExcept _) rfl
  rintro ⟨parameters, names⟩
  dsimp only
  rw [hbody.normalizeBody_eq]

end

/-- A call whose operands were built before, in whole or in part, ends as the call that builds them
itself: with the same node, or with the same error or exception. -/
theorem build_prebuilt (b : Builder) {bound : Nat} {operands operands' : Operands}
    (h : List.Forall₂ (b.Prebuilt bound) operands operands') :
    b.build .byDepth operands' bound = b.build .byDepth operands bound := by
  have hlabel : ∀ p q, b.Prebuilt bound p q → p.1 = q.1 := by
    intro p q hpq
    cases hpq <;> rfl
  obtain ⟨both, rfl, rfl, hboth⟩ := Alongside.of_forall₂ hlabel h
  have hlayout : ∀ {position slots}, b.form.layout? = some (position, slots) →
      Form.buildOperation .byDepth b.tag (both.inRun true) position slots bound =
        Form.buildOperation .byDepth b.tag (both.inRun false) position slots bound :=
    fun hlayout => buildOperation_prebuilt hboth (Form.positions_of_layout hlayout b.tag)
  unfold Builder.build
  cases hform : b.form with
  | constant => rfl
  | listing => exact hlayout (by rw [hform]; rfl)
  | operation operand fields => exact hlayout (by rw [hform]; rfl)
  | traversal => exact hlayout (by rw [hform]; rfl)
  | call => exact buildCall_prebuilt hboth hform
  | letIn => exact buildLet_prebuilt hboth hform
  | lambda => exact buildLambda_prebuilt hboth hform
  | object =>
    obtain ⟨fields, hfields, hfields', hparts⟩ := entries_prebuilt hboth
    unfold Form.build
    rw [hfields, hfields', (Argument.Prebuilt.object fields hparts).normalize_eq]

/-- A lambda that was built at the count of the call, and a list within a keyed container. The call
succeeds or fails with its collection. -/
theorem reduce_build_prebuilt :
    let fold : Argument := .function 2 fun es bound => .ok (.array (es.map .node)) bound
    let lambda : Expr := lambdaNode (.array [.string "_implicit3", .string "_implicit4"])
      (.array [variableNode "_implicit3", variableNode "_implicit4"])
    let initial : Argument → Argument := fun part => .object [("b", part), ("a", .null)]
    let list : Argument := .array [.literal (.bool true), .null]
    let node : Expr := .array [.literal (.bool true), .null]
    let operands : Argument → Argument → Argument → Operands := fun fold part collection =>
      [(.field "reduce", fold), (.field "initial", initial part), (.field "collection", collection)]
    let missing : BuildError := .arity "add" 1 0
    reduce.build .byDepth (operands (.node lambda) (.node node) .null) 3 =
        reduce.build .byDepth (operands fold list .null) 3 ∧
      (∃ e, reduce.build .byDepth (operands fold list .null) 3 = .ok e 3) ∧
      reduce.build .byDepth (operands (.node lambda) (.node node) (.failed missing)) 3 =
        reduce.build .byDepth (operands fold list (.failed missing)) 3 ∧
      reduce.build .byDepth (operands fold list (.failed missing)) 3 =
        .error (.failed missing) 3 := by
  intro fold lambda initial list node operands missing
  have hreified : fold.normalizeLambda .byDepth "reduce" 3 = .ok lambda 3 := rfl
  have hfold : reduce.Prebuilt 3 (.field "reduce", fold) (.field "reduce", .node lambda) :=
    .lambda (by decide) hreified
  have hinitial : (initial list).Prebuilt "reduce" (initial (.node node)) := by
    refine .object [("b", list, .node node), ("a", .null, .null)] ?_
    simp only [List.forall_mem_cons]
    exact ⟨.built rfl, .same _, nofun⟩
  have hoperands : ∀ collection, List.Forall₂ (reduce.Prebuilt 3) (operands fold list collection)
      (operands (.node lambda) (.node node) collection) := fun collection =>
    .cons hfold (.cons (.value nofun hinitial) (.cons (.kept _) .nil))
  exact ⟨reduce.build_prebuilt (hoperands .null), ⟨_, rfl⟩,
    reduce.build_prebuilt (hoperands (.failed missing)), rfl⟩

end Builder

end QueryTree
