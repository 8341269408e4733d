import QueryTree.Proofs.Conforming
import QueryTree.Proofs.Depth

/-!
# The operand that fails first

A builder takes its operands one after the other, wire field by wire field; only a call takes its
arguments before the function. It gives a node if and only if it can take each of them. Otherwise it
ends as the first one ends that it cannot take, whatever comes after. A function that is made a
lambda by itself is one such taking, and leaves take nothing.
-/

namespace QueryTree

namespace Build

variable {α β : Type}

/-- The build without what it gives. -/
def effect (x : Build α) : Build Unit := x >>= fun _ => pure ()

@[simp] theorem effect_pure (a : α) : effect (pure a) = pure () := pure_bind _ _

theorem effect_bind (x : Build α) (f : α → Build β) :
    effect (x >>= f) = x >>= fun a => effect (f a) := bind_assoc _ _ _

/-- A build that goes on in one way, whatever its first part gives. -/
theorem effect_bind_of_yields {x : Build α} {f : α → Build β} {next : Build Unit}
    (h : Yields (fun a => effect (f a) = next) x) :
    effect (x >>= f) = effect x >>= fun _ => next := by
  rw [effect_bind, effect, bind_assoc]
  funext bound
  rw [bind_apply, bind_apply]
  cases hrun : x bound with
  | ok a atEnd =>
    have hnext : effect (f a) = next := h bound a atEnd hrun
    simp only [hnext, pure_bind]
  | error stop atEnd => rfl

/-- How a build stops, and at which count, if it stops. -/
def stop? : EStateM.Result Stop Nat α → Option (Stop × Nat)
  | .ok .. => none
  | .error stop atEnd => some (stop, atEnd)

theorem stop?_eq_none {r : EStateM.Result Stop Nat α} :
    stop? r = none ↔ ∃ a atEnd, r = .ok a atEnd := by
  cases r <;> simp [stop?]

theorem stop?_eq_some {r : EStateM.Result Stop Nat α} {stop : Stop} {atEnd : Nat} :
    stop? r = some (stop, atEnd) ↔ r = .error stop atEnd := by
  cases r <;> simp [stop?]

theorem stop?_effect (x : Build α) (bound : Nat) : stop? (effect x bound) = stop? (x bound) := by
  rw [effect, bind_apply]
  cases x bound <;> rfl

theorem ofExcept_ok_iff {x : Except BuildError α} {a : α} {bound atEnd : Nat} :
    ofExcept x bound = .ok a atEnd ↔ atEnd = bound ∧ x = .ok a := by
  cases x <;> simp [ofExcept, fail, pure_apply, and_comm, eq_comm]

theorem ofExcept_error_iff {x : Except BuildError α} {stop : Stop} {bound atEnd : Nat} :
    ofExcept x bound = .error stop atEnd ↔
      atEnd = bound ∧ ∃ error, stop = .failed error ∧ x = .error error := by
  cases x <;> simp [ofExcept, fail, pure_apply, and_comm, eq_comm]

theorem ofExcept_bind (x : Except BuildError α) (f : α → Except BuildError β) :
    ofExcept (x >>= f) = ofExcept x >>= fun a => ofExcept (f a) := by
  cases x with
  | ok a => exact (pure_bind a fun a => ofExcept (f a)).symm
  | error error => rfl

end Build

/-- How a builder takes an operand: the number of operands in a list, of which there are to be at
least so many; a value; a value or lambda; declared names; and a body under declared names. -/
inductive Taking where
  | count (least given : Nat)
  | value (a : Argument)
  | lambda (a : Argument)
  | declared (a : Argument)
  | body (names : List String) (a : Argument)

namespace Taking

def operand? : Taking → Option Argument
  | .count .. => none
  | .value a | .lambda a | .declared a | .body _ a => some a

def isBody : Taking → Bool
  | .body .. => true
  | _ => false

/-- The builder with the tag takes the operand. -/
def attempt (numbering : Numbering) (tag : String) : Taking → Build Unit
  | .count least given => if given < least then Build.fail (.arity tag least given) else pure ()
  | .value a => Build.effect (Build.ofExcept (a.normalize tag))
  | .lambda a => Build.effect (a.normalizeLambda numbering tag)
  | .declared a => Build.effect (Build.ofExcept (a.bindingNames tag))
  | .body names a => Build.effect (a.normalizeBody numbering tag names)

/-- How it stops there, from a count of bound variables on. -/
def stop? (tag : String) (bound : Nat) (t : Taking) : Option (Stop × Nat) :=
  Build.stop? (t.attempt .byDepth tag bound)

end Taking

/-! ## Operands in order -/

namespace Operands

def takingsAt (operands : Operands) (name : String) : Position → List Taking
  | .value => [.value (operands.field name)]
  | .lambda => [.lambda (operands.field name)]
  | .items least => .count least operands.items.length :: operands.items.map .value

def takenSlots (operands : Operands) (slots : List Slot) : List (String × List Taking) :=
  (slots.filter fun slot => !slot.optional || operands.fills slot).map fun slot =>
    (slot.name, operands.takingsAt slot.name slot.position)

end Operands

/-- The names that an argument declares, if it declares any. -/
def Argument.declaredNames (tag : String) (a : Argument) : List String :=
  ((a.bindingNames tag).toOption.map Prod.snd).getD []

namespace Form

/-- The wire fields in the order in which they are filled, each with what is taken for it. The
named values of a let or an object literal all stand in one field, in the order they are given. -/
def takenFields (tag : String) (operands : Operands) : Form → List (String × List Taking)
  | .constant => [(tag, [])]
  | .listing => [(tag, operands.takingsAt tag .value)]
  | .operation operand fields =>
    (tag, operands.takingsAt tag operand) :: operands.takenSlots fields
  | .traversal =>
    [(tag, operands.takingsAt tag .lambda), ("collection", operands.takingsAt "collection" .value)]
  | .call =>
    [("arguments", operands.takingsAt tag (.items 0)), (tag, operands.takingsAt tag .value)]
  | .letIn =>
    [(tag, operands.entries.map fun p => .value p.2),
      ("in", [.body (Fields.names operands.entries) (operands.field "in")])]
  | .lambda =>
    [(tag, [.declared (operands.field tag)]),
      ("expr", [.body ((operands.field tag).declaredNames tag) (operands.field "expr")])]
  | .object => [(tag, operands.entries.map fun p => .value p.2)]

/-- All that is taken, in order. -/
def takings (tag : String) (operands : Operands) (form : Form) : List Taking :=
  (form.takenFields tag operands).flatMap Prod.snd

end Form

def Builder.takings (b : Builder) (operands : Operands) : List Taking :=
  b.form.takings b.tag operands

/-! ## A build is its takings -/

open Build (effect effect_pure effect_bind effect_bind_of_yields ofExcept_bind yields_ofExcept
  stop?_effect stop?_eq_none stop?_eq_some)

section

variable (numbering : Numbering) (tag : String)

theorem Argument.effect_normalizeItems (items : List Argument) :
    effect (Build.ofExcept (normalizeItems tag items)) =
      forM (items.map Taking.value) (Taking.attempt numbering tag) := by
  induction items with
  | nil => rfl
  | cons a rest ih =>
    rw [normalizeItems, ofExcept_bind, List.map_cons, List.forM_cons, ← ih]
    apply effect_bind_of_yields
    apply yields_ofExcept
    intro e _
    rw [ofExcept_bind]
    exact effect_bind _ _

theorem Argument.effect_normalizeFields (fields : List (String × Argument)) :
    effect (Build.ofExcept (normalizeFields tag fields)) =
      forM (fields.map fun p => Taking.value p.2) (Taking.attempt numbering tag) := by
  induction fields with
  | nil => rfl
  | cons field rest ih =>
    obtain ⟨name, a⟩ := field
    rw [normalizeFields, ofExcept_bind, List.map_cons, List.forM_cons, ← ih]
    apply effect_bind_of_yields
    apply yields_ofExcept
    intro e _
    rw [ofExcept_bind]
    exact effect_bind _ _

theorem Argument.effect_normalizeOperands (least : Nat) (items : List Argument) :
    effect (Build.ofExcept (normalizeOperands tag least items)) =
      forM (Taking.count least items.length :: items.map .value)
        (Taking.attempt numbering tag) := by
  rw [normalizeOperands, List.forM_cons, Taking.attempt]
  split
  · rfl
  · rw [pure_bind, ← effect_normalizeItems, normalize, ofExcept_bind]
    exact effect_bind _ _

theorem Operands.effect_normalizeAt (operands : Operands) (name : String) (position : Position) :
    effect (operands.normalizeAt numbering tag name position) =
      forM (operands.takingsAt name position) (Taking.attempt numbering tag) := by
  cases position with
  | items least => exact Argument.effect_normalizeOperands numbering tag least operands.items
  | _ =>
    rw [takingsAt, List.forM_cons, List.forM_nil]
    exact (bind_pure _).symm

theorem Operands.effect_normalizeSlots (operands : Operands) (slots : List Slot) :
    effect (operands.normalizeSlots numbering tag slots) =
      forM ((operands.takenSlots slots).flatMap Prod.snd) (Taking.attempt numbering tag) := by
  induction slots with
  | nil => rfl
  | cons slot rest ih =>
    have hkept : (!slot.optional || operands.fills slot) =
        !(slot.optional && !operands.fills slot) := by simp
    rw [normalizeSlots]
    split
    · rename_i hskip
      simp only [takenSlots, List.filter_cons, hkept, hskip, Bool.not_true, Bool.false_eq_true,
        if_false]
      exact ih
    · rename_i hfilled
      have htaken : operands.takenSlots (slot :: rest) =
          (slot.name, operands.takingsAt slot.name slot.position) :: operands.takenSlots rest := by
        simp only [takenSlots, List.filter_cons, hkept, hfilled, Bool.not_false, if_true,
          List.map_cons]
      rw [htaken, List.flatMap_cons, List.forM_append, ← effect_normalizeAt, ← ih]
      apply effect_bind_of_yields
      intro _ e _ _
      exact effect_bind _ _

theorem Form.effect_buildOperation (operands : Operands) (position : Position)
    (slots : List Slot) :
    effect (buildOperation numbering tag operands position slots) =
      forM (operands.takingsAt tag position ++ (operands.takenSlots slots).flatMap Prod.snd)
        (Taking.attempt numbering tag) := by
  rw [List.forM_append, ← operands.effect_normalizeAt, ← operands.effect_normalizeSlots]
  apply effect_bind_of_yields
  intro _ e _ _
  exact effect_bind _ _

theorem Form.effect_buildCall (operands : Operands) :
    effect (buildCall numbering tag operands) =
      forM (operands.takingsAt tag (.items 0) ++ operands.takingsAt tag .value)
        (Taking.attempt numbering tag) := by
  rw [List.forM_append, ← operands.effect_normalizeAt, ← operands.effect_normalizeAt]
  apply effect_bind_of_yields
  intro _ e _ _
  exact effect_bind _ _

/-- The named values keep their names. -/
theorem Argument.names_normalizeFields {fields : List (String × Argument)}
    {nodes : List (String × Expr)} (h : normalizeFields tag fields = .ok nodes) :
    nodes.map Prod.fst = Fields.names fields := by
  induction fields generalizing nodes with
  | nil =>
    cases h
    rfl
  | cons field rest ih =>
    obtain ⟨name, a⟩ := field
    simp only [normalizeFields] at h
    obtain ⟨e, -, h⟩ := bind_ok h
    obtain ⟨others, hrest, h⟩ := bind_ok h
    cases h
    exact congrArg (name :: ·) (ih hrest)

theorem Form.effect_buildLet (operands : Operands) :
    effect (buildLet numbering tag operands) =
      forM ((operands.entries.map fun p => Taking.value p.2) ++
          [.body (Fields.names operands.entries) (operands.field "in")])
        (Taking.attempt numbering tag) := by
  rw [List.forM_append, ← Argument.effect_normalizeFields, List.forM_cons, List.forM_nil]
  apply effect_bind_of_yields
  apply yields_ofExcept
  intro values hvalues
  rw [effect_bind, Argument.names_normalizeFields tag hvalues, Taking.attempt, effect]
  simp

theorem Form.effect_buildLambda (operands : Operands) :
    effect (buildLambda numbering tag operands) =
      forM [.declared (operands.field tag),
          .body ((operands.field tag).declaredNames tag) (operands.field "expr")]
        (Taking.attempt numbering tag) := by
  rw [List.forM_cons, List.forM_cons, List.forM_nil]
  apply effect_bind_of_yields
  apply yields_ofExcept
  rintro ⟨parameters, names⟩ hnames
  have hdeclared : (operands.field tag).declaredNames tag = names := by
    rw [Argument.declaredNames, hnames]
    rfl
  rw [hdeclared, effect_bind, Taking.attempt, effect]
  simp

/-- Without its node, a build is the takings one after the other. -/
theorem Form.effect_build (operands : Operands) (form : Form) :
    effect (form.build numbering tag operands) =
      forM (form.takings tag operands) (Taking.attempt numbering tag) := by
  cases form with
  | constant => exact effect_pure _
  | listing =>
    rw [build, effect_buildOperation]
    rfl
  | operation position slots => exact effect_buildOperation numbering tag operands position slots
  | traversal => exact effect_buildOperation numbering tag operands .lambda _
  | call =>
    rw [build, effect_buildCall]
    simp [takings, takenFields]
  | letIn => exact effect_buildLet numbering tag operands
  | lambda => exact effect_buildLambda numbering tag operands
  | object =>
    have hvalues := Argument.effect_normalizeFields numbering tag operands.entries
    rw [build, Argument.normalize, ofExcept_bind, effect_bind, takings, takenFields,
      List.flatMap_cons, List.flatMap_nil, List.append_nil, ← hvalues]
    rfl

end

/-! ## The first one that stops -/

theorem Taking.stop?_forM {tag : String} {takings : List Taking}
    (h : takings.Pairwise fun t _ => (t.attempt .byDepth tag).Balanced) (bound : Nat) :
    Build.stop? (forM takings (Taking.attempt .byDepth tag) bound) =
      takings.findSome? (Taking.stop? tag bound) := by
  induction takings with
  | nil => rfl
  | cons t rest ih =>
    obtain ⟨hfirst, hrest⟩ := List.pairwise_cons.1 h
    rw [List.forM_cons, Build.bind_apply, List.findSome?_cons, Taking.stop?]
    cases hrun : t.attempt .byDepth tag bound with
    | error stop atEnd => rfl
    | ok u atEnd =>
      cases rest with
      | nil => rfl
      | cons next others =>
        obtain rfl : atEnd = bound := (hfirst next List.mem_cons_self).of_ok hrun
        exact ih hrest

/-- Only a body may end at another count. -/
theorem Taking.balanced_attempt {t : Taking} (h : t.isBody = false) (tag : String) :
    (t.attempt .byDepth tag).Balanced := by
  have heffect : ∀ {α : Type} {x : Build α}, x.Balanced → (effect x).Balanced := fun hx =>
    Build.balanced_bind hx fun _ => Build.balanced_pure ()
  cases t with
  | count least given =>
    rw [attempt]
    split
    · exact fun _ => rfl
    · exact Build.balanced_pure ()
  | value a => exact heffect (Build.balanced_ofExcept _)
  | lambda a => exact heffect (a.balanced_normalizeLambda tag)
  | declared a => exact heffect (Build.balanced_ofExcept _)
  | body names a => cases h

theorem Operands.takingsAt_isBody (operands : Operands) (name : String) (position : Position) :
    ∀ t ∈ operands.takingsAt name position, t.isBody = false := by
  cases position <;> simp [takingsAt, Taking.isBody]

theorem Operands.takenSlots_isBody (operands : Operands) (slots : List Slot) :
    ∀ t ∈ (operands.takenSlots slots).flatMap Prod.snd, t.isBody = false := by
  intro t ht
  obtain ⟨p, hp, ht⟩ := List.mem_flatMap.1 ht
  obtain ⟨slot, -, rfl⟩ := List.mem_map.1 hp
  exact operands.takingsAt_isBody slot.name slot.position t ht

/-- Nothing is taken after a body. -/
theorem Form.body_last (tag : String) (operands : Operands) (form : Form) :
    (form.takings tag operands).Pairwise fun t _ => t.isBody = false := by
  have hall : ∀ takings : List Taking, (∀ t ∈ takings, t.isBody = false) →
      takings.Pairwise fun t _ => t.isBody = false := fun takings h =>
    List.pairwise_of_forall_mem_list fun t ht _ _ => h t ht
  have hentries : ∀ t ∈ operands.entries.map fun p => Taking.value p.2, t.isBody = false := by
    intro t ht
    obtain ⟨p, -, rfl⟩ := List.mem_map.1 ht
    rfl
  have hat := operands.takingsAt_isBody
  cases form with
  | constant => exact .nil
  | listing => exact hall _ (hat tag .value)
  | operation position slots =>
    refine hall _ fun t ht => ?_
    rcases List.mem_append.1 ht with ht | ht
    · exact hat tag position t ht
    · exact operands.takenSlots_isBody slots t ht
  | traversal =>
    refine hall _ fun t ht => ?_
    rcases List.mem_append.1 ht with ht | ht
    · exact hat tag .lambda t ht
    · exact hat "collection" .value t ht
  | call =>
    refine hall _ fun t ht => ?_
    rcases List.mem_append.1 ht with ht | ht
    · exact hat tag (.items 0) t ht
    · exact hat tag .value t ht
  | letIn => exact List.pairwise_append.2 ⟨hall _ hentries, List.pairwise_singleton _ _,
      fun t ht _ _ => hentries t ht⟩
  | lambda => exact List.pairwise_pair.2 rfl
  | object => exact hall _ (by simpa [takings, takenFields] using hentries)

theorem Builder.stop?_build (b : Builder) (operands : Operands) (bound : Nat) :
    Build.stop? (b.build .byDepth operands bound) =
      (b.takings operands).findSome? (Taking.stop? b.tag bound) := by
  have hbalanced : (b.takings operands).Pairwise fun t _ =>
      (t.attempt .byDepth b.tag).Balanced :=
    (b.form.body_last b.tag operands).imp fun h => Taking.balanced_attempt h b.tag
  rw [← Taking.stop?_forM hbalanced, takings, ← Form.effect_build, stop?_effect]
  rfl

/-! ## Where errors come from -/

namespace Argument

variable {error : BuildError} {tag : String}

/-- A failed argument with the error stands in the data. -/
inductive Holds (error : BuildError) : Argument → Prop
  | failed : Holds error (.failed error)
  | item {items : List Argument} {a} : a ∈ items → Holds error a → Holds error (.array items)
  | value {fields : List (String × Argument)} {p} : p ∈ fields → Holds error p.2 →
      Holds error (.object fields)

/-- A failed argument with the error comes with the argument where it stands for a lambda: it is in
the data, or the function, called at the count, ends with it or gives what brings it. -/
inductive Brings (error : BuildError) : Argument → Nat → Prop
  | holds {a bound} : Holds error a → Brings error a bound
  | stops {n body bound atEnd} :
      body ((implicitNames bound (n + 1)).map variableNode) (bound + (n + 1)) =
        .error (.failed error) atEnd → Brings error (.function (n + 1) body) bound
  | gives {n body bound a atEnd} :
      body ((implicitNames bound (n + 1)).map variableNode) (bound + (n + 1)) = .ok a atEnd →
        Brings error a atEnd → Brings error (.function (n + 1) body) bound

theorem bind_error {α β : Type} {x : Except BuildError α} {f : α → Except BuildError β}
    (h : (x >>= f) = .error error) : x = .error error ∨ ∃ a, x = .ok a ∧ f a = .error error := by
  cases x with
  | ok a => exact .inr ⟨a, rfl, h⟩
  | error other =>
    cases h
    exact .inl rfl

mutual

theorem normalize_error : ∀ a : Argument, a.normalize tag = .error error →
    error.tag = tag ∨ a.Holds error
  | .literal _, h => nomatch h
  | .array items, h => by
    simp only [normalize] at h
    rcases bind_error h with hitems | ⟨es, -, h⟩
    · exact (normalizeItems_error items hitems).imp_right fun ⟨a, ha, hholds⟩ => .item ha hholds
    · cases h
  | .object fields, h => by
    simp only [normalize] at h
    rcases bind_error h with hfields | ⟨es, -, h⟩
    · exact (normalizeFields_error fields hfields).imp_right fun ⟨p, hp, hholds⟩ => .value hp hholds
    · cases h
  | .node _, h => nomatch h
  | .function .., h => by
    cases h
    exact .inl rfl
  | .failed _, h => by
    cases h
    exact .inr .failed

theorem normalizeItems_error : ∀ items : List Argument, normalizeItems tag items = .error error →
    error.tag = tag ∨ ∃ a ∈ items, a.Holds error
  | [], h => nomatch h
  | a :: rest, h => by
    simp only [normalizeItems] at h
    rcases bind_error h with ha | ⟨e, -, h⟩
    · exact (normalize_error a ha).imp_right fun hholds => ⟨a, List.mem_cons_self, hholds⟩
    · rcases bind_error h with hrest | ⟨es, -, h⟩
      · exact (normalizeItems_error rest hrest).imp_right fun ⟨a', ha', hholds⟩ =>
          ⟨a', List.mem_cons_of_mem _ ha', hholds⟩
      · cases h

theorem normalizeFields_error : ∀ fields : List (String × Argument),
    normalizeFields tag fields = .error error → error.tag = tag ∨ ∃ p ∈ fields, p.2.Holds error
  | [], h => nomatch h
  | (name, a) :: rest, h => by
    simp only [normalizeFields] at h
    rcases bind_error h with ha | ⟨e, -, h⟩
    · exact (normalize_error a ha).imp_right fun hholds => ⟨(name, a), List.mem_cons_self, hholds⟩
    · rcases bind_error h with hrest | ⟨es, -, h⟩
      · exact (normalizeFields_error rest hrest).imp_right fun ⟨p, hp, hholds⟩ =>
          ⟨p, List.mem_cons_of_mem _ hp, hholds⟩
      · cases h

end

/-- A value, where it stands for a lambda. -/
theorem value_error {a : Argument} {bound atEnd : Nat}
    (h : Build.ofExcept (a.normalize tag) bound = .error (.failed error) atEnd) :
    error.tag = tag ∨ a.Holds error := by
  obtain ⟨-, _, ⟨⟩, herror⟩ := Build.ofExcept_error_iff.1 h
  exact normalize_error a herror

/-- A run of a host function ends with the error, or gives what brings it. -/
def EndsBringing (error : BuildError) (r : EStateM.Result Stop Nat Argument) : Prop :=
  (∃ atEnd, r = .error (.failed error) atEnd) ∨
    ∃ a atEnd, r = .ok a atEnd ∧ a.Brings error atEnd

mutual

theorem normalizeLambda_error : ∀ (a : Argument) {bound atEnd : Nat},
    a.normalizeLambda .byDepth tag bound = .error (.failed error) atEnd →
      error.tag = tag ∨ a.Brings error bound
  | .function 0 _, _, _, h => by
    cases h
    exact .inl rfl
  | .function (n + 1) body, bound, atEnd, h => by
    have hending := @normalizeEnding_error
      (body ((implicitNames bound (n + 1)).map variableNode) (bound + (n + 1)))
    simp only [normalizeLambda, Build.binding] at h
    cases hrun : normalizeEnding .byDepth tag
        (body ((implicitNames bound (n + 1)).map variableNode) (bound + (n + 1))) with
    | ok e middle =>
      rw [hrun] at h
      cases h
    | error stop middle =>
      rw [hrun] at h
      cases h
      refine (hending hrun).imp_right ?_
      rintro (⟨_, hstops⟩ | ⟨a, _, hgives, hbrings⟩)
      · exact .stops hstops
      · exact .gives hgives hbrings
  | .literal value, _, _, h => (value_error (a := .literal value) h).imp_right .holds
  | .array items, _, _, h => (value_error (a := .array items) h).imp_right .holds
  | .object fields, _, _, h => (value_error (a := .object fields) h).imp_right .holds
  | .node e, _, _, h => (value_error (a := .node e) h).imp_right .holds
  | .failed other, _, _, h => (value_error (a := .failed other) h).imp_right .holds

theorem normalizeEnding_error : ∀ (r : EStateM.Result Stop Nat Argument) {atEnd : Nat},
    normalizeEnding .byDepth tag r = .error (.failed error) atEnd →
      error.tag = tag ∨ EndsBringing error r
  | .ok a bound, _, h =>
    (normalizeLambda_error a h).imp_right fun hbrings => .inr ⟨a, bound, rfl, hbrings⟩
  | .error stop bound, _, h => by
    cases h
    exact .inr (.inl ⟨_, rfl⟩)

end

theorem enter_apply (numbering : Numbering) (tag : String) (f : List Expr → Build Argument)
    (es : List Expr) (bound : Nat) :
    enter numbering tag f es bound = normalizeEnding numbering tag (f es bound) := by
  rw [enter, Build.bind_apply]
  cases f es bound <;> simp only [normalizeEnding]

theorem declaredName_error {a : Argument} (h : declaredName tag a = .error error) :
    error.tag = tag ∨ a.Holds error := by
  cases a with
  | literal value =>
    cases value with
    | string name => cases h
    | _ =>
      cases h
      exact .inl rfl
  | node e =>
    rw [declaredName] at h
    cases hname : e.string? with
    | some name =>
      rw [hname] at h
      cases h
    | none =>
      rw [hname] at h
      cases h
      exact .inl rfl
  | failed other =>
    cases h
    exact .inr .failed
  | _ =>
    cases h
    exact .inl rfl

theorem mapM_error {α β : Type} {f : α → Except BuildError β} {l : List α}
    (h : l.mapM f = .error error) : ∃ a ∈ l, f a = .error error := by
  induction l with
  | nil => cases h
  | cons a rest ih =>
    rw [List.mapM_cons] at h
    rcases bind_error h with ha | ⟨b, -, h⟩
    · exact ⟨a, List.mem_cons_self, ha⟩
    · rcases bind_error h with hrest | ⟨bs, -, h⟩
      · obtain ⟨a', ha', herror⟩ := ih hrest
        exact ⟨a', List.mem_cons_of_mem _ ha', herror⟩
      · cases h

theorem nodeNames_error {e : Expr} (h : nodeNames tag e = .error error) : error.tag = tag := by
  cases e with
  | literal value =>
    cases value with
    | string name => cases h
    | _ =>
      cases h
      rfl
  | array items =>
    obtain ⟨item, -, herror⟩ := mapM_error h
    split at herror
    · cases herror
    · cases herror
      rfl
  | _ =>
    cases h
    rfl

theorem bindingNames_error {a : Argument} (h : a.bindingNames tag = .error error) :
    error.tag = tag ∨ a.Holds error := by
  cases a with
  | literal value =>
    cases value with
    | string name => cases h
    | _ =>
      cases h
      exact .inl rfl
  | array items =>
    rcases bind_error h with hitems | ⟨names, -, h⟩
    · obtain ⟨item, hitem, herror⟩ := mapM_error hitems
      exact (declaredName_error herror).imp_right (.item hitem)
    · cases h
  | object fields =>
    cases h
    exact .inl rfl
  | node e =>
    rcases bind_error h with hnames | ⟨names, -, h⟩
    · exact .inl (nodeNames_error hnames)
    · cases h
  | function arity body =>
    cases h
    exact .inl rfl
  | failed other =>
    cases h
    exact .inr .failed

end Argument

/-- An error comes with the operand that is taken. -/
def Taking.Brings (error : BuildError) (bound : Nat) : Taking → Prop
  | .count .. => False
  | .value a | .declared a => a.Holds error
  | .lambda a => a.Brings error bound
  | .body names (.function arity f) =>
    arity = names.length ∧ Argument.EndsBringing error (f (names.map variableNode) bound)
  | .body _ a => a.Holds error

theorem Taking.stop?_of_failed {t : Taking} {error : BuildError}
    (h : t.operand? = some (.failed error)) (tag : String) (bound : Nat) :
    t.stop? tag bound = some (.failed error, bound) := by
  cases t with
  | count least given => cases h
  | value a =>
    cases h
    rfl
  | lambda a =>
    cases h
    rfl
  | declared a =>
    cases h
    rfl
  | body names a =>
    cases h
    rfl

/-- An error that does not come with the operand names the builder that takes it. -/
theorem Taking.stop?_failed {t : Taking} {tag : String} {bound atEnd : Nat} {error : BuildError}
    (h : t.stop? tag bound = some (.failed error, atEnd)) :
    error.tag = tag ∨ t.Brings error bound := by
  rw [stop?] at h
  cases t with
  | count least given =>
    rw [attempt] at h
    split at h
    · cases h
      exact .inl rfl
    · cases h
  | value a =>
    rw [attempt, stop?_effect, stop?_eq_some] at h
    exact Argument.value_error h
  | lambda a =>
    rw [attempt, stop?_effect, stop?_eq_some] at h
    exact Argument.normalizeLambda_error a h
  | declared a =>
    rw [attempt, stop?_effect, stop?_eq_some] at h
    obtain ⟨-, _, ⟨⟩, herror⟩ := Build.ofExcept_error_iff.1 h
    exact Argument.bindingNames_error herror
  | body names a =>
    rw [attempt, stop?_effect, stop?_eq_some] at h
    cases a with
    | function arity f =>
      rw [Argument.normalizeBody] at h
      split at h
      · rename_i harity
        have hending := (Argument.enter_apply .byDepth tag f _ bound).symm.trans h
        exact (Argument.normalizeEnding_error _ hending).imp_right fun hends => ⟨harity, hends⟩
      · cases h
        exact .inl rfl
    | literal value => exact Argument.value_error (a := .literal value) h
    | array items => exact Argument.value_error (a := .array items) h
    | object fields => exact Argument.value_error (a := .object fields) h
    | node e => exact Argument.value_error (a := .node e) h
    | failed other => exact Argument.value_error (a := .failed other) h

/-! ## Wire fields -/

/-- Tag, required fields and given optional ones: for these operands are taken, in this order but
for a call. -/
theorem Form.names_takenFields {entry : Entry} {form : Form} (hentry : entry ∈ Catalog.entries)
    (hform : entry.form? = some form) (hobject : form ≠ .object) (operands : Operands) :
    (if form = .call then (Fields.names (form.takenFields entry.tag operands)).reverse
      else Fields.names (form.takenFields entry.tag operands)) =
      entry.tag :: (form.requiredNames ++ form.suppliedNames operands) := by
  cases form with
  | operation position slots =>
    have hfilled := filled_names hentry hform operands
    rw [← hfilled]
    simp [takenFields, Operands.takenSlots, Fields.names, Function.comp_def, Form.slots, layout?]
  | object => exact absurd rfl hobject
  | _ => rfl

theorem Form.names_distinct {entry : Entry} {form : Form} (hentry : entry ∈ Catalog.entries)
    (hform : entry.form? = some form) (operands : Operands) :
    (entry.tag :: (form.requiredNames ++ form.suppliedNames operands)).Nodup := by
  obtain ⟨hnodup, htag⟩ := Catalog.fieldNames_nodup entry hentry
  have hslots : form.slots.map Slot.name = entry.fieldNames := by
    rw [Entry.fieldNames_of_form hform]
    cases form <;> rfl
  rw [← hslots] at hnodup htag
  rw [← filled_names hentry hform]
  have hsub := (List.filter_sublist (p := fun slot => !slot.optional || operands.fills slot)
    (l := form.slots)).map Slot.name
  exact List.nodup_cons.2 ⟨fun hmem => htag (hsub.subset hmem), hsub.nodup hnodup⟩

/-- The names of the node in the wire document are those of the fields for which operands are taken,
in this order, but for a call. -/
theorem Form.yields_wire {entry : Entry} {form : Form} (hentry : entry ∈ Catalog.entries)
    (hform : entry.form? = some form) (numbering : Numbering) (operands : Operands) :
    Build.Yields (fun e => ∃ fields, e.toDocument = .object fields ∧ Fields.names fields =
        if form = .call then (Fields.names (form.takenFields entry.tag operands)).reverse
        else Fields.names (form.takenFields entry.tag operands))
      (form.build numbering entry.tag operands) := by
  by_cases hobject : form = .object
  · subst hobject
    apply yields_ofExcept
    intro e he
    obtain ⟨nodes, -, rfl⟩ := Argument.normalize_object_ok he
    rw [Expr.toDocument_object (Fields.ascending_sorted _)]
    refine ⟨_, rfl, ?_⟩
    rw [(Catalog.consistent entry hentry).tag_of_object hform]
    rfl
  · intro bound e atEnd hbuild
    obtain ⟨operand, fields, rfl, hnames⟩ :=
      yields_makes hentry hform hobject numbering operands bound e atEnd hbuild
    have hdistinct := names_distinct hentry hform operands
    rw [names_takenFields hentry hform hobject, ← hnames]
    rw [← hnames] at hdistinct
    rw [Expr.toDocument_operation hdistinct]
    refine ⟨_, rfl, ?_⟩
    simp [Fields.names, Function.comp_def]

/-! ## The builder call -/

/-- The operand is taken without a failure or an exception. -/
def Taking.Succeeds (tag : String) (bound : Nat) (t : Taking) : Prop := t.stop? tag bound = none

/-- What comes after an operand that cannot be taken makes no difference. -/
theorem Builder.build_eq_of_offending (b : Builder) {operands others : Operands} {bound : Nat}
    {before after after' : List Taking} {t : Taking}
    (htakings : b.takings operands = before ++ t :: after)
    (hothers : b.takings others = before ++ t :: after') (h : ¬ t.Succeeds b.tag bound) :
    b.build .byDepth others bound = b.build .byDepth operands bound := by
  obtain ⟨⟨stop, atEnd⟩, hstop⟩ := Option.ne_none_iff_exists'.1 h
  have hrest : ∀ rest : List Taking, (before ++ t :: rest).findSome? (Taking.stop? b.tag bound) =
      (before.findSome? (Taking.stop? b.tag bound)).or (some (stop, atEnd)) := by
    intro rest
    rw [List.findSome?_append, List.findSome?_cons, hstop]
  have hoperands := b.stop?_build operands bound
  have hreplaced := b.stop?_build others bound
  rw [htakings, hrest] at hoperands
  rw [hothers, hrest] at hreplaced
  cases hbefore : before.findSome? (Taking.stop? b.tag bound) with
  | none =>
    rw [hbefore, Option.none_or, stop?_eq_some] at hoperands hreplaced
    rw [hoperands, hreplaced]
  | some first =>
    rw [hbefore, Option.some_or, stop?_eq_some] at hoperands hreplaced
    rw [hoperands, hreplaced]

/-- A builder call takes its operands in the order of its wire fields, the arguments of a call
before its function. It succeeds if and only if it can take all of them. Otherwise it ends as the
first one does that it cannot take, whatever else is given after it. A failed argument ends it with
its error, and other errors that do not come with an operand name the tag. -/
theorem Builder.first_offending_decides (b : Builder) (operands : Operands) (bound : Nat) :
    (∀ e atEnd, b.build .byDepth operands bound = .ok e atEnd →
      ∃ fields, e.toDocument = .object fields ∧ Fields.names fields =
        if b.form = .call then (Fields.names (b.form.takenFields b.tag operands)).reverse
        else Fields.names (b.form.takenFields b.tag operands)) ∧
    ((∃ e atEnd, b.build .byDepth operands bound = .ok e atEnd) ↔
      ∀ t ∈ b.takings operands, t.Succeeds b.tag bound) ∧
    (∀ stop atEnd, b.build .byDepth operands bound = .error stop atEnd ↔
      ∃ before t after, b.takings operands = before ++ t :: after ∧
        (∀ s ∈ before, s.Succeeds b.tag bound) ∧ t.stop? b.tag bound = some (stop, atEnd)) ∧
    (∀ before t after others after', b.takings operands = before ++ t :: after →
      b.takings others = before ++ t :: after' → ¬ t.Succeeds b.tag bound →
      b.build .byDepth others bound = b.build .byDepth operands bound) ∧
    (∀ t ∈ b.takings operands, ∀ error, t.operand? = some (.failed error) →
      t.stop? b.tag bound = some (.failed error, bound)) ∧
    (∀ t ∈ b.takings operands, ∀ error atEnd,
      t.stop? b.tag bound = some (.failed error, atEnd) →
      error.tag = b.tag ∨ t.Brings error bound) := by
  refine ⟨?_, ?_, ?_, ?_, ?_, ?_⟩
  · have hwire := Form.yields_wire b.listed b.formed .byDepth operands
    rw [b.entry_tag] at hwire
    exact hwire bound
  · rw [← stop?_eq_none, stop?_build, List.findSome?_eq_none_iff]
    rfl
  · intro stop atEnd
    rw [← stop?_eq_some, stop?_build, List.findSome?_eq_some_iff]
    constructor
    · rintro ⟨before, t, after, htakings, hstop, hbefore⟩
      exact ⟨before, t, after, htakings, hbefore, hstop⟩
    · rintro ⟨before, t, after, htakings, hbefore, hstop⟩
      exact ⟨before, t, after, htakings, hstop, hbefore⟩
  · intro before t after others after' htakings hothers hoffending
    exact b.build_eq_of_offending htakings hothers hoffending
  · intro t _ error herror
    exact Taking.stop?_of_failed herror b.tag bound
  · intro t _ error atEnd hstop
    exact Taking.stop?_failed hstop

/-- The builder of folds. -/
def reduce : Builder where
  entry := ⟨.read, "reduce", "reduce", "reduce(lambda, initial, collection)", false,
    some ⟨"reduce", .operation .lambda [.required "initial", .required "collection"]⟩⟩
  tag := "reduce"
  form := .operation .lambda [.required "initial", .required "collection"]
  listed := by simp [Catalog.entries, Catalog.readEntries]
  recipe := rfl

/-- The lambda comes first, wherever it is given. A failed initial value hides that the collection
is a function that throws; without it this function is refused, and not called. -/
theorem reduce_offending :
    let lambda : Argument := .function 2 fun es bound => .ok (.array (es.map .node)) bound
    let throwing : Argument := .function 1 fun _ bound => .error (.thrown "late") bound
    let failed : Argument := .failed (.arity "add" 1 0)
    let refused : BuildError := .functionNotAllowed "reduce"
    let operands : Argument → Argument → Operands := fun initial collection =>
      [(.field "collection", collection), (.field "initial", initial), (.field "reduce", lambda)]
    (∃ e, reduce.build .byDepth (operands .null .null) 3 = .ok e 3 ∧
      ∃ fields, e.toDocument = .object fields ∧
        Fields.names fields = ["reduce", "initial", "collection"]) ∧
    reduce.build .byDepth (operands failed throwing) 3 = .error (.failed (.arity "add" 1 0)) 3 ∧
    reduce.build .byDepth (operands failed .null) 3 =
      reduce.build .byDepth (operands failed throwing) 3 ∧
    reduce.build .byDepth (operands .null throwing) 3 = .error (.failed refused) 3 ∧
    (refused.tag = "reduce" ∨ (Taking.value throwing).Brings refused 3) := by
  intro lambda throwing failed refused operands
  have hlambda : (Taking.lambda lambda).Succeeds "reduce" 3 := rfl
  have htakings : ∀ initial collection, reduce.takings (operands initial collection) =
      [.lambda lambda, .value initial] ++ [.value collection] := fun _ _ => rfl
  have hbefore : ∀ s ∈ [Taking.lambda lambda], s.Succeeds "reduce" 3 := by simp [hlambda]
  obtain ⟨hwire, -⟩ := reduce.first_offending_decides (operands .null .null) 3
  obtain ⟨-, -, hstops, hreplaced, hfailed, -⟩ :=
    reduce.first_offending_decides (operands failed throwing) 3
  obtain ⟨-, -, hrefused, -, -, hnamed⟩ :=
    reduce.first_offending_decides (operands .null throwing) 3
  have hinitial : (Taking.value failed).stop? "reduce" 3 = some (.failed (.arity "add" 1 0), 3) :=
    hfailed (.value failed) (by simp [htakings]) _ rfl
  have hcollection : (Taking.value throwing).stop? "reduce" 3 = some (.failed refused, 3) := rfl
  refine ⟨⟨_, rfl, hwire _ 3 rfl⟩, ?_, ?_, ?_, ?_⟩
  · exact (hstops _ 3).2 ⟨[.lambda lambda], .value failed, [.value throwing],
      htakings failed throwing, hbefore, hinitial⟩
  · refine hreplaced [.lambda lambda] (.value failed) [.value throwing] (operands failed .null)
      [.value .null] (htakings failed throwing) (htakings failed .null) ?_
    exact Option.ne_none_iff_exists'.2 ⟨_, hinitial⟩
  · refine (hrefused _ 3).2 ⟨[.lambda lambda, .value .null], .value throwing, [],
      htakings .null throwing, ?_, hcollection⟩
    simp only [List.forall_mem_cons]
    exact ⟨hlambda, rfl, nofun⟩
  · exact hnamed (.value throwing) (by simp [htakings]) refused 3 hcollection

end QueryTree
