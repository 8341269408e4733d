import QueryTree.Program.Run

/-!
# Names in terms

Which names a term uses: those it refers to or declares itself, and those it reads from its
environment. A lambda takes the names it declares from any term, so that a term read from the
environment may offer names too. A term within a usage has no accessor: an accessor could take the
body of a lambda away from its parameters.
-/

namespace QueryTree

/-! ## Offered names -/

/-- The names that a node declares where a binding stands. -/
def Expr.offered : Expr → List String
  | .literal (.string name) => [name]
  | .array items => items.filterMap Expr.string?
  | _ => []

theorem Expr.string?_eq_some {e : Expr} {name : String} (h : e.string? = some name) :
    e = .string name := by
  cases e with
  | literal value =>
    cases value <;> simp_all [Expr.string?, Expr.literal?, Literal.string?, Expr.string]
  | _ => cases h

namespace Argument

def name? : Argument → Option String
  | .literal value => value.string?
  | .node e => e.string?
  | _ => none

/-- The names that an argument declares where a binding stands. -/
def offered : Argument → List String
  | .literal (.string name) => [name]
  | .array items => items.filterMap name?
  | .node e => e.offered
  | _ => []

end Argument

def Binding.offered : Binding → List String
  | .node e => e.offered
  | .nodes es => es.flatMap Expr.offered

def Env.offered (env : Env) (name : String) : List String :=
  ((env.lookup name).map Binding.offered).getD []

/-! ## Usage -/

/-- The names that a term may refer to or declare, those that it may read, and those that it may
read where a binding stands. -/
structure Usage where
  named : String → Prop
  reads : String → Prop
  offers : String → Prop

namespace Usage

/-- Any name may be used. -/
def free : Usage := ⟨fun _ => True, fun _ => True, fun _ => True⟩

/-- The usage of a function body, whose parameters stand for variables. -/
def under (u : Usage) (bound : String → Prop) : Usage :=
  ⟨u.named, fun x => bound x ∨ u.reads x, fun x => bound x ∨ u.offers x⟩

end Usage

/-- The names that a function of so many variables binds. -/
def Numbered (arity : Nat) (name x : String) : Prop :=
  x = name ∨ ∃ i < arity, x = name ++ toString i

namespace Program

mutual

/-- Where a binding stands, the term declares permitted names only. -/
def Offers (u : Usage) : Program → Prop
  | .literal value => ∀ name ∈ (Argument.literal value).offered, u.named name
  | .document value => ∀ name ∈ (Argument.ofDocument value).offered, u.named name
  | .list items => OffersItems u items
  | .get name | .spread name => u.offers name
  | .normalize term _ | .normalizeLambda term _ => Offers u term
  | .part .. => False
  | .attempt term fallback | .orElse term fallback => Offers u term ∧ Offers u fallback
  | _ => True

def OffersItems (u : Usage) : List Program → Prop
  | [] => True
  | term :: rest => Offers u term ∧ OffersItems u rest

end

mutual

/-- The term has no accessor and uses permitted names only. -/
def Within (u : Usage) : Program → Prop
  | .list items => WithinItems u items
  | .object fields | .keyed fields => WithinFields u fields
  | .get name | .spread name => u.reads name
  | .leaf (.variable name) => u.named name
  | .call builder operands => WithinOperands u builder operands
  | .function parameters body => Within (u.under (· ∈ parameters)) body
  | .functionOf arity name body => Within (u.under (Numbered arity name)) body
  | .normalize term _ | .normalizeLambda term _ => Within u term
  | .part .. => False
  | .attempt term fallback | .orElse term fallback => Within u term ∧ Within u fallback
  | _ => True

def WithinItems (u : Usage) : List Program → Prop
  | [] => True
  | term :: rest => Within u term ∧ WithinItems u rest

def WithinFields (u : Usage) : List (String × Program) → Prop
  | [] => True
  | (_, term) :: rest => Within u term ∧ WithinFields u rest

/-- A let declares the names of its entries, a lambda those that the operand under its tag
offers. -/
def WithinOperands (u : Usage) (builder : Builder) : List (Label × Program) → Prop
  | [] => True
  | (label, term) :: rest =>
    Within u term ∧ (builder.form = .letIn → ∀ name, label = .entry name → u.named name) ∧
      (builder.form = .lambda → label = .field builder.tag → Offers u term) ∧
      WithinOperands u builder rest

end

mutual

/-- The term uses permitted names only, and accessors only if they are permitted. Where any name may
be declared, a binding may stand anywhere. -/
def Uses (accessors : Prop) (u : Usage) : Program → Prop
  | .list items => UsesItems accessors u items
  | .object fields | .keyed fields => UsesFields accessors u fields
  | .get name | .spread name => u.reads name
  | .leaf (.variable name) => u.named name
  | .call builder operands => UsesOperands accessors u builder operands
  | .function parameters body => Uses accessors (u.under (· ∈ parameters)) body
  | .functionOf arity name body => Uses accessors (u.under (Numbered arity name)) body
  | .normalize term _ | .normalizeLambda term _ => Uses accessors u term
  | .part term _ => accessors ∧ Uses accessors u term
  | .attempt term fallback | .orElse term fallback =>
    Uses accessors u term ∧ Uses accessors u fallback
  | _ => True

def UsesItems (accessors : Prop) (u : Usage) : List Program → Prop
  | [] => True
  | term :: rest => Uses accessors u term ∧ UsesItems accessors u rest

def UsesFields (accessors : Prop) (u : Usage) : List (String × Program) → Prop
  | [] => True
  | (_, term) :: rest => Uses accessors u term ∧ UsesFields accessors u rest

def UsesOperands (accessors : Prop) (u : Usage) (builder : Builder) :
    List (Label × Program) → Prop
  | [] => True
  | (label, term) :: rest =>
    Uses accessors u term ∧
      (builder.form = .letIn → ∀ name, label = .entry name → u.named name) ∧
      (builder.form = .lambda → label = .field builder.tag →
        (∀ name, u.named name) ∨ Offers u term) ∧
      UsesOperands accessors u builder rest

end

mutual

/-- The paths that the accessors of a term follow. -/
def paths : Program → List (List Expr.Step)
  | .list items => pathsItems items
  | .object fields | .keyed fields => pathsFields fields
  | .call _ operands => pathsOperands operands
  | .function _ body | .functionOf _ _ body => paths body
  | .normalize term _ | .normalizeLambda term _ => paths term
  | .part term path => path :: paths term
  | .attempt term fallback | .orElse term fallback => paths term ++ paths fallback
  | _ => []

def pathsItems : List Program → List (List Expr.Step)
  | [] => []
  | term :: rest => paths term ++ pathsItems rest

def pathsFields : List (String × Program) → List (List Expr.Step)
  | [] => []
  | (_, term) :: rest => paths term ++ pathsFields rest

def pathsOperands : List (Label × Program) → List (List Expr.Step)
  | [] => []
  | (_, term) :: rest => paths term ++ pathsOperands rest

end

mutual

theorem uses_of_within : ∀ (term : Program) {u : Usage}, term.Within u → term.Uses False u
  | .literal _, _, _ | .document _, _, _ | .fail _, _, _ | .throw _, _, _ => trivial
  | .list items, _, h => uses_items_of_within items h
  | .object fields, _, h | .keyed fields, _, h => uses_fields_of_within fields h
  | .get _, _, h | .spread _, _, h => h
  | .leaf (.variable _), _, h => h
  | .leaf (.reference _), _, _ | .leaf (.timestamp _), _, _ | .leaf (.date _), _, _
  | .leaf (.bytes _), _, _ => trivial
  | .call _ operands, _, h => uses_operands_of_within operands h
  | .function _ body, _, h | .functionOf _ _ body, _, h => uses_of_within body h
  | .normalize term _, _, h | .normalizeLambda term _, _, h => uses_of_within term h
  | .part .., _, h => h.elim
  | .attempt term fallback, _, h | .orElse term fallback, _, h =>
    ⟨uses_of_within term h.1, uses_of_within fallback h.2⟩

theorem uses_items_of_within : ∀ (items : List Program) {u : Usage}, WithinItems u items →
    UsesItems False u items
  | [], _, _ => trivial
  | term :: rest, _, h => ⟨uses_of_within term h.1, uses_items_of_within rest h.2⟩

theorem uses_fields_of_within : ∀ (fields : List (String × Program)) {u : Usage},
    WithinFields u fields → UsesFields False u fields
  | [], _, _ => trivial
  | (_, term) :: rest, _, h => ⟨uses_of_within term h.1, uses_fields_of_within rest h.2⟩

theorem uses_operands_of_within : ∀ (operands : List (Label × Program)) {u : Usage} {b : Builder},
    WithinOperands u b operands → UsesOperands False u b operands
  | [], _, _, _ => trivial
  | (_, term) :: rest, _, _, h =>
    ⟨uses_of_within term h.1, h.2.1, fun hform hlabel => .inr (h.2.2.1 hform hlabel),
      uses_operands_of_within rest h.2.2.2⟩

end

mutual

/-- Any term may be used where everything is permitted. -/
theorem uses_of_free : ∀ (term : Program) {u : Usage}, (∀ name, u.named name) →
    (∀ x, u.reads x) → term.Uses True u
  | .literal _, _, _, _ | .document _, _, _, _ | .fail _, _, _, _ | .throw _, _, _, _ => trivial
  | .list items, _, hnamed, hreads => uses_items_of_free items hnamed hreads
  | .object fields, _, hnamed, hreads | .keyed fields, _, hnamed, hreads =>
    uses_fields_of_free fields hnamed hreads
  | .get x, _, _, hreads | .spread x, _, _, hreads => hreads x
  | .leaf (.variable name), _, hnamed, _ => hnamed name
  | .leaf (.reference _), _, _, _ | .leaf (.timestamp _), _, _, _ | .leaf (.date _), _, _, _
  | .leaf (.bytes _), _, _, _ => trivial
  | .call _ operands, _, hnamed, hreads => uses_operands_of_free operands hnamed hreads
  | .function _ body, _, hnamed, hreads | .functionOf _ _ body, _, hnamed, hreads =>
    uses_of_free body hnamed fun x => .inr (hreads x)
  | .normalize term _, _, hnamed, hreads | .normalizeLambda term _, _, hnamed, hreads =>
    uses_of_free term hnamed hreads
  | .part term _, _, hnamed, hreads => ⟨trivial, uses_of_free term hnamed hreads⟩
  | .attempt term fallback, _, hnamed, hreads | .orElse term fallback, _, hnamed, hreads =>
    ⟨uses_of_free term hnamed hreads, uses_of_free fallback hnamed hreads⟩

theorem uses_items_of_free : ∀ (items : List Program) {u : Usage}, (∀ name, u.named name) →
    (∀ x, u.reads x) → UsesItems True u items
  | [], _, _, _ => trivial
  | term :: rest, _, hnamed, hreads =>
    ⟨uses_of_free term hnamed hreads, uses_items_of_free rest hnamed hreads⟩

theorem uses_fields_of_free : ∀ (fields : List (String × Program)) {u : Usage},
    (∀ name, u.named name) → (∀ x, u.reads x) → UsesFields True u fields
  | [], _, _, _ => trivial
  | (_, term) :: rest, _, hnamed, hreads =>
    ⟨uses_of_free term hnamed hreads, uses_fields_of_free rest hnamed hreads⟩

theorem uses_operands_of_free : ∀ (operands : List (Label × Program)) {u : Usage} {b : Builder},
    (∀ name, u.named name) → (∀ x, u.reads x) → UsesOperands True u b operands
  | [], _, _, _, _ => trivial
  | (_, term) :: rest, _, _, hnamed, hreads =>
    ⟨uses_of_free term hnamed hreads, fun _ name _ => hnamed name, fun _ _ => .inl hnamed,
      uses_operands_of_free rest hnamed hreads⟩

end

end Program

/-! ## What runs offer -/

namespace Build

variable {α β : Type}

/-- Every value that the build gives has the property. -/
def Yields (Q : α → Prop) (x : Build α) : Prop :=
  ∀ bound a atEnd, x bound = .ok a atEnd → Q a

theorem yields_pure {Q : α → Prop} {a : α} (h : Q a) : Yields Q (pure a) := by
  intro bound a' atEnd hrun
  cases hrun
  exact h

theorem yields_bind {P : α → Prop} {Q : β → Prop} {x : Build α} {f : α → Build β}
    (hx : Yields P x) (hf : ∀ a, P a → Yields Q (f a)) : Yields Q (x >>= f) := by
  intro bound b atEnd hrun
  rw [bind_apply] at hrun
  cases hx' : x bound with
  | ok a middle =>
    rw [hx'] at hrun
    exact hf a (hx bound a middle hx') middle b atEnd hrun
  | error stop middle =>
    rw [hx'] at hrun
    cases hrun

theorem yields_true (x : Build α) : Yields (fun _ => True) x := fun _ _ _ _ => trivial

theorem yields_fail {Q : α → Prop} (error : BuildError) : Yields Q (fail error) := by
  intro bound a atEnd hrun
  cases hrun

theorem yields_throw {Q : α → Prop} (message : String) : Yields Q (throw message) := by
  intro bound a atEnd hrun
  cases hrun

theorem yields_ofExcept {Q : α → Prop} {x : Except BuildError α} (h : ∀ a, x = .ok a → Q a) :
    Yields Q (ofExcept x) := by
  cases x with
  | ok a => exact yields_pure (h a rfl)
  | error error => exact yields_fail error

theorem yields_binding {Q : α → Prop} {numbering : Numbering} {count : Nat}
    {part : Nat → Build α} (h : ∀ first, Yields Q (part first)) :
    Yields Q (binding numbering count part) := by
  intro bound a atEnd hrun
  simp only [binding] at hrun
  cases hp : part bound (bound + count) with
  | ok b middle =>
    rw [hp] at hrun
    cases hrun
    exact h bound _ _ _ hp
  | error stop middle =>
    rw [hp] at hrun
    cases hrun

theorem yields_captured {Q : Argument → Prop} {x : Build Expr}
    (h : Yields (fun e => Q (.node e)) x) (hfailed : ∀ error, Q (.failed error)) :
    Yields Q x.captured := by
  refine yields_bind (P := fun r => Q (.ofExcept r)) ?_ fun r hr => yields_pure hr
  intro bound r atEnd hrun
  simp only [outcome] at hrun
  split at hrun
  · rename_i hx
    cases hrun
    exact h _ _ _ hx
  · cases hrun
    exact hfailed _
  · cases hrun

theorem yields_catching {Q : Argument → Prop} {x fallback : Build Argument} (hx : Yields Q x)
    (hf : Yields Q fallback) : Yields Q (x.catching fallback) := by
  intro bound a atEnd hrun
  simp only [catching] at hrun
  split at hrun
  · exact hf _ _ _ hrun
  · exact hx _ _ _ hrun

theorem yields_replacingFailure {Q : Argument → Prop} {x fallback : Build Argument}
    (hx : Yields Q x) (hf : Yields Q fallback) : Yields Q (x.replacingFailure fallback) := by
  refine yields_bind hx fun a ha => ?_
  split
  · exact hf
  · exact yields_pure ha

end Build

namespace Argument

theorem bind_ok {α β : Type} {x : Except BuildError α} {f : α → Except BuildError β} {b : β}
    (h : (x >>= f) = .ok b) : ∃ a, x = .ok a ∧ f a = .ok b := by
  cases x with
  | ok a => exact ⟨a, rfl, h⟩
  | error error => cases h

theorem normalize_array_ok {tag : String} {items : List Argument} {e : Expr}
    (h : normalize tag (.array items) = .ok e) :
    ∃ es, normalizeItems tag items = .ok es ∧ e = .array es := by
  simp only [normalize] at h
  obtain ⟨es, hitems, he⟩ := bind_ok h
  cases he
  exact ⟨es, hitems, rfl⟩

theorem normalize_object_ok {tag : String} {fields : List (String × Argument)} {e : Expr}
    (h : normalize tag (.object fields) = .ok e) :
    ∃ es, normalizeFields tag fields = .ok es ∧ e = .object (Fields.sorted es) := by
  simp only [normalize] at h
  obtain ⟨es, hfields, he⟩ := bind_ok h
  cases he
  exact ⟨es, hfields, rfl⟩

theorem normalizeItems_cons_ok {tag : String} {item : Argument} {rest : List Argument}
    {es : List Expr} (h : normalizeItems tag (item :: rest) = .ok es) :
    ∃ e es', normalize tag item = .ok e ∧ normalizeItems tag rest = .ok es' ∧ es = e :: es' := by
  simp only [normalizeItems] at h
  obtain ⟨e, hitem, h⟩ := bind_ok h
  obtain ⟨es', hrest, h⟩ := bind_ok h
  cases h
  exact ⟨e, es', hitem, hrest, rfl⟩

theorem name?_mem_offered {a : Argument} {name : String} (h : a.name? = some name) :
    name ∈ a.offered := by
  cases a with
  | literal value => cases value <;> simp_all [name?, Literal.string?, offered]
  | node e =>
    cases e with
    | literal value =>
      cases value <;> simp_all [name?, Expr.string?, Expr.literal?, Literal.string?, offered,
        Expr.offered]
    | _ => cases h
  | _ => cases h

theorem string?_of_normalize {tag : String} {a : Argument} {e : Expr}
    (h : a.normalize tag = .ok e) {name : String} (hname : e.string? = some name) :
    a.name? = some name := by
  cases a with
  | literal value =>
    cases h
    exact hname
  | node e' =>
    cases h
    exact hname
  | array items =>
    obtain ⟨es, -, rfl⟩ := normalize_array_ok h
    cases hname
  | object fields =>
    obtain ⟨es, -, rfl⟩ := normalize_object_ok h
    cases hname
  | function arity body => cases h
  | failed error => cases h

theorem offered_normalizeItems {tag : String} {items : List Argument} {es : List Expr}
    (h : normalizeItems tag items = .ok es) {name : String}
    (hname : name ∈ es.filterMap Expr.string?) : name ∈ items.filterMap name? := by
  induction items generalizing es with
  | nil =>
    cases h
    exact hname
  | cons item rest ih =>
    obtain ⟨e, es', hitem, hrest, rfl⟩ := normalizeItems_cons_ok h
    obtain ⟨e', he', hstring⟩ := List.mem_filterMap.1 hname
    rcases List.mem_cons.1 he' with rfl | he'
    · exact List.mem_filterMap.2 ⟨item, List.mem_cons_self, string?_of_normalize hitem hstring⟩
    · obtain ⟨item', hitem', hname'⟩ :=
        List.mem_filterMap.1 (ih hrest (List.mem_filterMap.2 ⟨e', he', hstring⟩))
      exact List.mem_filterMap.2 ⟨item', List.mem_cons_of_mem _ hitem', hname'⟩

/-- A node offers no names but those of its argument. -/
theorem offered_normalize {tag : String} {a : Argument} {e : Expr} (h : a.normalize tag = .ok e)
    {name : String} (hname : name ∈ e.offered) : name ∈ a.offered := by
  cases a with
  | literal value =>
    cases h
    cases value <;> exact hname
  | node e' =>
    cases h
    exact hname
  | array items =>
    obtain ⟨es, hitems, rfl⟩ := normalize_array_ok h
    exact offered_normalizeItems hitems hname
  | object fields =>
    obtain ⟨es, -, rfl⟩ := normalize_object_ok h
    cases hname
  | function arity body => cases h
  | failed error => cases h

theorem mem_of_mapM_ok {α β : Type} {f : α → Except BuildError β} {as : List α} {bs : List β}
    (h : as.mapM f = .ok bs) {b : β} (hb : b ∈ bs) : ∃ a ∈ as, f a = .ok b := by
  induction as generalizing bs with
  | nil =>
    cases h
    cases hb
  | cons a rest ih =>
    rw [List.mapM_cons] at h
    obtain ⟨b', ha, h⟩ := bind_ok h
    obtain ⟨bs', hrest, h⟩ := bind_ok h
    cases h
    rcases List.mem_cons.1 hb with rfl | hb
    · exact ⟨a, List.mem_cons_self, ha⟩
    · obtain ⟨a', ha', hf⟩ := ih hrest hb
      exact ⟨a', List.mem_cons_of_mem _ ha', hf⟩

theorem name?_of_declaredName {tag : String} {a : Argument} {name : String}
    (h : declaredName tag a = .ok name) : a.name? = some name := by
  cases a with
  | literal value => cases value <;> simp_all [declaredName, name?, Literal.string?]
  | node e =>
    simp only [declaredName] at h
    cases he : e.string? <;> simp_all [name?]
  | _ => cases h

/-- Where a node declares names, it is a text or a list of texts. -/
theorem eq_of_nodeNames {tag : String} {e : Expr} {names : List String}
    (h : nodeNames tag e = .ok names) :
    (∃ name, e = .string name ∧ names = [name]) ∨ e = .array (names.map Expr.string) := by
  cases e with
  | literal value =>
    cases value <;> cases h
    exact .inl ⟨_, rfl, rfl⟩
  | array items =>
    refine .inr (congrArg Expr.array ?_)
    simp only [nodeNames] at h
    induction items generalizing names with
    | nil =>
      cases h
      rfl
    | cons item rest ih =>
      rw [List.mapM_cons] at h
      obtain ⟨name, hitem, h⟩ := bind_ok h
      obtain ⟨names', hrest, h⟩ := bind_ok h
      cases h
      cases hs : item.string? with
      | none => simp [hs] at hitem
      | some name' =>
        simp only [hs, Except.ok.injEq] at hitem
        rw [List.map_cons, ← ih hrest, ← hitem, ← Expr.string?_eq_some hs]
  | _ => cases h

theorem offered_of_nodeNames {tag : String} {e : Expr} {names : List String}
    (h : nodeNames tag e = .ok names) : e.offered = names := by
  rcases eq_of_nodeNames h with ⟨name, rfl, rfl⟩ | rfl
  · rfl
  · simp [Expr.offered, List.filterMap_map, Function.comp_def, Expr.string, Expr.string?,
      Expr.literal?, Literal.string?]

/-- A binding declares no names but those that are offered. -/
theorem offered_bindingNames {tag : String} {a : Argument} {parameters : Expr}
    {names : List String} (h : a.bindingNames tag = .ok (parameters, names)) {name : String}
    (hname : name ∈ names) : name ∈ a.offered := by
  cases a with
  | literal value => cases value <;> simp_all [bindingNames, offered]
  | array items =>
    simp only [bindingNames] at h
    obtain ⟨found, hitems, h⟩ := bind_ok h
    cases h
    obtain ⟨item, hitem, hdeclared⟩ := mem_of_mapM_ok hitems hname
    exact List.mem_filterMap.2 ⟨item, hitem, name?_of_declaredName hdeclared⟩
  | node e =>
    simp only [bindingNames] at h
    obtain ⟨found, hnames, h⟩ := bind_ok h
    cases h
    rw [offered, offered_of_nodeNames hnames]
    exact hname
  | _ => cases h

theorem yields_normalizeLambda (numbering : Numbering) (tag : String) (a : Argument) :
    Build.Yields (fun e => ∀ name ∈ e.offered, name ∈ a.offered)
      (a.normalizeLambda numbering tag) := by
  cases a with
  | function arity body =>
    cases arity with
    | zero => exact Build.yields_fail _
    | succ n =>
      rw [normalizeLambda_function numbering tag n body]
      apply Build.yields_binding
      intro first
      refine Build.yields_bind (Build.yields_true _) fun e _ => Build.yields_pure ?_
      intro name hname
      cases hname
  | _ =>
    simp only [normalizeLambda]
    exact Build.yields_ofExcept fun e he name hname => offered_normalize he hname

end Argument

/-- A builder gives no names. -/
theorem Builder.yields_build (b : Builder) (numbering : Numbering) (operands : Operands) :
    Build.Yields (fun e => e.offered = []) (b.build numbering operands) := by
  have free : ∀ {α : Type} (x : Build α), Build.Yields (fun _ => True) x := Build.yields_true
  unfold Builder.build
  cases b.form with
  | constant => exact Build.yields_pure rfl
  | listing | operation | traversal | call | letIn | lambda =>
    exact Build.yields_bind (free _) fun _ _ => Build.yields_bind (free _) fun _ _ =>
      Build.yields_pure rfl
  | object =>
    apply Build.yields_ofExcept
    intro e he
    obtain ⟨es, -, rfl⟩ := Argument.normalize_object_ok he
    rfl

/-- The usage of a term that refers to names of a kind, and reads some names of an environment. -/
def Usage.naming (named reads : String → Prop) (env : Env) : Usage :=
  ⟨named, reads, fun x => reads x ∧ ∀ name ∈ env.offered x, named name⟩

/-- The names offered by what the environment binds are permitted. -/
def Env.Permits (env : Env) (u : Usage) : Prop :=
  ∀ x, u.offers x → ∀ name ∈ env.offered x, u.named name

namespace Env

variable {env : Env} {u : Usage}

theorem Permits.argument (h : env.Permits u) {x : String} (hx : u.offers x) :
    ∀ name ∈ (env.argument x).offered, u.named name := by
  intro name hname
  apply h x hx name
  unfold Env.argument at hname
  unfold Env.offered
  cases hb : env.lookup x with
  | none =>
    rw [hb] at hname
    cases hname
  | some b =>
    rw [hb] at hname
    cases b with
    | node e => exact hname
    | nodes es =>
      obtain ⟨a, ha, hname⟩ := List.mem_filterMap.1 hname
      obtain ⟨e, he, rfl⟩ := List.mem_map.1 ha
      exact List.mem_flatMap.2 ⟨e, he, Argument.name?_mem_offered hname⟩

theorem Permits.arguments (h : env.Permits u) {x : String} (hx : u.offers x) :
    ∀ a ∈ env.arguments x, ∀ name ∈ a.offered, u.named name := by
  intro a ha name hname
  apply h x hx name
  unfold Env.arguments at ha
  unfold Env.offered
  cases hb : env.lookup x with
  | none =>
    rw [hb] at ha
    cases ha
  | some b =>
    rw [hb] at ha
    cases b with
    | node e =>
      obtain rfl := List.mem_singleton.1 ha
      exact hname
    | nodes es =>
      obtain ⟨e, he, rfl⟩ := List.mem_map.1 ha
      exact List.mem_flatMap.2 ⟨e, he, hname⟩

end Env

namespace Program

variable {u : Usage} (numbering : Numbering) {env : Env}

theorem runElements_offers (henv : env.Permits u) {term : Program} (h : term.Offers u)
    (hrun : Build.Yields (fun a => ∀ name ∈ a.offered, u.named name) (run numbering env term)) :
    Build.Yields (fun as => ∀ a ∈ as, ∀ name ∈ a.offered, u.named name)
      (runElements numbering env term) := by
  cases term with
  | spread name => exact Build.yields_pure (henv.arguments h)
  | _ =>
    exact Build.yields_bind hrun fun a ha => Build.yields_pure fun a' ha' =>
      List.mem_singleton.1 ha' ▸ ha

mutual

/-- What a term gives offers permitted names only. -/
theorem run_offers (henv : env.Permits u) : ∀ term : Program, term.Offers u →
    Build.Yields (fun a => ∀ name ∈ a.offered, u.named name) (run numbering env term)
  | .literal value, h => Build.yields_pure h
  | .document value, h => Build.yields_pure h
  | .list items, h => by
    refine Build.yields_bind (run_offers_items henv items h) fun as has => Build.yields_pure ?_
    intro name hname
    obtain ⟨a, ha, hname⟩ := List.mem_filterMap.1 hname
    exact has a ha name (Argument.name?_mem_offered hname)
  | .object fields, _ | .keyed fields, _ =>
    Build.yields_bind (Build.yields_true _) fun _ _ => Build.yields_pure nofun
  | .get name, h => Build.yields_pure (henv.argument h)
  | .spread name, h => by
    apply Build.yields_pure
    intro x hx
    obtain ⟨a, ha, hx⟩ := List.mem_filterMap.1 hx
    exact henv.arguments h a ha x (Argument.name?_mem_offered hx)
  | .leaf value, _ => by
    apply Build.yields_pure
    intro name hname
    cases value <;> cases hname
  | .call builder operands, _ => by
    refine Build.yields_bind (Build.yields_true _) fun operands _ => ?_
    refine Build.yields_captured ?_ nofun
    intro bound e atEnd hrun name hname
    have := builder.yields_build numbering operands bound e atEnd hrun
    simp [Argument.offered, this] at hname
  | .function parameters body, _ => Build.yields_pure nofun
  | .functionOf arity name body, _ => Build.yields_pure nofun
  | .normalize term tag, h => by
    refine Build.yields_bind (run_offers henv term h) fun a ha => Build.yields_pure ?_
    intro name hname
    cases hn : a.normalize tag with
    | ok e =>
      rw [hn] at hname
      exact ha name (Argument.offered_normalize hn hname)
    | error error =>
      rw [hn] at hname
      cases hname
  | .normalizeLambda term tag, h => by
    refine Build.yields_bind (run_offers henv term h) fun a ha => ?_
    refine Build.yields_captured ?_ nofun
    intro bound e atEnd hrun name hname
    exact ha name (a.yields_normalizeLambda numbering tag bound e atEnd hrun name hname)
  | .part .., h => h.elim
  | .fail error, _ => Build.yields_pure nofun
  | .throw message, _ => Build.yields_throw message
  | .attempt term fallback, h =>
    Build.yields_catching (run_offers henv term h.1) (run_offers henv fallback h.2)
  | .orElse term fallback, h =>
    Build.yields_replacingFailure (run_offers henv term h.1) (run_offers henv fallback h.2)

theorem run_offers_items (henv : env.Permits u) : ∀ items : List Program, OffersItems u items →
    Build.Yields (fun as => ∀ a ∈ as, ∀ name ∈ a.offered, u.named name)
      (runItems numbering env items)
  | [], _ => Build.yields_pure nofun
  | term :: rest, h => by
    rw [runItems_cons]
    have hterm := runElements_offers numbering henv h.1 (run_offers henv term h.1)
    refine Build.yields_bind hterm fun as has => ?_
    refine Build.yields_bind (run_offers_items henv rest h.2) fun as' has' => ?_
    exact Build.yields_pure fun a ha => (List.mem_append.1 ha).elim (has a) (has' a)

end

end Program

end QueryTree
