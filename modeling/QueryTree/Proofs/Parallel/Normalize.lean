import QueryTree.Proofs.Parallel

/-!
# Normalization in parallel runs

Related arguments become related nodes, in value positions, in lambda positions and where a body or
the names of a binding are taken. A binding declares the same permitted names in every run.
-/

namespace QueryTree

namespace Fields

variable {α β : Type}

theorem lookup_map (g : α → β) (name : String) (fields : List (String × α)) :
    (fields.map fun p => (p.1, g p.2)).lookup name = (fields.lookup name).map g := by
  induction fields with
  | nil => rfl
  | cons field rest ih =>
    rw [List.map_cons, lookup_cons, lookup_cons, ih]
    split <;> rfl

theorem mem_of_lookup {name : String} {value : α} {fields : List (String × α)}
    (h : fields.lookup name = some value) : (name, value) ∈ fields := by
  obtain ⟨front, back, rfl, -⟩ := List.lookup_eq_some_iff.1 h
  exact List.mem_append_right _ List.mem_cons_self

theorem not_mem_of_lookup {name : String} {fields : List (String × α)}
    (h : fields.lookup name = none) : name ∉ names fields := by
  intro hmem
  obtain ⟨p, hp, rfl⟩ := List.mem_map.1 hmem
  simpa using List.lookup_eq_none_iff.1 h p hp

theorem putSorted_map (g : α → β) (name : String) (value : α) (fields : List (String × α)) :
    putSorted name (g value) (fields.map fun p => (p.1, g p.2)) =
      (putSorted name value fields).map fun p => (p.1, g p.2) := by
  induction fields with
  | nil => rfl
  | cons field rest ih =>
    simp only [List.map_cons, putSorted]
    split
    · rfl
    · split
      · rfl
      · rw [ih, List.map_cons]

theorem sorted_map (g : α → β) (pairs : List (String × α)) :
    sorted (pairs.map fun p => (p.1, g p.2)) = (sorted pairs).map fun p => (p.1, g p.2) := by
  suffices ∀ fields : List (String × α),
      (pairs.map fun p => (p.1, g p.2)).foldl (fun fields p => putSorted p.1 p.2 fields)
        (fields.map fun p => (p.1, g p.2)) =
      (pairs.foldl (fun fields p => putSorted p.1 p.2 fields) fields).map
        fun p => (p.1, g p.2) from this []
  induction pairs with
  | nil => exact fun _ => rfl
  | cons pair rest ih =>
    intro fields
    simp only [List.map_cons, List.foldl_cons, putSorted_map, ih]

theorem mem_of_mem_putSorted {name : String} {value : α} {fields : List (String × α)}
    {p : String × α} (h : p ∈ putSorted name value fields) : p = (name, value) ∨ p ∈ fields := by
  induction fields with
  | nil => exact .inl (List.mem_singleton.1 h)
  | cons field rest ih =>
    simp only [putSorted] at h
    split at h
    · exact List.mem_cons.1 h
    · split at h
      · exact (List.mem_cons.1 h).imp id (List.mem_cons_of_mem _)
      · rcases List.mem_cons.1 h with rfl | h
        · exact .inr List.mem_cons_self
        · exact (ih h).imp id (List.mem_cons_of_mem _)

theorem mem_of_mem_sorted {pairs : List (String × α)} {p : String × α} (h : p ∈ sorted pairs) :
    p ∈ pairs := by
  suffices ∀ fields : List (String × α),
      p ∈ pairs.foldl (fun fields p => putSorted p.1 p.2 fields) fields → p ∈ fields ∨ p ∈ pairs
    from (this [] h).resolve_left (List.not_mem_nil)
  clear h
  induction pairs with
  | nil => exact fun _ h => .inl h
  | cons pair rest ih =>
    intro fields h
    rcases ih _ h with h | h
    · rcases mem_of_mem_putSorted h with rfl | h
      · exact .inr List.mem_cons_self
      · exact .inl h
    · exact .inr (List.mem_cons_of_mem _ h)

theorem Ascending.nodup {fields : List (String × α)} (h : Ascending fields) :
    (names fields).Nodup := h.imp fun hlt => String.ne_of_lt hlt

end Fields

namespace Parallel

open Argument

variable {ι : Type} {P : Parallel ι} {w : P.World} {tag : String}

theorem agree_normalizeItems (tag : String) {items : List (ι → Argument)}
    (h : ∀ a ∈ items, Agree (P.Node w) (fun i => (a i).normalize tag)) :
    Agree (Each (P.Node w) items.length) (fun i => normalizeItems tag (items.map (· i))) := by
  induction items with
  | nil => exact agree_pure (a := fun _ => []) ⟨[], rfl, rfl, nofun⟩
  | cons a rest ih =>
    simp only [List.map_cons, normalizeItems]
    apply agree_bind (h a List.mem_cons_self)
    intro e he
    apply agree_bind (ih fun a ha => h a (List.mem_cons_of_mem _ ha))
    rintro _ ⟨es, rfl, hlength, hes⟩
    refine agree_pure ⟨e :: es, rfl, by simp [hlength], ?_⟩
    intro e' he'
    rcases List.mem_cons.1 he' with rfl | he'
    · exact he
    · exact hes e' he'

/-- Related nodes under the same names in every run. -/
def FieldNodes (P : Parallel ι) (names : List String) (w : P.World)
    (fields : ι → List (String × Expr)) : Prop :=
  ∃ es : List (String × (ι → Expr)), (fields = fun i => es.map fun p => (p.1, p.2 i)) ∧
    es.map Prod.fst = names ∧ ∀ p ∈ es, P.Node w p.2

theorem agree_normalizeFields (tag : String) {fields : List (String × (ι → Argument))}
    (h : ∀ p ∈ fields, Agree (P.Node w) (fun i => (p.2 i).normalize tag)) :
    Agree (P.FieldNodes (fields.map Prod.fst) w)
      (fun i => normalizeFields tag (fields.map fun p => (p.1, p.2 i))) := by
  induction fields with
  | nil => exact agree_pure (a := fun _ => []) ⟨[], rfl, rfl, nofun⟩
  | cons field rest ih =>
    obtain ⟨name, a⟩ := field
    simp only [List.map_cons, normalizeFields]
    apply agree_bind (h (name, a) List.mem_cons_self)
    intro e he
    apply agree_bind (ih fun p hp => h p (List.mem_cons_of_mem _ hp))
    rintro _ ⟨es, rfl, hnames, hes⟩
    refine agree_pure ⟨(name, e) :: es, rfl, by simp [hnames], ?_⟩
    intro p hp
    rcases List.mem_cons.1 hp with rfl | hp
    · exact he
    · exact hes p hp

/-- In value positions related arguments become related nodes, or are all refused. -/
theorem agree_normalize {a : ι → Argument} (h : P.Related w a) (tag : String) :
    Agree (P.Node w) (fun i => (a i).normalize tag) := by
  induction h with
  | literal value => exact agree_pure (P.node_literal w value)
  | array items _ ih =>
    simp only [Argument.normalize]
    apply agree_bind (agree_normalizeItems tag ih)
    rintro _ ⟨es, rfl, -, hes⟩
    exact agree_pure (P.node_array es hes)
  | object fields _ ih =>
    simp only [Argument.normalize]
    apply agree_bind (agree_normalizeFields tag ih)
    rintro _ ⟨es, rfl, -, hes⟩
    have hsorted := fun i => Fields.sorted_map (fun e : ι → Expr => e i) es
    simp only [hsorted]
    exact agree_pure (P.node_object _ (Fields.ascending_sorted es) fun p hp =>
      hes p (Fields.mem_of_mem_sorted hp))
  | node he => exact agree_pure he
  | function _ => exact agree_error _
  | failed error => exact agree_error error

/-- The variables of a lambda that is entered in a world. -/
def handedIn (P : Parallel ι) (w : P.World) (n : Nat) : List (ι → Expr) :=
  (List.range n).map fun j i => variableNode (implicitName (P.count w i + j))

theorem map_handedIn (n : Nat) (i : ι) :
    (P.handedIn w n).map (· i) = (implicitNames (P.count w i) n).map variableNode := by
  unfold handedIn implicitNames
  rw [List.range'_eq_map_range]
  simp [Function.comp_def]

theorem handed_of_mem {n : Nat} {e : ι → Expr} (h : e ∈ P.handedIn w n) :
    P.Handed (P.enter w n) e := by
  obtain ⟨j, hj, rfl⟩ := List.mem_map.1 h
  exact ⟨P.node_handed w (List.mem_range.1 hj), fun _ => rfl⟩

/-- In lambda positions related arguments become related nodes, or all of them end alike. -/
theorem ends_normalizeLambda {a : ι → Argument} (h : P.Related w a) (tag : String) :
    P.Ends P.Node w (fun i => (a i).normalizeLambda (P.numbering i) tag) := by
  cases h with
  | function hf =>
    rename_i arity f
    cases arity with
    | zero => exact ends_stop (Build.fail _) _ fun _ => rfl
    | succ n =>
      have hbody := hf tag (P.enter w (n + 1)) (P.handedIn w (n + 1)) (P.inside_enter w _)
        (by simp [handedIn]) fun e => handed_of_mem
      have hunfold := fun i => normalizeLambda_function (P.numbering i) tag n (f i)
      simp only [hunfold]
      refine ends_binding (Nat.succ_pos n) (fun i => ?_) hbody
      rw [map_handedIn]
  | literal value => exact ends_ofExcept (agree_normalize (.literal value) tag)
  | array items h => exact ends_ofExcept (agree_normalize (.array items h) tag)
  | object fields h => exact ends_ofExcept (agree_normalize (.object fields h) tag)
  | node he => exact ends_ofExcept (agree_normalize (.node he) tag)
  | failed error => exact ends_ofExcept (agree_normalize (.failed error) tag)

/-- The same permitted names are declared in every run. -/
def Declares (P : Parallel ι) (w : P.World) (b : ι → Expr × List String) : Prop :=
  ∃ (parameters : ι → Expr) (names : List String), (b = fun i => (parameters i, names)) ∧
    P.Node w parameters ∧ (∀ name ∈ names, P.Named name) ∧
      ∃ tag, ∀ i, nodeNames tag (parameters i) = .ok names

theorem nodeNames_strings (tag : String) (names : List String) :
    nodeNames tag (.array (names.map Expr.string)) = .ok names := by
  simp only [nodeNames]
  induction names with
  | nil => rfl
  | cons name rest ih =>
    rw [List.map_cons, List.mapM_cons, ih]
    rfl

theorem nodeNames_parameterNode (tag : String) (names : List String) :
    nodeNames tag (parameterNode names) = .ok names := by
  match names with
  | [] => rfl
  | [name] => rfl
  | name :: other :: rest => exact nodeNames_strings tag (name :: other :: rest)

variable [Nonempty ι]

theorem agree_declaredName {a : ι → Argument} (h : P.Related w a) (tag : String) :
    Agree (fun names => ∃ name, names = fun _ => name) (fun i => declaredName tag (a i)) := by
  cases h with
  | literal value =>
    cases value with
    | string name => exact agree_pure ⟨name, rfl⟩
    | _ => exact agree_error _
  | node he =>
    rename_i e
    obtain ⟨i₀⟩ := ‹Nonempty ι›
    have hstring := fun i => P.string_eq he i i₀
    simp only [declaredName, hstring]
    cases (e i₀).string? with
    | some name => exact agree_pure ⟨name, rfl⟩
    | none => exact agree_error _
  | array items h => exact agree_error (.invalidBinding tag "array")
  | object fields h => exact agree_error (.invalidBinding tag "object")
  | function hf => exact agree_error (.invalidBinding tag "function")
  | failed error => exact agree_error error

theorem agree_declaredNames {items : List (ι → Argument)} (h : ∀ a ∈ items, P.Related w a)
    (tag : String) : Agree (fun names => ∃ ns : List String, names = fun _ => ns)
      (fun i => (items.map (· i)).mapM (declaredName tag)) := by
  induction items with
  | nil => exact agree_pure (a := fun _ => []) ⟨[], rfl⟩
  | cons a rest ih =>
    simp only [List.map_cons, List.mapM_cons]
    apply agree_bind (agree_declaredName (h a List.mem_cons_self) tag)
    rintro _ ⟨name, rfl⟩
    apply agree_bind (ih fun a ha => h a (List.mem_cons_of_mem _ ha))
    rintro _ ⟨names, rfl⟩
    exact agree_pure ⟨name :: names, rfl⟩

/-- Related arguments declare the same names, which are permitted if all that is offered is. -/
theorem agree_bindingNames {a : ι → Argument} (h : P.Related w a)
    (hoffered : ∀ i, ∀ name ∈ (a i).offered, P.Named name) (tag : String) :
    Agree (P.Declares w) (fun i => (a i).bindingNames tag) := by
  obtain ⟨i₀⟩ := ‹Nonempty ι›
  have permitted : ∀ {parameters names}, (a i₀).bindingNames tag = .ok (parameters, names) →
      ∀ name ∈ names, P.Named name :=
    fun hok name hname => hoffered i₀ name (offered_bindingNames hok hname)
  cases h with
  | literal value =>
    cases value with
    | string name =>
      exact agree_pure ⟨_, _, rfl, P.node_literal w _, permitted rfl, tag, fun _ => rfl⟩
    | _ => exact agree_error _
  | array items h =>
    have hitems := agree_declaredNames h tag
    rcases hitems with ⟨_, ⟨names, rfl⟩, hok⟩ | ⟨error, herror⟩
    · have hbinding : ∀ i, bindingNames tag (.array (items.map (· i))) =
          .ok (.array (names.map Expr.string), names) := by
        intro i
        simp only [bindingNames, hok]
        rfl
      refine .inl ⟨_, ⟨_, names, rfl, ?_, permitted (hbinding i₀), tag, ?_⟩, hbinding⟩
      · have hstrings := P.node_array (w := w) (names.map fun name _ => Expr.string name) ?_
        · simpa [Function.comp_def] using hstrings
        · intro e he
          obtain ⟨name, -, rfl⟩ := List.mem_map.1 he
          exact P.node_literal w (.string name)
      · exact fun _ => nodeNames_strings tag names
    · refine .inr ⟨error, fun i => ?_⟩
      simp only [bindingNames, herror]
      rfl
  | node he =>
    rename_i e
    have hnames := fun i => P.names_eq he tag i i₀
    cases hn : nodeNames tag (e i₀) with
    | ok names =>
      have hbinding : ∀ i, bindingNames tag (.node (e i)) = .ok (e i, names) := by
        intro i
        simp only [bindingNames, hnames i, hn]
        rfl
      exact .inl ⟨_, ⟨e, names, rfl, he, permitted (hbinding i₀), tag, fun i =>
        (hnames i).trans hn⟩, hbinding⟩
    | error error =>
      refine .inr ⟨error, fun i => ?_⟩
      simp only [bindingNames, hnames i, hn]
      rfl
  | object fields h => exact agree_error (.invalidBinding tag "object")
  | function hf => exact agree_error (.invalidBinding tag "function")
  | failed error => exact agree_error error

omit [Nonempty ι] in
/-- Related bodies under the same declared names become related nodes, or all end alike. -/
theorem ends_normalizeBody {a : ι → Argument} (h : P.Related w a) {names : List String}
    (hnames : ∀ name ∈ names, P.Named name) (tag : String) :
    P.Ends P.Node w (fun i => normalizeBody (P.numbering i) tag names (a i)) := by
  cases h with
  | function hf =>
    rename_i arity f
    simp only [normalizeBody]
    by_cases harity : arity = names.length
    · simp only [if_pos harity]
      have hbody := hf tag w (names.map fun name _ => variableNode name)
        (P.inside_of_later (P.later_refl w)) (by simp [harity]) ?_
      · simpa [Function.comp_def] using hbody
      · intro e he
        obtain ⟨name, hname, rfl⟩ := List.mem_map.1 he
        refine ⟨P.node_leaf w (.variable name) ?_, fun _ => rfl⟩
        intro name' hname'
        cases hname'
        exact hnames name hname
    · simp only [if_neg harity]
      exact ends_stop (Build.fail _) _ fun _ => rfl
  | literal value => exact ends_ofExcept (agree_normalize (.literal value) tag)
  | array items h => exact ends_ofExcept (agree_normalize (.array items h) tag)
  | object fields h => exact ends_ofExcept (agree_normalize (.object fields h) tag)
  | node he => exact ends_ofExcept (agree_normalize (.node he) tag)
  | failed error => exact ends_ofExcept (agree_normalize (.failed error) tag)

end Parallel

end QueryTree
