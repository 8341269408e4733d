import QueryTree.Proofs.Failing

/-!
# Keyed containers

An object literal holds the last value of each name, in the order of the names. So it does not
matter how pairs with different names are interleaved, or in which order a map lists them. It
matters for failures: a pair whose value is replaced later is normalized with a list of pairs, and
never enters a map.
-/

namespace QueryTree

namespace Fields

variable {α : Type}

/-! ## Last values -/

theorem last?_cons (name : String) (pair : String × α) (rest : List (String × α)) :
    last? name (pair :: rest) =
      (last? name rest).or (if pair.1 = name then some pair.2 else none) := by
  suffices ∀ found : Option α,
      rest.foldl (fun found p => if p.1 = name then some p.2 else found) found =
        (last? name rest).or found from this _
  induction rest with
  | nil => exact fun _ => rfl
  | cons next rest ih =>
    intro found
    simp only [last?, List.foldl_cons] at ih ⊢
    rw [ih, ih (if next.1 = name then some next.2 else none), Option.or_assoc]
    split <;> rfl

/-- The last value of a name depends on the pairs with this name only. -/
theorem last?_filter (name : String) (pairs : List (String × α)) :
    last? name (pairs.filter fun p => p.1 == name) = last? name pairs := by
  induction pairs with
  | nil => rfl
  | cons pair rest ih =>
    rw [List.filter_cons, last?_cons name pair rest]
    by_cases hname : pair.1 = name
    · rw [if_pos (beq_iff_eq.2 hname), last?_cons, ih]
    · rw [if_neg (by simpa using hname), ih, if_neg hname, Option.or_none]

theorem mem_of_last? {name : String} {pairs : List (String × α)} {value : α}
    (h : last? name pairs = some value) : (name, value) ∈ pairs := by
  rw [← lookup_sorted] at h
  exact mem_of_mem_sorted (mem_of_lookup h)

/-- Where a name stands once, its last value is the only one. -/
theorem last?_eq_lookup {pairs : List (String × α)} (h : (names pairs).Nodup) (name : String) :
    last? name pairs = pairs.lookup name := by
  induction pairs with
  | nil => rfl
  | cons pair rest ih =>
    obtain ⟨n, value⟩ := pair
    obtain ⟨hfresh, hrest⟩ := List.nodup_cons.1 h
    rw [last?_cons, lookup_cons, ih hrest]
    split
    · rename_i hname
      subst hname
      cases hlookup : rest.lookup n with
      | none => rfl
      | some other => exact absurd (List.mem_map_of_mem (mem_of_lookup hlookup)) hfresh
    · exact Option.or_none

theorem lookup_of_mem {pairs : List (String × α)} (h : (names pairs).Nodup) {p : String × α}
    (hp : p ∈ pairs) : pairs.lookup p.1 = some p.2 := by
  cases hlookup : pairs.lookup p.1 with
  | none => exact absurd (List.mem_map_of_mem hp) (not_mem_of_lookup hlookup)
  | some value =>
    exact congrArg (some ·.2) (List.inj_on_of_nodup_map h (mem_of_lookup hlookup) hp rfl)

/-! ## Sorted pairs -/

theorem mem_names_sorted (name : String) (pairs : List (String × α)) :
    name ∈ names (sorted pairs) ↔ name ∈ names pairs := by
  suffices ∀ fields : List (String × α),
      name ∈ names (pairs.foldl (fun fields p => putSorted p.1 p.2 fields) fields) ↔
        name ∈ names fields ∨ name ∈ names pairs from
    (this []).trans (or_iff_right List.not_mem_nil)
  induction pairs with
  | nil => simp [names]
  | cons pair rest ih =>
    intro fields
    have hnames : name ∈ names (pair :: rest) ↔ name = pair.1 ∨ name ∈ names rest := List.mem_cons
    rw [List.foldl_cons, ih, mem_names_putSorted, hnames]
    exact or_assoc.trans or_left_comm

theorem mem_sorted_iff {pairs : List (String × α)} {name : String} {value : α} :
    (name, value) ∈ sorted pairs ↔ last? name pairs = some value := by
  rw [← lookup_sorted]
  exact ⟨lookup_of_mem (ascending_sorted pairs).nodup, mem_of_lookup⟩

theorem last?_sorted (name : String) (pairs : List (String × α)) :
    last? name (sorted pairs) = last? name pairs := by
  rw [last?_eq_lookup (ascending_sorted pairs).nodup, lookup_sorted]

/-- Pairs in ascending order are known from the values of their names. -/
theorem Ascending.ext {fields others : List (String × α)} (h : Ascending fields)
    (hothers : Ascending others) (hlookup : ∀ name, fields.lookup name = others.lookup name) :
    fields = others := by
  have hmem : ∀ p, p ∈ fields ↔ p ∈ others := fun p =>
    ⟨fun hp => mem_of_lookup ((hlookup p.1).symm.trans (lookup_of_mem h.nodup hp)),
      fun hp => mem_of_lookup ((hlookup p.1).trans (lookup_of_mem hothers.nodup hp))⟩
  have hperm : fields.Perm others :=
    (List.perm_ext_iff_of_nodup h.nodup.of_map hothers.nodup.of_map).2 hmem
  have hpairs : ∀ {pairs : List (String × α)}, Ascending pairs →
      pairs.Pairwise fun p q => p.1 < q.1 := fun hpairs => List.pairwise_map.1 hpairs
  exact hperm.eq_of_pairwise (fun p q _ _ hpq hqp => absurd hqp (String.lt_asymm hpq))
    (hpairs h) (hpairs hothers)

theorem sorted_congr {pairs others : List (String × α)}
    (h : ∀ name, last? name pairs = last? name others) : sorted pairs = sorted others := by
  apply (ascending_sorted pairs).ext (ascending_sorted others)
  intro name
  rw [lookup_sorted, lookup_sorted, h]

/-- The entries of a map that is made of the pairs, in any order. -/
structure Mapped (pairs entries : List (String × α)) : Prop where
  nodup : (names entries).Nodup
  lookup : ∀ name, entries.lookup name = last? name pairs

theorem mapped_sorted (pairs : List (String × α)) : Mapped pairs (sorted pairs) :=
  ⟨(ascending_sorted pairs).nodup, fun name => lookup_sorted name pairs⟩

theorem Mapped.mem {pairs entries : List (String × α)} (h : Mapped pairs entries)
    {p : String × α} (hp : p ∈ entries) : p ∈ pairs :=
  mem_of_last? ((h.lookup p.1).symm.trans (lookup_of_mem h.nodup hp))

end Fields

namespace Argument

/-! ## Lists of arguments -/

section

variable {α β : Type}

theorem map_ok_iff {x : Except BuildError α} {g : α → β} :
    (∃ b, (do return g (← x)) = Except.ok (ε := BuildError) b) ↔ ∃ a, x = .ok a := by
  constructor
  · rintro ⟨b, h⟩
    obtain ⟨a, ha, -⟩ := bind_ok h
    exact ⟨a, ha⟩
  · rintro ⟨a, rfl⟩
    exact ⟨g a, rfl⟩

theorem map_error_iff {x : Except BuildError α} {g : α → β} {error : BuildError} :
    (do return g (← x)) = Except.error error ↔ x = .error error := by
  constructor
  · intro h
    rcases bind_error h with hx | ⟨a, -, h⟩
    · exact hx
    · cases h
  · rintro rfl
    rfl

variable {f : α → Except BuildError β} {as : List α}

theorem mapM_ok_iff {bs : List β} :
    as.mapM f = .ok bs ↔ List.Forall₂ (fun a b => f a = .ok b) as bs := by
  induction as generalizing bs with
  | nil =>
    rw [List.forall₂_nil_left_iff, List.mapM_nil]
    exact ⟨fun h => (Except.ok.inj h).symm, fun h => h ▸ rfl⟩
  | cons a rest ih =>
    rw [List.mapM_cons, List.forall₂_cons_left_iff]
    constructor
    · intro h
      obtain ⟨b, hb, h⟩ := bind_ok h
      obtain ⟨bs', hrest, h⟩ := bind_ok h
      cases h
      exact ⟨b, bs', hb, ih.1 hrest, rfl⟩
    · rintro ⟨b, bs', hb, hrest, rfl⟩
      rw [hb, ih.2 hrest]
      rfl

/-- The first element that fails decides the error. -/
theorem mapM_error_iff {error : BuildError} :
    as.mapM f = .error error ↔ ∃ before a after, as = before ++ a :: after ∧
      (∀ b ∈ before, ∃ c, f b = .ok c) ∧ f a = .error error := by
  induction as with
  | nil => simp [List.mapM_nil, pure, Except.pure]
  | cons a rest ih =>
    rw [List.mapM_cons]
    constructor
    · intro h
      rcases bind_error h with ha | ⟨b, ha, h⟩
      · exact ⟨[], a, rest, rfl, List.forall_mem_nil _, ha⟩
      · rcases bind_error h with hrest | ⟨bs, -, h⟩
        · obtain ⟨before, a', after, rfl, hbefore, ha'⟩ := ih.1 hrest
          exact ⟨a :: before, a', after, rfl, List.forall_mem_cons.2 ⟨⟨b, ha⟩, hbefore⟩, ha'⟩
        · cases h
    · rintro ⟨before, a', after, hsplit, hbefore, ha'⟩
      cases before with
      | nil =>
        cases hsplit
        rw [ha']
        rfl
      | cons first before =>
        cases hsplit
        obtain ⟨⟨b, hb⟩, hrest⟩ := List.forall_mem_cons.1 hbefore
        rw [hb, ih.2 ⟨before, a', after, rfl, hrest, ha'⟩]
        rfl

end

/-! ## Pairs -/

variable {tag : String}

/-- The pairs keep their names, and each value has its own node. -/
theorem normalizeFields_ok_iff {pairs : List (String × Argument)}
    {nodes : List (String × Expr)} : normalizeFields tag pairs = .ok nodes ↔
      List.Forall₂ (fun p q => p.1 = q.1 ∧ p.2.normalize tag = .ok q.2) pairs nodes := by
  rw [normalizeFields_eq_mapM, mapM_ok_iff]
  have hpair : ∀ (p : String × Argument) (q : String × Expr),
      (do return (p.1, ← p.2.normalize tag)) = Except.ok (ε := BuildError) q ↔
        p.1 = q.1 ∧ p.2.normalize tag = .ok q.2 := by
    rintro ⟨name, a⟩ ⟨name', e⟩
    constructor
    · intro h
      obtain ⟨e, he, h⟩ := bind_ok h
      cases h
      exact ⟨rfl, he⟩
    · rintro ⟨rfl, he⟩
      exact congrArg (· >>= fun e => pure (name, e)) he
  simp only [hpair]

theorem normalizeFields_error_iff {pairs : List (String × Argument)} {error : BuildError} :
    normalizeFields tag pairs = .error error ↔ ∃ before p after, pairs = before ++ p :: after ∧
      (∀ q ∈ before, ∃ e, q.2.normalize tag = .ok e) ∧ p.2.normalize tag = .error error := by
  rw [normalizeFields_eq_mapM, mapM_error_iff]
  simp only [map_ok_iff, map_error_iff]

theorem normalize_object_error_iff {pairs : List (String × Argument)} {error : BuildError} :
    (Argument.object pairs).normalize tag = .error error ↔
      normalizeFields tag pairs = .error error := by
  rw [normalize]
  exact map_error_iff

/-- The last value of a name becomes the last node of this name. -/
theorem last?_nodes {pairs : List (String × Argument)} {nodes : List (String × Expr)}
    (h : normalizeFields tag pairs = .ok nodes) (name : String) :
    (Fields.last? name nodes).map Except.ok = (Fields.last? name pairs).map (normalize tag) := by
  rw [normalizeFields_ok_iff] at h
  induction h with
  | nil => rfl
  | @cons p q pairs nodes hpq _ ih =>
    obtain ⟨hname, hnode⟩ := hpq
    rw [Fields.last?_cons, Fields.last?_cons, Option.map_or, Option.map_or, ih, hname]
    congr 1
    split
    · exact congrArg some hnode.symm
    · rfl

theorem normalize_key {fields : List (String × Argument)} {nodes : List (String × Expr)}
    (h : normalizeFields tag fields = .ok nodes) {name : String} {a : Argument}
    (ha : Fields.last? name fields = some a) :
    ∃ e, (Fields.sorted nodes).lookup name = some e ∧ a.normalize tag = .ok e := by
  have hnode := last?_nodes h name
  rw [ha, Option.map_some] at hnode
  obtain ⟨e, he, hok⟩ := Option.map_eq_some_iff.1 hnode
  exact ⟨e, (Fields.lookup_sorted name nodes).trans he, hok.symm⟩

theorem normalize_object_of_forall {pairs : List (String × Argument)}
    (h : ∀ p ∈ pairs, ∃ e, p.2.normalize tag = .ok e) :
    ∃ nodes, normalizeFields tag pairs = .ok nodes ∧
      (Argument.object pairs).normalize tag = .ok (.object (Fields.sorted nodes)) := by
  cases hnodes : normalizeFields tag pairs with
  | ok nodes =>
    refine ⟨nodes, rfl, ?_⟩
    rw [normalize, hnodes]
    rfl
  | error error =>
    obtain ⟨before, p, after, rfl, -, herror⟩ := normalizeFields_error_iff.1 hnodes
    obtain ⟨e, hok⟩ := h p (List.mem_append_right _ List.mem_cons_self)
    cases hok.symm.trans herror

/-- An object literal is known from the last values of its names. -/
theorem normalize_object_congr {pairs others : List (String × Argument)}
    (h : ∀ p ∈ pairs, ∃ e, p.2.normalize tag = .ok e)
    (hothers : ∀ p ∈ others, p ∈ pairs)
    (hlast : ∀ name, Fields.last? name others = Fields.last? name pairs) :
    (Argument.object others).normalize tag = (Argument.object pairs).normalize tag := by
  obtain ⟨nodes, hnodes, hpairs⟩ := normalize_object_of_forall h
  obtain ⟨nodes', hnodes', hobject⟩ :=
    normalize_object_of_forall fun p hp => h p (hothers p hp)
  have hsorted : Fields.sorted nodes' = Fields.sorted nodes := by
    apply Fields.sorted_congr
    intro name
    apply Option.map_injective (fun _ _ => Except.ok.inj (ε := BuildError))
    rw [last?_nodes hnodes', last?_nodes hnodes, hlast]
  rw [hpairs, hobject, hsorted]

/-! ## The order of pairs -/

/-- A map drops the values that are replaced before any value is normalized, and lists the others in
the order of their names. -/
theorem normalize_sorted_error_iff {pairs : List (String × Argument)} {error : BuildError} :
    (Argument.object (Fields.sorted pairs)).normalize tag = .error error ↔
      ∃ name a, Fields.last? name pairs = some a ∧ a.normalize tag = .error error ∧
        ∀ earlier b, earlier < name → Fields.last? earlier pairs = some b →
          ∃ e, b.normalize tag = .ok e := by
  have hascending : (Fields.sorted pairs).Pairwise fun p q => p.1 < q.1 :=
    List.pairwise_map.1 (Fields.ascending_sorted pairs)
  rw [normalize_object_error_iff, normalizeFields_error_iff]
  constructor
  · rintro ⟨before, ⟨name, a⟩, after, hsplit, hbefore, herror⟩
    have hmem : (name, a) ∈ Fields.sorted pairs := by simp [hsplit]
    refine ⟨name, a, Fields.mem_sorted_iff.1 hmem, herror, ?_⟩
    intro earlier b hlt hlast
    have hearlier : (earlier, b) ∈ Fields.sorted pairs := Fields.mem_sorted_iff.2 hlast
    rw [hsplit] at hearlier hascending
    rcases List.mem_append.1 hearlier with hearlier | hearlier
    · exact hbefore _ hearlier
    · -- What stands from the failing entry on has no smaller name.
      rcases List.mem_cons.1 hearlier with heq | hlater
      · cases heq
        exact absurd hlt (String.lt_irrefl name)
      · have hgt := (List.pairwise_cons.1 (List.pairwise_append.1 hascending).2.1).1 _ hlater
        exact absurd hlt (String.lt_asymm hgt)
  · rintro ⟨name, a, hlast, herror, hearlier⟩
    obtain ⟨before, after, hsplit⟩ := List.append_of_mem (Fields.mem_sorted_iff.2 hlast)
    refine ⟨before, (name, a), after, hsplit, ?_, herror⟩
    intro q hq
    have hmem : q ∈ Fields.sorted pairs := by simp [hsplit, hq]
    rw [hsplit] at hascending
    have hlt := (List.pairwise_append.1 hascending).2.2 q hq _ List.mem_cons_self
    exact hearlier q.1 q.2 hlt (Fields.mem_sorted_iff.1 hmem)

theorem normalize_sorted_fails_iff {pairs : List (String × Argument)} :
    (∃ error, (Argument.object (Fields.sorted pairs)).normalize tag = .error error) ↔
      ∃ name a error, Fields.last? name pairs = some a ∧ a.normalize tag = .error error := by
  constructor
  · rintro ⟨error, h⟩
    obtain ⟨name, a, hlast, herror, -⟩ := normalize_sorted_error_iff.1 h
    exact ⟨name, a, error, hlast, herror⟩
  · rintro ⟨name, a, error, hlast, herror⟩
    cases hresult : (Argument.object (Fields.sorted pairs)).normalize tag with
    | error error => exact ⟨error, rfl⟩
    | ok e =>
      obtain ⟨nodes, hnodes, -⟩ := normalize_object_ok hresult
      have hnode := last?_nodes hnodes name
      rw [Fields.last?_sorted, hlast, Option.map_some, herror] at hnode
      cases hfound : Fields.last? name nodes <;> simp [hfound] at hnode

section

variable {pairs : List (String × Argument)} (h : ∀ p ∈ pairs, ∃ e, p.2.normalize tag = .ok e)

include h

theorem normalize_object_fields :
    ∃ fields, (Argument.object pairs).normalize tag = .ok (.object fields) ∧
      Fields.Ascending fields ∧
      (∀ name, name ∈ Fields.names fields ↔ name ∈ Fields.names pairs) ∧
      ∀ name a, Fields.last? name pairs = some a →
        ∃ e, fields.lookup name = some e ∧ a.normalize tag = .ok e := by
  obtain ⟨nodes, hnodes, hobject⟩ := normalize_object_of_forall h
  refine ⟨Fields.sorted nodes, hobject, Fields.ascending_sorted nodes, ?_, ?_⟩
  · intro name
    rw [Fields.mem_names_sorted, Fields.names, names_normalizeFields tag hnodes]
  · intro name a hlast
    exact normalize_key hnodes hlast

theorem normalize_reordered {others : List (String × Argument)}
    (hothers : ∀ name,
      others.filter (fun p => p.1 == name) = pairs.filter (fun p => p.1 == name)) :
    (Argument.object others).normalize tag = (Argument.object pairs).normalize tag := by
  apply normalize_object_congr h
  · intro p hp
    have hfilter : p ∈ others.filter fun q => q.1 == p.1 :=
      List.mem_filter.2 ⟨hp, beq_self_eq_true p.1⟩
    rw [hothers] at hfilter
    exact (List.mem_filter.1 hfilter).1
  · intro name
    rw [← Fields.last?_filter, hothers, Fields.last?_filter]

theorem normalize_mapped {entries : List (String × Argument)}
    (hentries : Fields.Mapped pairs entries) :
    (Argument.object entries).normalize tag = (Argument.object pairs).normalize tag := by
  apply normalize_object_congr h
  · exact fun p hp => hentries.mem hp
  · exact fun name => (Fields.last?_eq_lookup hentries.nodup name).trans (hentries.lookup name)

end

/-- The object literal of pairs that all have nodes holds each of their names once, ascending by
code points, with the node of the last pair of the name. So it stays the same if the pairs are
rearranged but for those of one name, and if they are collected in a map first, whatever order the
map lists its entries in. A list of pairs fails with its first value that fails, replaced or not. A
sorted map fails if and only if a value that is not replaced does, with the first one by name. -/
theorem keyed_order_independent (tag : String) (pairs : List (String × Argument)) :
    ((∀ p ∈ pairs, ∃ e, p.2.normalize tag = .ok e) →
      (∃ fields, (Argument.object pairs).normalize tag = .ok (.object fields) ∧
        Fields.Ascending fields ∧
        (∀ name, name ∈ Fields.names fields ↔ name ∈ Fields.names pairs) ∧
        ∀ name a, Fields.last? name pairs = some a →
          ∃ e, fields.lookup name = some e ∧ a.normalize tag = .ok e) ∧
      (∀ others : List (String × Argument),
        (∀ name, others.filter (fun p => p.1 == name) = pairs.filter (fun p => p.1 == name)) →
        (Argument.object others).normalize tag = (Argument.object pairs).normalize tag) ∧
      (Argument.object (Fields.sorted pairs)).normalize tag =
        (Argument.object pairs).normalize tag ∧
      ∀ entries, Fields.Mapped pairs entries →
        (Argument.object entries).normalize tag = (Argument.object pairs).normalize tag) ∧
    (∀ error, (Argument.object pairs).normalize tag = .error error ↔
      ∃ before p after, pairs = before ++ p :: after ∧
        (∀ q ∈ before, ∃ e, q.2.normalize tag = .ok e) ∧ p.2.normalize tag = .error error) ∧
    ((∃ error, (Argument.object (Fields.sorted pairs)).normalize tag = .error error) ↔
      ∃ name a error, Fields.last? name pairs = some a ∧ a.normalize tag = .error error) ∧
    ∀ error, (Argument.object (Fields.sorted pairs)).normalize tag = .error error ↔
      ∃ name a, Fields.last? name pairs = some a ∧ a.normalize tag = .error error ∧
        ∀ earlier b, earlier < name → Fields.last? earlier pairs = some b →
          ∃ e, b.normalize tag = .ok e := by
  refine ⟨?_, ?_, normalize_sorted_fails_iff, fun error => normalize_sorted_error_iff⟩
  · intro h
    exact ⟨normalize_object_fields h, fun others => normalize_reordered h,
      normalize_mapped h (Fields.mapped_sorted pairs), fun entries => normalize_mapped h⟩
  · intro error
    exact normalize_object_error_iff.trans normalizeFields_error_iff

/-- One list in two orders and a map of it; and a list that fails with a value that is replaced, where
the map fails with another one. -/
theorem rearranged_keyed :
    let x : Argument := .node (variableNode "x")
    let pairs : List (String × Argument) := [("b", .null), ("é", .array [x]), ("a", x), ("b", x)]
    let others : List (String × Argument) := [("a", x), ("b", .null), ("é", .array [x]), ("b", x)]
    let entries : List (String × Argument) := [("é", .array [x]), ("b", x), ("a", x)]
    let throwing : Argument := .function 1 fun _ bound => .error (.thrown "late") bound
    let missing : BuildError := .arity "add" 1 0
    let failing : List (String × Argument) :=
      [("c", .failed missing), ("b", throwing), ("a", .null), ("c", .failed (.emptyLambda "map"))]
    (∃ fields, (Argument.object pairs).normalize "create" = .ok (.object fields) ∧
      Fields.Ascending fields ∧ fields.lookup "b" = some (variableNode "x")) ∧
    (Argument.object others).normalize "create" = (Argument.object pairs).normalize "create" ∧
    (Argument.object entries).normalize "create" = (Argument.object pairs).normalize "create" ∧
    (Argument.object failing).normalize "create" = .error missing ∧
    (Argument.object (Fields.sorted failing)).normalize "create" =
      .error (.functionNotAllowed "create") := by
  intro x pairs others entries throwing missing failing
  have hok : ∀ p ∈ pairs, ∃ e, p.2.normalize "create" = .ok e := by
    simp only [pairs, List.forall_mem_cons]
    exact ⟨⟨_, rfl⟩, ⟨_, rfl⟩, ⟨_, rfl⟩, ⟨_, rfl⟩, List.forall_mem_nil _⟩
  have hothers : ∀ name,
      others.filter (fun p => p.1 == name) = pairs.filter (fun p => p.1 == name) := by
    intro name
    by_cases ha : "a" = name
    · subst ha
      simp [others, pairs]
    · by_cases hb : "b" = name <;> simp [others, pairs, List.filter_cons, ha, hb]
  have hentries : Fields.Mapped pairs entries := by
    refine ⟨by simp [entries], fun name => ?_⟩
    simp only [entries, pairs, Fields.lookup_cons, Fields.last?_cons]
    by_cases ha : "a" = name
    · subst ha
      simp [Fields.last?]
    · by_cases hb : "b" = name
      · subst hb
        simp [Fields.last?]
      · simp [Fields.last?, ha, hb]
  obtain ⟨hpairs, -⟩ := keyed_order_independent "create" pairs
  obtain ⟨⟨fields, hobject, hascending, -, hlast⟩, hreordered, -, hmapped⟩ := hpairs hok
  obtain ⟨-, hlist, -, hmap⟩ := keyed_order_independent "create" failing
  refine ⟨⟨fields, hobject, hascending, ?_⟩, hreordered others hothers, hmapped entries hentries,
    ?_, ?_⟩
  · obtain ⟨e, hlookup, he⟩ := hlast "b" x (by simp [pairs, Fields.last?])
    cases he
    exact hlookup
  · exact (hlist missing).2 ⟨[], _, _, rfl, List.forall_mem_nil _, rfl⟩
  · refine (hmap _).2 ⟨"b", throwing, by simp [failing, Fields.last?], rfl, ?_⟩
    intro earlier b hlt hearlier
    have hmem := Fields.mem_of_last? hearlier
    simp only [failing, List.mem_cons, Prod.mk.injEq, List.not_mem_nil, or_false] at hmem
    rcases hmem with ⟨rfl, rfl⟩ | ⟨rfl, rfl⟩ | ⟨rfl, rfl⟩ | ⟨rfl, rfl⟩
    · exact absurd hlt (by decide)
    · exact absurd hlt (by decide)
    · exact ⟨_, rfl⟩
    · exact absurd hlt (by decide)

end Argument

end QueryTree
