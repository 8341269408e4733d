import QueryTree.Proofs.Consumption

/-!
# Names of objects

In a document that is read each object has each name once, however often the text repeats a name.
-/

namespace QueryTree

namespace Fields

variable {α : Type}

theorem mem_names_put (name other : String) (value : α) (fields : List (String × α)) :
    other ∈ names (put name value fields) ↔ other = name ∨ other ∈ names fields := by
  induction fields with
  | nil => simp [put, names]
  | cons field rest ih =>
    obtain ⟨n, v⟩ := field
    rw [put]
    split
    · rename_i hname
      simp [names, hname]
    · simp only [names, List.map_cons, List.mem_cons] at ih ⊢
      rw [ih]
      exact or_left_comm

theorem nodup_put {fields : List (String × α)} (h : (names fields).Nodup) (name : String)
    (value : α) : (names (put name value fields)).Nodup := by
  induction fields with
  | nil => exact List.nodup_cons.2 ⟨List.not_mem_nil, .nil⟩
  | cons field rest ih =>
    obtain ⟨n, v⟩ := field
    obtain ⟨hfresh, hrest⟩ := List.nodup_cons.1 h
    rw [put]
    split
    · exact h
    · rename_i hname
      refine List.nodup_cons.2 ⟨fun hmem => ?_, ih hrest⟩
      rcases (mem_names_put name n value rest).1 hmem with heq | hmem
      · exact hname heq
      · exact hfresh hmem

theorem mem_of_mem_put {name : String} {value : α} {fields : List (String × α)} {p : String × α}
    (h : p ∈ put name value fields) : p.2 = value ∨ p ∈ fields := by
  induction fields with
  | nil => exact .inl (congrArg Prod.snd (List.mem_singleton.1 h))
  | cons field rest ih =>
    obtain ⟨n, v⟩ := field
    rw [put] at h
    split at h
    · rcases List.mem_cons.1 h with rfl | hrest
      · exact .inl rfl
      · exact .inr (List.mem_cons_of_mem _ hrest)
    · rcases List.mem_cons.1 h with rfl | hrest
      · exact .inr List.mem_cons_self
      · exact (ih hrest).imp id (List.mem_cons_of_mem _)

/-- In arrival order each name stands once, with a value of some pair. -/
theorem arrival_spec {Q : α → Prop} {pairs : List (String × α)} (h : ∀ p ∈ pairs, Q p.2) :
    (names (arrival pairs)).Nodup ∧ ∀ p ∈ arrival pairs, Q p.2 := by
  suffices ∀ fields : List (String × α), (names fields).Nodup → (∀ p ∈ fields, Q p.2) →
      (names (pairs.foldl (fun fields p => put p.1 p.2 fields) fields)).Nodup ∧
        ∀ p ∈ pairs.foldl (fun fields p => put p.1 p.2 fields) fields, Q p.2 from
    this [] .nil (List.forall_mem_nil _)
  induction pairs with
  | nil => exact fun _ hnodup hfields => ⟨hnodup, hfields⟩
  | cons pair rest ih =>
    obtain ⟨hpair, hrest⟩ := List.forall_mem_cons.1 h
    intro fields hnodup hfields
    refine ih hrest _ (nodup_put hnodup pair.1 pair.2) fun p hp => ?_
    rcases mem_of_mem_put hp with hvalue | hmem
    · exact hvalue ▸ hpair
    · exact hfields p hmem

end Fields

namespace Document

/-- Each object has each name once. -/
inductive Keyed : Document → Prop
  | null : Keyed .null
  | bool (b : Bool) : Keyed (.bool b)
  | integer (n : Int) : Keyed (.integer n)
  | float (x : Binary64) : Keyed (.float x)
  | string (s : String) : Keyed (.string s)
  | array {items : List Document} : (∀ d ∈ items, Keyed d) → Keyed (.array items)
  | object {fields : List (String × Document)} : (Fields.names fields).Nodup →
      (∀ p ∈ fields, Keyed p.2) → Keyed (.object fields)

theorem Keyed.of_scalar {d : Document} (h : d.Scalar) : d.Keyed := by
  cases d with
  | array _ => exact h.elim
  | object _ => exact h.elim
  | null => exact .null
  | bool b => exact .bool b
  | integer n => exact .integer n
  | float x => exact .float x
  | string s => exact .string s

theorem Each.forall_mem {α : Type} {Q : α → Prop} {as : List α} {n : Nat}
    (h : Each (fun a _ => Q a) as n) : ∀ a ∈ as, Q a := by
  induction h with
  | nil => exact List.forall_mem_nil Q
  | cons ha _ ih => exact List.forall_mem_cons.2 ⟨ha, ih⟩

theorem composed_keyed : Composed fun d _ => d.Keyed where
  scalar := Keyed.of_scalar
  array h := .array h.forall_mem
  object {pairs _} h := by
    obtain ⟨hnodup, hvalues⟩ := Fields.arrival_spec (Q := Keyed) h.forall_mem
    exact .object hnodup hvalues

/-- In a document that is read each object has each name once. -/
theorem keyed_of_parse {text : String} {d : Document} (h : parse text = .ok d) : d.Keyed := by
  obtain ⟨_, hkeyed, _⟩ := composed_keyed.of_parse h
  exact hkeyed

end Document

end QueryTree
