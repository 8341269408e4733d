/-!
# Named fields

A list of name/value pairs is kept under one of two disciplines. In arrival order a repeated name
keeps its first place and takes its last value. In sorted order the names ascend by code point and
each stands once, again with its last value.
-/

namespace QueryTree.Fields

variable {α : Type _}

/-- A new name goes to the end; a known one keeps its place and takes the new value. -/
def put (name : String) (value : α) : List (String × α) → List (String × α)
  | [] => [(name, value)]
  | (n, v) :: rest => if n = name then (n, value) :: rest else (n, v) :: put name value rest

/-- The pairs in arrival order, each name once. -/
def arrival (pairs : List (String × α)) : List (String × α) :=
  pairs.foldl (fun fields p => put p.1 p.2 fields) []

/-- Keeps the names ascending; a known name takes the new value. -/
def putSorted (name : String) (value : α) : List (String × α) → List (String × α)
  | [] => [(name, value)]
  | (n, v) :: rest =>
    if name < n then (name, value) :: (n, v) :: rest
    else if name = n then (name, value) :: rest
    else (n, v) :: putSorted name value rest

/-- The pairs in ascending order of their names, each name once. -/
def sorted (pairs : List (String × α)) : List (String × α) :=
  pairs.foldl (fun fields p => putSorted p.1 p.2 fields) []

/-- The value of the last pair that carries the name. -/
def last? (name : String) (pairs : List (String × α)) : Option α :=
  pairs.foldl (fun found p => if p.1 = name then some p.2 else found) none

/-- The names of the pairs in order. -/
abbrev names (pairs : List (String × α)) : List String := pairs.map Prod.fst

theorem lookup_cons (n other : String) (v : α) (rest : List (String × α)) :
    ((n, v) :: rest).lookup other = if n = other then some v else rest.lookup other := by
  rw [List.lookup_cons]
  by_cases h : other = n
  · simp [h]
  · simp [beq_false_of_ne h, Ne.symm h]

/-! ## Arrival order -/

theorem lookup_put (name other : String) (value : α) (fields : List (String × α)) :
    (put name value fields).lookup other =
      if name = other then some value else fields.lookup other := by
  induction fields with
  | nil => simp [put, lookup_cons]
  | cons field rest ih =>
    obtain ⟨n, v⟩ := field
    by_cases h : n = name
    · by_cases ho : name = other <;> simp [put, lookup_cons, h, ho]
    · by_cases ho : n = other
      · have hne : name ≠ other := fun he => h (ho.trans he.symm)
        rw [put, if_neg h, lookup_cons, lookup_cons, if_pos ho, if_pos ho, if_neg hne]
      · simp [put, lookup_cons, h, ho, ih]

theorem put_of_not_mem {name : String} {fields : List (String × α)} (value : α)
    (h : name ∉ names fields) : put name value fields = fields ++ [(name, value)] := by
  induction fields with
  | nil => rfl
  | cons field rest ih =>
    obtain ⟨n, v⟩ := field
    simp only [names, List.map_cons, List.mem_cons, not_or] at h
    simp [put, Ne.symm h.1, ih h.2]

theorem foldl_put_append (fields pairs : List (String × α))
    (h : (names (fields ++ pairs)).Nodup) :
    pairs.foldl (fun fields p => put p.1 p.2 fields) fields = fields ++ pairs := by
  induction pairs generalizing fields with
  | nil => simp
  | cons pair rest ih =>
    have fresh : pair.1 ∉ names fields := by
      intro hmem
      simp only [names, List.map_append, List.map_cons, List.nodup_append] at h
      exact h.2.2 pair.1 hmem pair.1 (by simp) rfl
    rw [List.foldl_cons, put_of_not_mem pair.2 fresh, ih _ (by simpa [names] using h)]
    simp

/-- Pairs without a repeated name arrive as they are. -/
theorem arrival_of_nodup {pairs : List (String × α)} (h : (names pairs).Nodup) :
    arrival pairs = pairs := by
  simpa [arrival] using foldl_put_append [] pairs (by simpa using h)

/-! ## Sorted order -/

theorem mem_names_putSorted (name other : String) (value : α) (fields : List (String × α)) :
    other ∈ names (putSorted name value fields) ↔ other = name ∨ other ∈ names fields := by
  induction fields with
  | nil => simp [putSorted, names]
  | cons field rest ih =>
    obtain ⟨n, v⟩ := field
    simp only [names, putSorted] at ih ⊢
    split
    · simp
    · split
      · rename_i he
        simp [he]
      · simp only [List.map_cons, List.mem_cons, ih]
        exact or_left_comm

theorem lookup_putSorted (name other : String) (value : α) (fields : List (String × α)) :
    (putSorted name value fields).lookup other =
      if name = other then some value else fields.lookup other := by
  induction fields with
  | nil => simp [putSorted, lookup_cons]
  | cons field rest ih =>
    obtain ⟨n, v⟩ := field
    simp only [putSorted]
    split
    · simp [lookup_cons]
    · split
      · rename_i he
        by_cases ho : name = other <;> simp [lookup_cons, ← he, ho]
      · rename_i hne
        by_cases ho : n = other
        · have : name ≠ other := fun he => hne (he.trans ho.symm)
          simp [ho, this]
        · simp [lookup_cons, ho, ih]

/-- The names ascend, so that each stands once. -/
def Ascending (fields : List (String × α)) : Prop := (names fields).Pairwise (· < ·)

theorem Ascending.putSorted {fields : List (String × α)} (h : Ascending fields) (name : String)
    (value : α) : Ascending (putSorted name value fields) := by
  induction fields with
  | nil => simp [Ascending, names, Fields.putSorted]
  | cons field rest ih =>
    obtain ⟨n, v⟩ := field
    have hrest : Ascending rest := List.Pairwise.of_cons h
    have hn : ∀ m ∈ names rest, n < m := fun m hm => List.rel_of_pairwise_cons h hm
    simp only [Fields.putSorted]
    split
    · rename_i hlt
      refine List.pairwise_cons.2 ⟨?_, h⟩
      intro m hm
      rcases List.mem_cons.1 hm with rfl | hm
      · exact hlt
      · exact String.lt_trans hlt (hn m hm)
    · split
      · rename_i he
        subst he
        exact h
      · rename_i hge hne
        have hlt : n < name := by
          rcases Std.lt_trichotomy n name with hlt | he | hgt
          · exact hlt
          · exact absurd he.symm hne
          · exact absurd hgt hge
        refine List.pairwise_cons.2 ⟨?_, ih hrest⟩
        intro m hm
        rcases (mem_names_putSorted name m value rest).1 hm with rfl | hm
        · exact hlt
        · exact hn m hm

theorem ascending_foldl_putSorted {fields : List (String × α)} (h : Ascending fields)
    (pairs : List (String × α)) :
    Ascending (pairs.foldl (fun fields p => putSorted p.1 p.2 fields) fields) := by
  induction pairs generalizing fields with
  | nil => exact h
  | cons pair rest ih => exact ih (h.putSorted pair.1 pair.2)

theorem ascending_sorted (pairs : List (String × α)) : Ascending (sorted pairs) :=
  ascending_foldl_putSorted (show Ascending ([] : List (String × α)) from .nil) pairs

theorem lookup_foldl_putSorted (other : String) (pairs fields : List (String × α)) :
    (pairs.foldl (fun fields p => putSorted p.1 p.2 fields) fields).lookup other =
      pairs.foldl (fun found p => if p.1 = other then some p.2 else found)
        (fields.lookup other) := by
  induction pairs generalizing fields with
  | nil => rfl
  | cons pair rest ih => rw [List.foldl_cons, ih, lookup_putSorted]; rfl

/-- Sorting keeps the last value of each name. -/
theorem lookup_sorted (other : String) (pairs : List (String × α)) :
    (sorted pairs).lookup other = last? other pairs :=
  lookup_foldl_putSorted other pairs []

end QueryTree.Fields
