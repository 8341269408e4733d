import QueryTree.Proofs.Checked

/-!
# Data stays data

Arguments made of scalars, bytes, lists and keyed containers always have a node, and the check finds
no operation and no issue in it, whatever names the containers hold. The wire form of a value has a
marker around every object; without the markers it is the value again, up to the order of fields.
-/

namespace QueryTree

namespace Fields

variable {α : Type}

theorem putSorted_perm {name : String} (value : α) {fields : List (String × α)}
    (hfresh : name ∉ names fields) :
    (putSorted name value fields).Perm ((name, value) :: fields) := by
  induction fields with
  | nil => exact List.Perm.refl _
  | cons field rest ih =>
    obtain ⟨n, v⟩ := field
    simp only [names, List.map_cons, List.mem_cons, not_or] at hfresh
    rw [putSorted, if_neg hfresh.1]
    split
    · exact List.Perm.refl _
    · exact ((ih hfresh.2).cons (n, v)).trans (List.Perm.swap _ _ _)

theorem foldl_putSorted_perm (pairs fields : List (String × α))
    (hnodup : (names (pairs ++ fields)).Nodup) :
    (pairs.foldl (fun fields p => putSorted p.1 p.2 fields) fields).Perm (pairs ++ fields) := by
  induction pairs generalizing fields with
  | nil => exact List.Perm.refl _
  | cons pair rest ih =>
    simp only [names, List.cons_append, List.map_cons, List.nodup_cons] at hnodup
    have hfresh : pair.1 ∉ names fields := fun hmem =>
      hnodup.1 (List.map_append ▸ List.mem_append_right _ hmem)
    have hput := putSorted_perm pair.2 hfresh
    have hmoved : (rest ++ putSorted pair.1 pair.2 fields).Perm (pair :: (rest ++ fields)) :=
      (hput.append_left rest).trans List.perm_middle
    refine (ih _ ?_).trans hmoved
    exact (hmoved.map Prod.fst).nodup_iff.2 (List.nodup_cons.2 hnodup)

/-- Pairs without a repeated name are only rearranged. -/
theorem sorted_perm {pairs : List (String × α)} (hnodup : (names pairs).Nodup) :
    (sorted pairs).Perm pairs := by
  have hperm := foldl_putSorted_perm pairs [] (by rwa [List.append_nil])
  rwa [List.append_nil] at hperm

end Fields

namespace Document

/-- A document whose objects have each name once, whose whole numbers have 64 bits with a sign, and
whose floats have the property. Values that come as data are keyed by name and have finite floats,
so of them only the range of whole numbers is asked. -/
inductive Regular (float : Binary64 → Prop) : Document → Prop
  | null : Regular float .null
  | bool (b : Bool) : Regular float (.bool b)
  | integer {n : Int} : Literal.InRange n → Regular float (.integer n)
  | float {x : Binary64} : float x → Regular float (.float x)
  | string (s : String) : Regular float (.string s)
  | array {items : List Document} : (∀ d ∈ items, Regular float d) → Regular float (.array items)
  | object {fields : List (String × Document)} : (Fields.names fields).Nodup →
      (∀ p ∈ fields, Regular float p.2) → Regular float (.object fields)

section

variable {float : Binary64 → Prop}

attribute [simp] Regular.null Regular.bool Regular.string

@[simp] theorem regular_integer {n : Int} : Regular float (.integer n) ↔ Literal.InRange n := by
  constructor
  · rintro ⟨⟩
    assumption
  · exact .integer

@[simp] theorem regular_array {items : List Document} :
    Regular float (.array items) ↔ ∀ d ∈ items, Regular float d := by
  constructor
  · rintro ⟨⟩
    assumption
  · exact .array

@[simp] theorem regular_object {fields : List (String × Document)} :
    Regular float (.object fields) ↔
      (Fields.names fields).Nodup ∧ ∀ p ∈ fields, Regular float p.2 := by
  constructor
  · rintro ⟨⟩
    constructor <;> assumption
  · exact fun h => .object h.1 h.2

end

/-- The same document up to the order of the fields in its objects. -/
inductive Rearranged : Document → Document → Prop
  | refl (d : Document) : Rearranged d d
  | array {pairs : List (Document × Document)} : (∀ p ∈ pairs, Rearranged p.1 p.2) →
      Rearranged (.array (pairs.map Prod.fst)) (.array (pairs.map Prod.snd))
  | object {fields : List (String × Document × Document)} {as bs : List (String × Document)} :
      (∀ p ∈ fields, Rearranged p.2.1 p.2.2) → as.Perm (fields.map fun p => (p.1, p.2.1)) →
      bs.Perm (fields.map fun p => (p.1, p.2.2)) → Rearranged (.object as) (.object bs)

mutual

/-- The document without the markers of its object literals: the payload of a marker takes the place
of the object that is marked. -/
def unmarked : Document → Document
  | .array items => .array (unmarkedItems items)
  | .object fields =>
    if fields.map Prod.fst = [objectTag] then
      .object ((unmarkedPayload? fields).getD (unmarkedFields fields))
    else .object (unmarkedFields fields)
  | d => d

def unmarkedItems : List Document → List Document
  | [] => []
  | d :: rest => unmarked d :: unmarkedItems rest

def unmarkedFields : List (String × Document) → List (String × Document)
  | [] => []
  | (name, d) :: rest => (name, unmarked d) :: unmarkedFields rest

/-- What stands under a marker, if that is an object. -/
def unmarkedPayload? : List (String × Document) → Option (List (String × Document))
  | (_, .object fields) :: _ => some (unmarkedFields fields)
  | _ => none

end

@[simp] theorem unmarkedItems_eq_map (items : List Document) :
    unmarkedItems items = items.map unmarked := by
  induction items with
  | nil => rfl
  | cons d rest ih => rw [unmarkedItems, ih, List.map_cons]

@[simp] theorem unmarkedFields_eq_map (fields : List (String × Document)) :
    unmarkedFields fields = fields.map (fun p => (p.1, unmarked p.2)) := by
  induction fields with
  | nil => rfl
  | cons field rest ih =>
    obtain ⟨name, d⟩ := field
    rw [unmarkedFields, ih, List.map_cons]

theorem unmarked_object {fields : List (String × Expr)} (h : Fields.Ascending fields) :
    unmarked (Expr.object fields).toDocument =
      .object (fields.map fun p => (p.1, unmarked p.2.toDocument)) := by
  rw [Expr.toDocument_object h, unmarked, List.map_cons, List.map_nil,
    if_pos (by simp [objectTag]), unmarkedPayload?, Option.getD_some, unmarkedFields_eq_map,
    List.map_map, Function.comp_def]

end Document

namespace Argument

/-- Arguments made of scalars, bytes, lists and keyed containers. -/
inductive IsData : Argument → Prop
  | literal (value : Literal) : IsData (.literal value)
  | array {items : List Argument} : (∀ a ∈ items, IsData a) → IsData (.array items)
  | object {fields : List (String × Argument)} : (∀ p ∈ fields, IsData p.2) →
      IsData (.object fields)

variable {α : Type} {tag : String} {f : α → Argument} {R : α → Expr → Prop}

/-- Each item has a node, so the list has the nodes in their order. -/
theorem normalizeItems_ok {items : List α}
    (h : ∀ a ∈ items, ∃ e, (f a).normalize tag = .ok e ∧ R a e) :
    ∃ pairs : List (α × Expr), pairs.map Prod.fst = items ∧ (∀ p ∈ pairs, R p.1 p.2) ∧
      normalizeItems tag (items.map f) = .ok (pairs.map Prod.snd) := by
  induction items with
  | nil => exact ⟨[], rfl, nofun, rfl⟩
  | cons a rest ih =>
    obtain ⟨⟨e, he, hrelated⟩, hrest⟩ := List.forall_mem_cons.1 h
    obtain ⟨pairs, hpairs, hall, hok⟩ := ih hrest
    refine ⟨(a, e) :: pairs, by simp [hpairs], List.forall_mem_cons.2 ⟨hrelated, hall⟩, ?_⟩
    rw [List.map_cons, normalizeItems, he, hok]
    rfl

/-- Each value has a node, so the fields have the nodes in their order. -/
theorem normalizeFields_ok {fields : List (String × α)}
    (h : ∀ p ∈ fields, ∃ e, (f p.2).normalize tag = .ok e ∧ R p.2 e) :
    ∃ nodes : List (String × α × Expr), nodes.map (fun p => (p.1, p.2.1)) = fields ∧
      (∀ p ∈ nodes, R p.2.1 p.2.2) ∧
      normalizeFields tag (fields.map fun p => (p.1, f p.2)) =
        .ok (nodes.map fun p => (p.1, p.2.2)) := by
  induction fields with
  | nil => exact ⟨[], rfl, nofun, rfl⟩
  | cons field rest ih =>
    obtain ⟨name, a⟩ := field
    obtain ⟨⟨e, he, hrelated⟩, hrest⟩ := List.forall_mem_cons.1 h
    obtain ⟨nodes, hnodes, hall, hok⟩ := ih hrest
    refine ⟨(name, a, e) :: nodes, by simp [hnodes], List.forall_mem_cons.2 ⟨hrelated, hall⟩, ?_⟩
    simp only [List.map_cons]
    rw [normalizeFields, he, hok]
    rfl

end Argument

/-! ## The check of data -/

namespace Check

theorem walkItems_eq {items : List Expr}
    (h : ∀ e ∈ items, ∀ path r, walk e.toDocument path r = r) (index : Nat) (path : String)
    (r : Report) : walkItems (Expr.toDocuments items) index path r = r := by
  induction items generalizing index with
  | nil => rfl
  | cons e rest ih =>
    obtain ⟨he, hrest⟩ := List.forall_mem_cons.1 h
    rw [Expr.toDocuments, walkItems, he, ih hrest]

theorem walkValues_eq {fields : List (String × Expr)}
    (h : ∀ p ∈ fields, ∀ path r, walk p.2.toDocument path r = r) (path : String) (r : Report) :
    walkValues (fields.map fun p => (p.1, p.2.toDocument)) path r = r := by
  induction fields with
  | nil => rfl
  | cons field rest ih =>
    obtain ⟨hfield, hrest⟩ := List.forall_mem_cons.1 h
    rw [List.map_cons, walkValues, hfield, ih hrest]

end Check

/-- Nodes made of literals, lists and object literals. -/
inductive Expr.IsData : Expr → Prop
  | literal (value : Literal) : IsData (.literal value)
  | array {items : List Expr} : (∀ e ∈ items, IsData e) → IsData (.array items)
  | object {fields : List (String × Expr)} : Fields.Ascending fields →
      (∀ p ∈ fields, IsData p.2) → IsData (.object fields)

/-- The check passes through lists and object literals, and has nothing to say of literals. -/
theorem Expr.IsData.walk_eq {e : Expr} (h : e.IsData) (path : String) (r : Report) :
    Check.walk e.toDocument path r = r := by
  induction h generalizing path r with
  | literal value => exact Check.walk_literal value path r
  | array _ ih => exact Check.walkItems_eq ih 0 path r
  | object hascending _ ih =>
    rw [Check.walk_object hascending]
    exact Check.walkValues_eq ih _ r

theorem Expr.IsData.document_eq {e : Expr} (h : e.IsData) :
    Check.document e.toDocument = ⟨0, []⟩ := h.walk_eq "$" .empty

theorem Argument.normalize_isData {a : Argument} (h : a.IsData) (tag : String) :
    ∃ e, a.normalize tag = .ok e ∧ e.IsData := by
  induction h with
  | literal value => exact ⟨.literal value, rfl, .literal value⟩
  | array _ ih =>
    obtain ⟨pairs, -, hall, hok⟩ := normalizeItems_ok (f := id) (R := fun _ e => e.IsData) ih
    rw [List.map_id] at hok
    refine ⟨.array (pairs.map Prod.snd), ?_, .array ?_⟩
    · rw [normalize, hok]
      rfl
    · intro e he
      obtain ⟨p, hp, rfl⟩ := List.mem_map.1 he
      exact hall p hp
  | object _ ih =>
    obtain ⟨nodes, -, hall, hok⟩ := normalizeFields_ok (f := id) (R := fun _ e => e.IsData) ih
    simp only [id, List.map_id'] at hok
    refine ⟨.object (Fields.sorted (nodes.map fun p => (p.1, p.2.2))), ?_,
      .object (Fields.ascending_sorted _) ?_⟩
    · rw [normalize, hok]
      rfl
    · intro p hp
      obtain ⟨node, hnode, rfl⟩ := List.mem_map.1 (Fields.mem_of_mem_sorted hp)
      exact hall node hnode

namespace Argument

mutual

/-- Every value is data. -/
theorem isData_ofDocument : ∀ v : Document, (ofDocument v).IsData
  | .null => .literal .null
  | .bool b => .literal (.bool b)
  | .integer n => .literal (.ofInt n)
  | .float x => .literal (.float x)
  | .string s => .literal (.string s)
  | .array items => .array (isData_ofDocuments items)
  | .object fields => .object (isData_ofFields fields)

theorem isData_ofDocuments : ∀ items : List Document, ∀ a ∈ ofDocuments items, a.IsData
  | [] => nofun
  | d :: rest => List.forall_mem_cons.2 ⟨isData_ofDocument d, isData_ofDocuments rest⟩

theorem isData_ofFields : ∀ fields : List (String × Document), ∀ p ∈ ofFields fields, p.2.IsData
  | [] => nofun
  | (_, d) :: rest => List.forall_mem_cons.2 ⟨isData_ofDocument d, isData_ofFields rest⟩

end

end Argument

/-! ## What stands below the markers -/

namespace Argument

open Document

/-- A value has a node whose wire form, without the markers, is the value with its fields sorted. -/
theorem normalize_ofDocument {v : Document} (h : v.Regular (·.isFinite = true)) (tag : String) :
    ∃ e, (ofDocument v).normalize tag = .ok e ∧ Rearranged (unmarked e.toDocument) v := by
  induction h with
  | null => exact ⟨.literal .null, rfl, .refl .null⟩
  | bool b => exact ⟨.literal (.bool b), rfl, .refl (.bool b)⟩
  | @integer n hrange =>
    refine ⟨.literal (.integer (Int64.ofInt n)), ?_, ?_⟩
    · rw [ofDocument, Literal.ofInt, if_pos hrange]
      rfl
    · have htoInt : (Int64.ofInt n).toInt = n := Int64.toInt_ofInt_of_le hrange.1 hrange.2
      rw [Expr.toDocument, Literal.toDocument, htoInt]
      exact .refl (.integer n)
  | @float x hfinite =>
    refine ⟨.literal (.float x), rfl, ?_⟩
    rw [Expr.toDocument, Literal.toDocument, if_pos hfinite]
    exact .refl (.float x)
  | string s => exact ⟨.literal (.string s), rfl, .refl (.string s)⟩
  | array _ ih =>
    obtain ⟨pairs, rfl, hall, hok⟩ := normalizeItems_ok
      (R := fun d e => Rearranged (unmarked e.toDocument) d) ih
    refine ⟨.array (pairs.map Prod.snd), ?_, ?_⟩
    · rw [ofDocument, ofDocuments_eq_map, normalize, hok]
      rfl
    · have hpairs : ∀ p ∈ pairs.map fun p => (unmarked p.2.toDocument, p.1),
          Rearranged p.1 p.2 := by
        intro p hp
        obtain ⟨q, hq, rfl⟩ := List.mem_map.1 hp
        exact hall q hq
      simpa [Expr.toDocument, unmarked, Function.comp_def] using Rearranged.array hpairs
  | object hnodup _ ih =>
    obtain ⟨nodes, rfl, hall, hok⟩ := normalizeFields_ok
      (R := fun d e => Rearranged (unmarked e.toDocument) d) ih
    refine ⟨.object (Fields.sorted (nodes.map fun p => (p.1, p.2.2))), ?_, ?_⟩
    · rw [ofDocument, ofFields_eq_map, normalize, hok]
      rfl
    · have hsorted : (Fields.sorted (nodes.map fun p => (p.1, p.2.2))).Perm
          (nodes.map fun p => (p.1, p.2.2)) := by
        apply Fields.sorted_perm
        simpa [Fields.names, Function.comp_def] using hnodup
      rw [unmarked_object (Fields.ascending_sorted _)]
      refine @Rearranged.object (nodes.map fun p => (p.1, unmarked p.2.2.toDocument, p.2.1)) _ _
        ?_ ?_ ?_
      · intro p hp
        obtain ⟨q, hq, rfl⟩ := List.mem_map.1 hp
        exact hall q hq
      · simpa [Function.comp_def] using
          hsorted.map fun p : String × Expr => (p.1, unmarked p.2.toDocument)
      · simp [Function.comp_def]

/-- Whatever names the containers have, data is no operation for the check; and a value is what
stands in its wire form below the markers. -/
theorem data_stays_data :
    (∀ a : Argument, a.IsData → ∀ tag, ∃ e, a.normalize tag = .ok e ∧
      Check.document e.toDocument = ⟨0, []⟩) ∧
    (∀ v : Document, v.Regular (·.isFinite = true) → ∀ tag, ∃ e,
      (ofDocument v).normalize tag = .ok e ∧ Rearranged (unmarked e.toDocument) v) := by
  constructor
  · intro a ha tag
    obtain ⟨e, hok, hdata⟩ := normalize_isData ha tag
    exact ⟨e, hok, hdata.document_eq⟩
  · intro v hv tag
    exact normalize_ofDocument hv tag

end Argument

/-- A value that has the names of operations, markers and literals at every level. -/
def mimicry : Document :=
  .object [("object", .object [("object", .object [("add", .array [])])]),
    ("let", .array [.integer (-9223372036854775808), .object [("lambda", .string "x")]]),
    ("@ref", .object [("@obj", .null), ("", .bool true)]),
    ("lambda", .object [("@ts", .array [.object []])])]

theorem mimicry_stays_data :
    (Argument.ofDocument mimicry).IsData ∧ mimicry.Regular (·.isFinite = true) ∧
    (∃ e, (Argument.ofDocument mimicry).normalize "add" = .ok e ∧
      Check.document e.toDocument = ⟨0, []⟩) ∧
    ∃ e, (Argument.ofDocument mimicry).normalize "add" = .ok e ∧
      Document.Rearranged (Document.unmarked e.toDocument) mimicry := by
  have hdata := Argument.isData_ofDocument mimicry
  have hregular : mimicry.Regular (·.isFinite = true) := by
    simp [mimicry, Literal.InRange]
  exact ⟨hdata, hregular, Argument.data_stays_data.1 _ hdata "add",
    Argument.data_stays_data.2 _ hregular "add"⟩

end QueryTree
