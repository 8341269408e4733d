import Mathlib.Data.List.Perm.Subperm
import QueryTree.Proofs.Formed

/-!
# The wire form is unambiguous

Two nodes with the same wire document are the same node. The names of a document tell which entry
of the catalog made the node, because no two entries have each other's tag among their fields; the
entry fixes the order of the fields, and base64 text can be read in one way only.
-/

namespace QueryTree

namespace Base64

/-- The six bits of a letter, and 64 for the padding. -/
def bits (c : Char) : Nat := ((List.range 64).find? (fun n => letter n == c)).getD 64

theorem bits_letter : ∀ n < 64, bits (letter n) = n := by decide +kernel

theorem bits_pad : bits '=' = 64 := by decide +kernel

/-- Reads four letters at a time. -/
def decode : List Char → List UInt8
  | a :: b :: c :: d :: rest =>
    let first := UInt8.ofNat (bits a * 4 + bits b / 16)
    let second := UInt8.ofNat (bits b % 16 * 16 + bits c / 4)
    let third := UInt8.ofNat (bits c % 4 * 64 + bits d)
    if bits c = 64 then [first]
    else if bits d = 64 then [first, second]
    else first :: second :: third :: decode rest
  | _ => []

theorem decode_encode (data : List UInt8) : decode (encode data) = data := by
  fun_induction encode data with
  | case1 => rfl
  | case2 a =>
    have ha := a.toNat_lt
    have hfirst : a.toNat / 4 * 4 + a.toNat % 4 * 16 / 16 = a.toNat := by omega
    rw [decode, bits_letter _ (by omega), bits_letter _ (by omega), bits_pad, if_pos rfl, hfirst,
      UInt8.ofNat_toNat]
  | case3 a b =>
    have ha := a.toNat_lt
    have hb := b.toNat_lt
    have hfirst : a.toNat / 4 * 4 + (a.toNat % 4 * 16 + b.toNat / 16) / 16 = a.toNat := by omega
    have hsecond : (a.toNat % 4 * 16 + b.toNat / 16) % 16 * 16 + b.toNat % 16 * 4 / 4 =
      b.toNat := by omega
    rw [decode, bits_letter _ (by omega), bits_letter _ (by omega), bits_letter _ (by omega),
      bits_pad, if_neg (by omega), if_pos rfl, hfirst, hsecond, UInt8.ofNat_toNat,
      UInt8.ofNat_toNat]
  | case4 a b c rest ih =>
    have ha := a.toNat_lt
    have hb := b.toNat_lt
    have hc := c.toNat_lt
    have hfirst : a.toNat / 4 * 4 + (a.toNat % 4 * 16 + b.toNat / 16) / 16 = a.toNat := by omega
    have hsecond : (a.toNat % 4 * 16 + b.toNat / 16) % 16 * 16 +
      (b.toNat % 16 * 4 + c.toNat / 64) / 4 = b.toNat := by omega
    have hthird : (b.toNat % 16 * 4 + c.toNat / 64) % 4 * 64 + c.toNat % 64 = c.toNat := by omega
    rw [decode, bits_letter _ (by omega), bits_letter _ (by omega), bits_letter _ (by omega),
      bits_letter _ (by omega), if_neg (by omega), if_neg (by omega), hfirst, hsecond, hthird,
      UInt8.ofNat_toNat, UInt8.ofNat_toNat, UInt8.ofNat_toNat, ih]

/-- Different bytes have different text. -/
theorem encode_injective {as bs : List UInt8} (h : encode as = encode bs) : as = bs := by
  have hdecode := congrArg decode h
  rwa [decode_encode, decode_encode] at hdecode

end Base64

namespace Document

mutual

/-- Equality of documents. The fields of an object stand in no order, floats are compared as
numbers, and a whole number is never equal to a float. -/
def same : Document → Document → Bool
  | .null, .null => true
  | .bool a, .bool b => a == b
  | .integer a, .integer b => a == b
  | .float a, .float b => a.numericallyEqual b
  | .string a, .string b => a == b
  | .array as, .array bs => sameItems as bs
  | .object as, .object bs => as.length == bs.length && sameFields as bs
  | _, _ => false

def sameItems : List Document → List Document → Bool
  | [], [] => true
  | a :: as, b :: bs => same a b && sameItems as bs
  | _, _ => false

/-- Every field of the first object is a field of the second. -/
def sameFields : List (String × Document) → List (String × Document) → Bool
  | [], _ => true
  | (name, a) :: as, bs => (bs.lookup name).elim false (same a) && sameFields as bs

end

theorem sameFields_iff {as bs : List (String × Document)} : sameFields as bs = true ↔
    ∀ p ∈ as, ∃ b, bs.lookup p.1 = some b ∧ p.2.same b = true := by
  induction as with
  | nil => simp [sameFields]
  | cons field rest ih =>
    obtain ⟨name, a⟩ := field
    rw [sameFields, Bool.and_eq_true, ih, List.forall_mem_cons]
    cases bs.lookup name <;> simp

theorem same_singleton {name name' : String} {d d' : Document} :
    (object [(name, d)]).same (object [(name', d')]) = true ↔
      name = name' ∧ d.same d' = true := by
  rw [same, sameFields, sameFields, Fields.lookup_cons, List.lookup_nil]
  by_cases h : name' = name
  · simp [h]
  · simp [h, Ne.symm h]

/-- Objects with distinct names have the same names. -/
theorem names_perm {as bs : List (String × Document)} (has : (Fields.names as).Nodup)
    (h : (object as).same (object bs) = true) : (Fields.names as).Perm (Fields.names bs) := by
  simp only [same, Bool.and_eq_true, beq_iff_eq, sameFields_iff] at h
  have hsubset : Fields.names as ⊆ Fields.names bs := by
    intro name hname
    obtain ⟨p, hp, rfl⟩ := List.mem_map.1 hname
    obtain ⟨b, hb, -⟩ := h.2 p hp
    exact List.mem_map.2 ⟨_, Fields.mem_of_lookup hb, rfl⟩
  apply (List.subperm_of_subset has hsubset).perm_of_length_le
  simp [h.1]

/-- Objects with the same names in the same order have the same fields. -/
theorem fields_of_same {as bs : List (String × Document)}
    (hnames : Fields.names as = Fields.names bs) (hnodup : (Fields.names as).Nodup)
    (h : sameFields as bs = true) :
    List.Forall₂ (fun p q => p.1 = q.1 ∧ p.2.same q.2 = true) as bs := by
  induction as generalizing bs with
  | nil =>
    cases bs with
    | nil => exact .nil
    | cons q bs => cases hnames
  | cons p as ih =>
    cases bs with
    | nil => cases hnames
    | cons q bs =>
      simp only [Fields.names, List.map_cons, List.cons.injEq] at hnames
      have hfresh := List.nodup_cons.1 hnodup
      rw [sameFields_iff] at h
      obtain ⟨b, hb, hsame⟩ := h p List.mem_cons_self
      rw [hnames.1, Fields.lookup_cons, if_pos rfl, Option.some.injEq] at hb
      subst hb
      refine .cons ⟨hnames.1, hsame⟩ (ih hnames.2 hfresh.2 (sameFields_iff.2 fun p' hp' => ?_))
      obtain ⟨b, hb, hsame⟩ := h p' (List.mem_cons_of_mem _ hp')
      have hne : q.1 ≠ p'.1 := by
        rw [← hnames.1]
        rintro he
        exact hfresh.1 (he ▸ List.mem_map_of_mem hp')
      rw [Fields.lookup_cons, if_neg hne] at hb
      exact ⟨b, hb, hsame⟩

end Document

theorem eq_of_sublist_of_perm {l l₁ l₂ : List String} (hl : l.Nodup) (h₁ : l₁.Sublist l)
    (h₂ : l₂.Sublist l) (h : l₁.Perm l₂) : l₁ = l₂ := by
  induction h₁ generalizing l₂ with
  | slnil => exact h.nil_eq
  | cons x h₁ ih =>
    have hx := List.nodup_cons.1 hl
    cases h₂ with
    | cons _ h₂ => exact ih hx.2 h₂ h
    | cons_cons _ h₂ => exact absurd (h₁.subset (h.symm.subset List.mem_cons_self)) hx.1
  | cons_cons x h₁ ih =>
    have hx := List.nodup_cons.1 hl
    cases h₂ with
    | cons _ h₂ => exact absurd (h₂.subset (h.subset List.mem_cons_self)) hx.1
    | cons_cons _ h₂ => rw [ih hx.2 h₂ h.cons_inv]

namespace Expr

mutual

/-- All floating-point literals are finite. -/
def finite : Expr → Bool
  | .literal (.float x) => x.isFinite
  | .literal _ => true
  | .array items => finiteItems items
  | .object fields => finiteFields fields
  | .binding _ value => finite value
  | .operation _ operand fields => finite operand && finiteFields fields

def finiteItems : List Expr → Bool
  | [] => true
  | e :: rest => finite e && finiteItems rest

def finiteFields : List (String × Expr) → Bool
  | [] => true
  | (_, e) :: rest => finite e && finiteFields rest

end

theorem finiteItems_iff {items : List Expr} :
    finiteItems items = true ↔ ∀ e ∈ items, e.finite = true := by
  induction items with
  | nil => simp [finiteItems]
  | cons e rest ih => rw [finiteItems, Bool.and_eq_true, ih, List.forall_mem_cons]

theorem finiteFields_iff {fields : List (String × Expr)} :
    finiteFields fields = true ↔ ∀ p ∈ fields, p.2.finite = true := by
  induction fields with
  | nil => simp [finiteFields]
  | cons field rest ih =>
    obtain ⟨name, e⟩ := field
    rw [finiteFields, Bool.and_eq_true, ih, List.forall_mem_cons]

/-! ## The entry of a node -/

/-- The first name of the wire object, if the wire form is one. -/
def head? : Expr → Option String
  | .literal (.bytes _) => some bytesTag
  | .object _ => some objectTag
  | .operation tag _ _ => some tag
  | _ => none

/-- The names that may follow a first name. -/
def Follows (tag : String) (names : List String) : Prop :=
  ∃ entry ∈ Catalog.entries, entry.tag = tag ∧ names.Sublist entry.fieldNames

theorem follows_of_lookup {tag : String} {names : List String}
    (h : (Catalog.lookup tag).map Entry.fieldNames = some names) : Follows tag names := by
  obtain ⟨entry, hentry, rfl⟩ := Option.map_eq_some_iff.1 h
  have htag : entry.tag = tag := by simpa using List.find?_some hentry
  exact ⟨entry, List.mem_of_find?_eq_some hentry, htag, List.Sublist.refl _⟩

theorem follows_leaf {tag : String} (h : tag ∈ leafTags) : Follows tag [] := by
  refine follows_of_lookup (Catalog.fieldNames_special (tag, []) ?_)
  simp only [leafTags, List.mem_cons] at h
  simp only [List.mem_cons, Prod.mk.injEq, and_true]
  tauto

theorem follows_bytes : Follows bytesTag [] :=
  follows_of_lookup (Catalog.fieldNames_special ("@bytes", []) (by simp))

theorem follows_object : Follows objectTag [] :=
  follows_of_lookup (Catalog.fieldNames_special ("object", []) (by simp))

theorem follows_let : Follows "let" ["in"] :=
  follows_of_lookup (Catalog.fieldNames_special ("let", ["in"]) (by simp))

theorem follows_lambda : Follows "lambda" ["expr"] :=
  follows_of_lookup (Catalog.fieldNames_special ("lambda", ["expr"]) (by simp))

theorem Follows.nodup {tag : String} {names : List String} (h : Follows tag names) :
    (tag :: names).Nodup := by
  obtain ⟨entry, hentry, rfl, hsub⟩ := h
  obtain ⟨hnodup, htag⟩ := Catalog.fieldNames_nodup entry hentry
  exact List.nodup_cons.2 ⟨fun hmem => htag (hsub.subset hmem), hsub.nodup hnodup⟩

/-- The same set of names has the same first name and the same order. -/
theorem Follows.eq_of_perm {tag tag' : String} {names names' : List String}
    (h : Follows tag names) (h' : Follows tag' names')
    (hperm : (tag :: names).Perm (tag' :: names')) : tag = tag' ∧ names = names' := by
  obtain ⟨entry, hentry, rfl, hsub⟩ := h
  obtain ⟨entry', hentry', rfl, hsub'⟩ := h'
  have htag : entry.tag = entry'.tag := by
    rcases List.mem_cons.1 (hperm.subset List.mem_cons_self) with htag | hmem
    · exact htag
    · rcases List.mem_cons.1 (hperm.symm.subset List.mem_cons_self) with htag | hmem'
      · exact htag.symm
      · have hcrossed := Catalog.tag_not_mem_of_mem hentry' hentry (hsub'.subset hmem)
        exact absurd (hsub.subset hmem') hcrossed
  obtain rfl := Catalog.eq_of_tag_eq hentry hentry' htag
  obtain ⟨hnodup, -⟩ := Catalog.fieldNames_nodup entry hentry
  exact ⟨rfl, eq_of_sublist_of_perm hnodup hsub hsub' hperm.cons_inv⟩

/-- Equal objects whose names follow their first ones have equal fields, in one order. -/
theorem Follows.fields_of_same {tag tag' : String} {d d' : Document}
    {fields fields' : List (String × Document)} (h : Follows tag (Fields.names fields))
    (h' : Follows tag' (Fields.names fields'))
    (hsame : (Document.object ((tag, d) :: fields)).same (.object ((tag', d') :: fields')) = true) :
    tag = tag' ∧ d.same d' = true ∧
      List.Forall₂ (fun p q => p.1 = q.1 ∧ p.2.same q.2 = true) fields fields' := by
  have hnodup : (Fields.names ((tag, d) :: fields)).Nodup := h.nodup
  obtain ⟨htag, hnames⟩ := h.eq_of_perm h' (Document.names_perm hnodup hsame)
  have hall : Fields.names ((tag, d) :: fields) = Fields.names ((tag', d') :: fields') := by
    exact congrArg₂ List.cons htag hnames
  simp only [Document.same, Bool.and_eq_true] at hsame
  cases Document.fields_of_same hall hnodup hsame.2 with
  | cons hhead hrest => exact ⟨htag, hhead.2, hrest⟩

theorem Formed.follows {tag : String} {operand : Expr} {fields : List (String × Expr)}
    (h : (Expr.operation tag operand fields).Formed) : Follows tag (fields.map Prod.fst) := by
  cases h with
  | leaf text htag => exact follows_leaf htag
  | operation hentry hform hlayout hholds hfill _ _ =>
    refine ⟨_, hentry, rfl, ?_⟩
    rw [Entry.fieldNames_of_form hform, Form.fieldNames_of_layout hlayout]
    exact hfill.names_sublist
  | letIn _ _ => exact follows_let
  | lambda _ _ _ => exact follows_lambda

theorem Formed.toDocument_operation {tag : String} {operand : Expr}
    {fields : List (String × Expr)} (h : (Expr.operation tag operand fields).Formed) :
    (Expr.operation tag operand fields).toDocument =
      .object ((tag, operand.toDocument) :: fields.map fun p => (p.1, p.2.toDocument)) :=
  Expr.toDocument_operation h.follows.nodup

/-- The wire form of a formed node is an object whose names follow its first name, or none. -/
theorem Formed.toDocument_head {e : Expr} (h : e.Formed) :
    (e.head? = none ∧ e.toDocument.isObject = false) ∨ ∃ tag operand fields,
      e.head? = some tag ∧ e.toDocument = Document.object ((tag, operand) :: fields) ∧
        Follows tag (Fields.names fields) := by
  cases e with
  | literal value =>
    cases value with
    | bytes data => exact .inr ⟨_, _, _, rfl, rfl, follows_bytes⟩
    | float x =>
      refine .inl ⟨rfl, ?_⟩
      simp only [toDocument, Literal.toDocument]
      split <;> rfl
    | _ => exact .inl ⟨rfl, rfl⟩
  | array items => exact .inl ⟨rfl, rfl⟩
  | object fields => exact .inr ⟨_, _, _, rfl, rfl, follows_object⟩
  | binding name value => cases h
  | operation tag operand fields =>
    refine .inr ⟨_, _, _, rfl, h.toDocument_operation, ?_⟩
    simpa [Fields.names, Function.comp_def] using h.follows

theorem Formed.tag_ne {tag : String} {operand : Expr} {fields : List (String × Expr)}
    (h : (Expr.operation tag operand fields).Formed) : tag ≠ bytesTag ∧ tag ≠ objectTag := by
  cases h with
  | leaf text htag =>
    constructor <;> rintro rfl <;> simp [leafTags, bytesTag, objectTag] at htag
  | operation hentry hform hlayout _ _ _ _ =>
    have hreserved := Catalog.layout_tag_not_reserved _ hentry (by simp [hform, hlayout])
    constructor <;> intro htag <;> refine hreserved ?_ <;> rw [htag] <;>
      simp [Catalog.reservedTags, bytesTag, objectTag]
  | letIn _ _ => simp [bytesTag, objectTag]
  | lambda _ _ _ => simp [bytesTag, objectTag]

theorem Formed.fields {tag : String} {operand : Expr} {fields : List (String × Expr)}
    (h : (Expr.operation tag operand fields).Formed) : ∀ p ∈ fields, p.2.Formed := by
  cases h with
  | leaf text htag => exact nofun
  | operation _ _ _ _ _ _ hfields => exact hfields
  | letIn _ hbody => simpa using hbody
  | lambda _ _ hbody => simpa using hbody

theorem Formed.operand {tag : String} {operand : Expr} {fields : List (String × Expr)}
    (h : (Expr.operation tag operand fields).Formed) (htag : tag ≠ "let") : operand.Formed := by
  cases h with
  | leaf text _ => exact .literal (.string text)
  | operation _ _ _ _ _ hoperand _ => exact hoperand
  | letIn _ _ => exact absurd rfl htag
  | lambda hparameters _ _ => exact hparameters

theorem Formed.bindings {tag : String} {operand : Expr} {fields : List (String × Expr)}
    (h : (Expr.operation tag operand fields).Formed) (htag : tag = "let") :
    ∃ values : List (String × Expr), operand = .array (values.map fun p => .binding p.1 p.2) ∧
      ∀ p ∈ values, p.2.Formed := by
  cases h with
  | leaf text hleaf => simp [leafTags, htag] at hleaf
  | operation hentry hform hlayout _ _ _ _ =>
    have hreserved := Catalog.layout_tag_not_reserved _ hentry (by simp [hform, hlayout])
    exact absurd (htag ▸ by simp [Catalog.reservedTags]) hreserved
  | letIn hvalues _ => exact ⟨_, rfl, hvalues⟩
  | lambda _ _ _ => simp at htag

/-! ## Equal documents -/

variable {a b : Expr}

theorem isObject_eq_of_same {d d' : Document} (h : d.same d' = true) :
    d.isObject = d'.isObject := by
  cases d <;> cases d' <;> first | rfl | simp [Document.same] at h

theorem head?_eq_of_same (ha : a.Formed) (hb : b.Formed)
    (h : a.toDocument.same b.toDocument = true) : a.head? = b.head? := by
  have hobject := isObject_eq_of_same h
  rcases ha.toDocument_head with ⟨hnone, hdoc⟩ | ⟨tag, operand, fields, hhead, hdoc, hfollows⟩
  · rcases hb.toDocument_head with ⟨hnone', -⟩ | ⟨_, _, _, -, hdoc', -⟩
    · rw [hnone, hnone']
    · rw [hdoc, hdoc'] at hobject
      cases hobject
  · rcases hb.toDocument_head with ⟨-, hdoc'⟩ | ⟨tag', operand', fields', hhead', hdoc', hfollows'⟩
    · rw [hdoc, hdoc'] at hobject
      cases hobject
    · rw [hdoc, hdoc'] at h
      rw [hhead, hhead', (hfollows.fields_of_same hfollows' h).1]

theorem literal_of_same {v w : Literal} (hv : (Expr.literal v).finite)
    (hw : (Expr.literal w).finite) (h : v.toDocument.same w.toDocument = true) :
    v.same w = true := by
  cases v with
  | bytes data =>
    cases w with
    | bytes data' =>
      simp only [Literal.toDocument, Document.same, Document.sameFields, Fields.lookup_cons,
        if_true, Option.elim_some, Bool.and_true, Bool.and_eq_true, beq_iff_eq,
        String.ofList_inj] at h
      simpa [Literal.same] using Base64.encode_injective h.2
    | float x => simp_all [Literal.toDocument, Document.same, finite]
    | _ => simp [Literal.toDocument, Document.same] at h
  | _ =>
    cases w <;>
      simp_all [Literal.toDocument, Document.same, Literal.same, finite, Int64.toInt_inj]

theorem literal_array_not_same (v : Literal) (items : List Document) :
    v.toDocument.same (.array items) = false ∧
      (Document.array items).same v.toDocument = false := by
  cases v with
  | float x =>
    simp only [Literal.toDocument]
    split <;> exact ⟨rfl, rfl⟩
  | _ => exact ⟨rfl, rfl⟩

/-- Nodes with the same document are of one kind. -/
theorem kind_eq_of_same (ha : a.Formed) (hb : b.Formed)
    (h : a.toDocument.same b.toDocument = true) : a.kind = b.kind := by
  have hhead := head?_eq_of_same ha hb h
  cases a with
  | literal v =>
    cases b with
    | literal w => rfl
    | array items => simp [toDocument, (literal_array_not_same v _).1] at h
    | object fields => cases v <;> simp [head?, bytesTag, objectTag] at hhead
    | binding name value => cases hb
    | operation tag operand fields => 
      cases v <;> simp [head?] at hhead
      exact absurd hhead.symm hb.tag_ne.1
  | array items =>
    cases b with
    | literal w => simp [toDocument, (literal_array_not_same w _).2] at h
    | array items' => rfl
    | object fields => cases hhead
    | binding name value => cases hb
    | operation tag operand fields => cases hhead
  | object fields =>
    cases b with
    | literal w => cases w <;> simp [head?, bytesTag, objectTag] at hhead
    | array items => cases hhead
    | object fields' => rfl
    | binding name value => cases hb
    | operation tag operand fields =>
      simp only [head?, Option.some.injEq] at hhead
      exact absurd hhead.symm hb.tag_ne.2
  | binding name value => cases ha
  | operation tag operand fields =>
    cases b with
    | literal w =>
      cases w <;> simp [head?] at hhead
      exact absurd hhead ha.tag_ne.1
    | array items => cases hhead
    | object fields' =>
      simp only [head?, Option.some.injEq] at hhead
      exact absurd hhead ha.tag_ne.2
    | binding name value => cases hb
    | operation tag' operand' fields' => rfl

/-- A node with the document of an operation is an operation with the same tag, and its operand
and fields have the same documents. -/
theorem operation_of_same {tag : String} {operand : Expr} {fields : List (String × Expr)}
    (ha : (Expr.operation tag operand fields).Formed) (hb : b.Formed)
    (h : (Expr.operation tag operand fields).toDocument.same b.toDocument = true) :
    ∃ operand' fields', b = .operation tag operand' fields' ∧
      operand.toDocument.same operand'.toDocument = true ∧
      List.Forall₂ (fun p q => p.1 = q.1 ∧ p.2.toDocument.same q.2.toDocument = true)
        fields fields' := by
  have hkind := kind_eq_of_same ha hb h
  cases b with
  | operation tag' operand' fields' =>
    rw [ha.toDocument_operation, hb.toDocument_operation] at h
    have hnames : ∀ fields : List (String × Expr),
        Fields.names (fields.map fun p => (p.1, p.2.toDocument)) = fields.map Prod.fst := by
      simp [Fields.names, Function.comp_def]
    have hfollows := ha.follows
    have hfollows' := hb.follows
    rw [← hnames] at hfollows hfollows'
    obtain ⟨rfl, hoperand, hfields⟩ := hfollows.fields_of_same hfollows' h
    exact ⟨operand', fields', rfl, hoperand, by simpa using hfields⟩
  | _ => cases hkind

/-- Object literals with the same document have the same names, and values with the same
documents. -/
theorem payload_of_same {fields fields' : List (String × Expr)} (h : Fields.Ascending fields)
    (h' : Fields.Ascending fields')
    (hsame : (Document.object
      [("object", .object (fields.map fun p => (p.1, p.2.toDocument)))]).same
        (.object [("object", .object (fields'.map fun p => (p.1, p.2.toDocument)))]) = true) :
    List.Forall₂ (fun p q => p.1 = q.1 ∧ p.2.toDocument.same q.2.toDocument = true)
      fields fields' := by
  have hpayload := (Document.same_singleton.1 hsame).2
  have hnames : ∀ fields : List (String × Expr),
      Fields.names (fields.map fun p => (p.1, p.2.toDocument)) = Fields.names fields := by
    simp [Fields.names, Function.comp_def]
  have hnodup := h.nodup
  rw [← hnames] at hnodup
  have hperm := Document.names_perm hnodup hpayload
  rw [hnames, hnames] at hperm
  have heq := hperm.eq_of_pairwise (fun a b _ _ hab hba => absurd hba (String.lt_asymm hab)) h h'
  rw [← hnames, ← hnames] at heq
  simp only [Document.same, Bool.and_eq_true] at hpayload
  simpa using Document.fields_of_same heq hnodup hpayload.2

/-! ## Equal nodes -/

theorem forall₂_imp_mem {α : Type} {R S : α → α → Prop} {as bs : List α}
    (h : List.Forall₂ R as bs) (himp : ∀ a ∈ as, ∀ b ∈ bs, R a b → S a b) :
    List.Forall₂ S as bs := by
  induction h with
  | nil => exact .nil
  | cons hab _ ih =>
    refine .cons (himp _ List.mem_cons_self _ List.mem_cons_self hab) (ih ?_)
    intro a ha b hb
    exact himp a (List.mem_cons_of_mem _ ha) b (List.mem_cons_of_mem _ hb)

theorem documents_same_iff {as bs : List Document} :
    Document.sameItems as bs = true ↔ List.Forall₂ (fun a b => a.same b = true) as bs := by
  induction as generalizing bs with
  | nil => cases bs <;> simp [Document.sameItems]
  | cons a as ih => cases bs <;> simp [Document.sameItems, ih]

theorem sameItems_iff {as bs : List Expr} :
    sameItems as bs = true ↔ List.Forall₂ (fun a b => a.same b = true) as bs := by
  induction as generalizing bs with
  | nil => cases bs <;> simp [sameItems]
  | cons a as ih => cases bs <;> simp [sameItems, ih]

theorem sameFields_iff {as bs : List (String × Expr)} : sameFields as bs = true ↔
    List.Forall₂ (fun p q => p.1 = q.1 ∧ p.2.same q.2 = true) as bs := by
  induction as generalizing bs with
  | nil => cases bs <;> simp [sameFields]
  | cons p as ih => cases bs <;> simp [sameFields, ih]

/-- A node is told from all others by its document. -/
def Told (a : Expr) : Prop := a.finite = true → ∀ b : Expr, b.Formed → b.finite = true →
  a.toDocument.same b.toDocument = true → a.same b = true

theorem items_told {as bs : List Expr} (h : ∀ a ∈ as, a.Told) (hbs : ∀ b ∈ bs, b.Formed)
    (hfinite : finiteItems as = true) (hfinite' : finiteItems bs = true)
    (hsame : Document.sameItems (as.map toDocument) (bs.map toDocument) = true) :
    sameItems as bs = true := by
  rw [documents_same_iff, List.forall₂_map_left_iff, List.forall₂_map_right_iff] at hsame
  refine sameItems_iff.2 (forall₂_imp_mem hsame fun a ha b hb hab => ?_)
  exact h a ha (finiteItems_iff.1 hfinite a ha) b (hbs b hb) (finiteItems_iff.1 hfinite' b hb) hab

theorem fields_told {as bs : List (String × Expr)} (h : ∀ p ∈ as, p.2.Told)
    (hbs : ∀ q ∈ bs, q.2.Formed) (hfinite : finiteFields as = true)
    (hfinite' : finiteFields bs = true) (hsame : List.Forall₂
      (fun p q => p.1 = q.1 ∧ p.2.toDocument.same q.2.toDocument = true) as bs) :
    sameFields as bs = true := by
  refine sameFields_iff.2 (forall₂_imp_mem hsame fun p hp q hq hpq => ⟨hpq.1, ?_⟩)
  exact h p hp (finiteFields_iff.1 hfinite p hp) q.2 (hbs q hq)
    (finiteFields_iff.1 hfinite' q hq) hpq.2

theorem operation_told {tag : String} {operand : Expr} {fields : List (String × Expr)}
    (ha : (Expr.operation tag operand fields).Formed) (htag : tag ≠ "let")
    (hoperand : operand.Told) (hfields : ∀ p ∈ fields, p.2.Told) :
    (operation tag operand fields).Told := by
  intro hfinite b hb hfinite' h
  obtain ⟨operand', fields', rfl, hsame, hsames⟩ := operation_of_same ha hb h
  simp only [finite, Bool.and_eq_true] at hfinite hfinite'
  have hfirst := hoperand hfinite.1 operand' (hb.operand htag) hfinite'.1 hsame
  have hrest := fields_told hfields hb.fields hfinite.2 hfinite'.2 hsames
  simp [same, hfirst, hrest]

theorem let_told {values fields : List (String × Expr)}
    (ha : (Expr.operation "let" (.array (values.map fun p => .binding p.1 p.2)) fields).Formed)
    (hvalues : ∀ p ∈ values, p.2.Told) (hfields : ∀ p ∈ fields, p.2.Told) :
    (operation "let" (.array (values.map fun p => .binding p.1 p.2)) fields).Told := by
  intro hfinite b hb hfinite' h
  obtain ⟨operand', fields', rfl, hsame, hsames⟩ := operation_of_same ha hb h
  obtain ⟨values', rfl, hformed⟩ := hb.bindings rfl
  simp only [finite, Bool.and_eq_true] at hfinite hfinite'
  have hrest := fields_told hfields hb.fields hfinite.2 hfinite'.2 hsames
  have hbindings : List.Forall₂
      (fun p q => p.1 = q.1 ∧ p.2.toDocument.same q.2.toDocument = true) values values' := by
    rw [toDocument_bindings, toDocument_bindings, Document.same, documents_same_iff] at hsame
    simpa [Document.same_singleton] using hsame
  have hfiniteValues : ∀ {values : List (String × Expr)},
      finiteItems (values.map fun p => .binding p.1 p.2) = true → finiteFields values = true := by
    intro values hvalues
    apply finiteFields_iff.2
    intro p hp
    exact finiteItems_iff.1 hvalues (.binding p.1 p.2) (List.mem_map_of_mem hp)
  have hvalues' := fields_told hvalues hformed (hfiniteValues hfinite.1)
    (hfiniteValues hfinite'.1) hbindings
  have hfirst : sameItems (values.map fun p => .binding p.1 p.2)
      (values'.map fun p => .binding p.1 p.2) = true := by
    simpa [sameItems_iff, sameFields_iff, same] using hvalues'
  simp [same, hfirst, hrest]

theorem literal_told (value : Literal) : (literal value).Told := by
  intro hfinite b hb hfinite' h
  have hkind := kind_eq_of_same (.literal value) hb h
  cases b with
  | literal value' => exact literal_of_same hfinite hfinite' h
  | _ => cases hkind

theorem told_of_formed (ha : a.Formed) : a.Told := by
  induction ha with
  | literal value => exact literal_told value
  | array hitems ih =>
    intro hfinite b hb hfinite' h
    have hkind := kind_eq_of_same (.array hitems) hb h
    cases b with
    | array items' =>
      cases hb with
      | array hitems' =>
        simp only [toDocument, toDocuments_eq_map] at h
        exact items_told ih hitems' hfinite hfinite' h
    | _ => cases hkind
  | object hascending hfields ih =>
    intro hfinite b hb hfinite' h
    have hkind := kind_eq_of_same (.object hascending hfields) hb h
    cases b with
    | object fields' =>
      cases hb with
      | object hascending' hfields' =>
        rw [toDocument_object hascending, toDocument_object hascending'] at h
        exact fields_told ih hfields' hfinite hfinite' (payload_of_same hascending hascending' h)
    | _ => cases hkind
  | leaf text htag =>
    refine operation_told (.leaf text htag) ?_ (literal_told (.string text))
      fun _ hp => absurd hp List.not_mem_nil
    rintro rfl
    simp [leafTags] at htag
  | operation hentry hform hlayout hholds hfill hoperand hfields ihoperand ihfields =>
    refine operation_told (.operation hentry hform hlayout hholds hfill hoperand hfields) ?_
      ihoperand ihfields
    have hreserved := Catalog.layout_tag_not_reserved _ hentry (by simp [hform, hlayout])
    exact fun htag => hreserved (htag ▸ by simp [Catalog.reservedTags])
  | letIn hvalues hbody ihvalues ihbody =>
    exact let_told (.letIn hvalues hbody) ihvalues (by simpa using ihbody)
  | lambda hparameters hnames hbody ihparameters ihbody =>
    exact operation_told (.lambda hparameters hnames hbody) (by simp) ihparameters
      (by simpa using ihbody)

end Expr

/-- The wire form is unambiguous: nodes that builders give, without floats that are not finite, are
equal if their documents are. -/
theorem Obtained.same_of_toDocument {a b : Expr} (ha : Obtained a) (hb : Obtained b)
    (hfinite : a.finite = true) (hfinite' : b.finite = true)
    (h : a.toDocument.same b.toDocument = true) : a.same b = true :=
  Expr.told_of_formed ha.formed hfinite b hb.formed hfinite' h

/-! ## Nodes that are built in two ways -/

/-- The builder of lets. -/
def letBuilder : Builder where
  entry := ⟨.basic, "let_", "let", "let_(bindings, body)", false, some ⟨"let", .letIn⟩⟩
  tag := "let"
  form := .letIn
  listed := by simp [Catalog.entries, Catalog.basicEntries]
  recipe := rfl

/-- The builder of sums. -/
def addBuilder : Builder where
  entry := ⟨.math, "add", "add", "add(values...)", true, some ⟨"add", .variadic⟩⟩
  tag := "add"
  form := .variadic
  listed := by simp [Catalog.entries, Catalog.mathEntries]
  recipe := rfl

/-- A let of an object literal with bytes and a zero, around a sum. -/
def zeroUnderLet (zero : Binary64) : Expr :=
  .operation "let"
    (.array [.binding "x"
      (.object [("data", .literal (.bytes [0, 255])), ("zero", .literal (.float zero))])])
    [("in", .operation "add" (.array [variableNode "x", .literal (.integer 1)]) [])]

/-- The entry comes first, and the body is a node. -/
theorem obtained_zeroUnderLet : Obtained (zeroUnderLet ⟨0⟩) := by
  let value : Program := .object
    [("zero", .literal (.float ⟨0⟩)), ("data", .leaf (.bytes [0, 255]))]
  let body : Program := .call addBuilder
    [(.item, .leaf (.variable "x")), (.item, .literal (.integer 1))]
  let term : Program := .call letBuilder [(.entry "x", value), (.field "in", body)]
  have hterm : term.Within .free := by
    simp [term, value, body, letBuilder, Program.Within, Program.WithinOperands,
      Program.WithinFields, Usage.free]
  have hbuild : term.build .byDepth [] 0 = .ok (zeroUnderLet ⟨0⟩) 0 := rfl
  exact .of_build hterm hbuild

/-- The entry comes last, in the order of its names and with the other zero, and the body is what a
function gives. -/
theorem obtained_zeroUnderLet_negative : Obtained (zeroUnderLet ⟨0x8000000000000000⟩) := by
  let value : Program := .keyed
    [("data", .leaf (.bytes [0, 255])), ("zero", .literal (.float ⟨0x8000000000000000⟩))]
  let body : Program := .function ["y"]
    (.call addBuilder [(.item, .get "y"), (.item, .literal (.integer 1))])
  let term : Program := .call letBuilder [(.field "in", body), (.entry "x", value)]
  have hterm : term.Within .free := by
    simp [term, value, body, letBuilder, Program.Within, Program.WithinOperands,
      Program.WithinFields, Usage.free, Usage.under]
  have hbuild : term.build .byDepth [] 0 = .ok (zeroUnderLet ⟨0x8000000000000000⟩) 0 := rfl
  exact .of_build hterm hbuild

/-- Nodes that differ by the sign of a zero only, and their documents. -/
theorem zeroUnderLet_same :
    let a := zeroUnderLet ⟨0⟩
    let b := zeroUnderLet ⟨0x8000000000000000⟩
    a ≠ b ∧ Obtained a ∧ Obtained b ∧ a.finite = true ∧ b.finite = true ∧
      a.toDocument.same b.toDocument = true ∧ a.same b = true := by
  intro a b
  have hne : a ≠ b := by
    intro hab
    injection hab with _ hvalues
    simp at hvalues
  have hdocuments : a.toDocument.same b.toDocument = true := by decide +kernel
  refine ⟨hne, obtained_zeroUnderLet, obtained_zeroUnderLet_negative, by decide, by decide,
    hdocuments, ?_⟩
  apply obtained_zeroUnderLet.same_of_toDocument obtained_zeroUnderLet_negative
  · decide
  · decide
  · exact hdocuments

end QueryTree
