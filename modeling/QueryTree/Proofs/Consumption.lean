import QueryTree.Document.Reader

/-!
# What a reader takes

A document is read from the characters of its text, each part from characters of its own. So a
property of documents and of the number of characters spent on them holds of all that is read, if it
passes from the parts to the whole. A scan is followed with a credit of characters: what it gives is
worth no more than the characters it takes and the credit together.
-/

namespace QueryTree.Document

/-- Each element has the property with a number of its own, and the numbers add up. -/
inductive Each {α : Type} (P : α → Nat → Prop) : List α → Nat → Prop
  | nil : Each P [] 0
  | cons {a : α} {as : List α} {m n : Nat} : P a m → Each P as n → Each P (a :: as) (m + n)

/-- Neither a list nor an object. -/
def Scalar : Document → Prop
  | .array _ | .object _ => False
  | _ => True

/-- The property passes from the parts of a document to the whole. An object takes a character
besides those of its values, whatever names repeat. -/
structure Composed (P : Document → Nat → Prop) : Prop where
  scalar {d : Document} : d.Scalar → P d 0
  array {items : List Document} {n : Nat} : Each P items n → P (.array items) n
  object {pairs : List (String × Document)} {n : Nat} :
    Each (fun p => P p.2) pairs n → P (ofFields pairs) (n + 1)

namespace Scan

variable {α β : Type} {credit : Nat} {P : α → Nat → Prop} {Q : β → Nat → Prop}

/-- What the scan gives has the property with a number that the characters taken and the credit
pay for. -/
def Affords (credit : Nat) (P : α → Nat → Prop) (x : Scan α) : Prop :=
  ∀ s a rest, x s = .ok (a, rest) → ∃ n, P a n ∧ n + rest.length ≤ s.length + credit

/-- The scan leaves no more than there is. -/
abbrev Shortens (x : Scan α) : Prop := Affords 0 (fun _ _ => True) x

theorem shortens_of_length {x : Scan α}
    (h : ∀ s a rest, x s = .ok (a, rest) → rest.length ≤ s.length) : Shortens x :=
  fun s a rest hrun => ⟨0, trivial, Nat.zero_add _ ▸ h s a rest hrun⟩

theorem Affords.more {x : Scan α} (h : Affords 0 P x) (credit : Nat) :
    Affords credit (fun a n => ∃ m, P a m ∧ n = m + credit) x := by
  intro s a rest hrun
  obtain ⟨n, ha, htaken⟩ := h s a rest hrun
  exact ⟨n + credit, ⟨n, ha, rfl⟩, by omega⟩

theorem affords_pure {a : α} {n : Nat} (h : P a n) (hcredit : n ≤ credit) :
    Affords credit P (pure a) := by
  intro s a' rest hrun
  cases hrun
  exact ⟨n, h, by omega⟩

theorem shortens_pure (a : α) : Shortens (pure a) := affords_pure trivial (Nat.zero_le 0)

theorem affords_bind {x : Scan α} {f : α → Scan β} (hx : Affords credit P x)
    (hf : ∀ a n, P a n → Affords n Q (f a)) : Affords credit Q (x >>= f) := by
  intro s b rest hrun
  rw [bind_apply] at hrun
  cases hresult : x s with
  | ok result =>
    obtain ⟨a, middle⟩ := result
    rw [hresult] at hrun
    obtain ⟨n, ha, hfirst⟩ := hx s a middle hresult
    obtain ⟨m, hb, hrest⟩ := hf a n ha middle b rest hrun
    exact ⟨m, hb, by omega⟩
  | error halt =>
    rw [hresult] at hrun
    cases hrun

/-- A credit is left to what comes next. -/
theorem Shortens.affords_bind {x : Scan α} {f : α → Scan β} (hx : Shortens x)
    (hf : ∀ a, Affords credit Q (f a)) : Affords credit Q (x >>= f) := by
  refine Scan.affords_bind (hx.more credit) fun a n hn => ?_
  obtain ⟨m, -, rfl⟩ := hn
  intro s b rest hrun
  obtain ⟨k, hb, htaken⟩ := hf a s b rest hrun
  exact ⟨k, hb, by omega⟩

theorem affords_halt (reason : Reason) : Affords credit P (halt reason) := nofun

theorem affords_haltAt (reason : Reason) : Affords credit P (haltAt reason) := nofun

theorem affords_haltAfter (reason : Reason) : Affords credit P (haltAfter reason) := nofun

theorem shortens_takeWhile (test : Char → Bool) : Shortens (takeWhile test) := by
  refine shortens_of_length fun s a rest hrun => ?_
  cases hrun
  exact (List.dropWhile_sublist test).length_le

theorem shortens_skipBlank : Shortens skipBlank := by
  refine shortens_of_length fun s a rest hrun => ?_
  cases hrun
  exact (List.dropWhile_sublist isBlank).length_le

theorem shortens_take? (test : Char → Bool) : Shortens (take? test) := by
  refine shortens_of_length fun s a rest hrun => ?_
  cases s with
  | nil =>
    cases hrun
    exact Nat.le_refl _
  | cons c s =>
    rw [take?] at hrun
    split at hrun <;>
    · cases hrun
      simp

theorem shortens_next? : Shortens next? := by
  refine shortens_of_length fun s a rest hrun => ?_
  cases s <;>
  · cases hrun
    simp

theorem shortens_peek? : Shortens peek? := by
  refine shortens_of_length fun s a rest hrun => ?_
  cases hrun
  exact Nat.le_refl _

theorem shortens_advance : Shortens advance := by
  refine shortens_of_length fun s a rest hrun => ?_
  cases hrun
  simp

end Scan

namespace Reader

open Scan

/-! ## Strings -/

theorem shortens_hexUnit : Shortens hexUnit := by
  refine shortens_of_length fun s a rest hrun => ?_
  rw [hexUnit] at hrun
  split at hrun
  · cases hrun
  · split at hrun
    · cases hrun
      simp
    · cases hrun

theorem shortens_expectInEscape (c : Char) : Shortens (expectInEscape c) := by
  refine shortens_of_length fun s a rest hrun => ?_
  cases s with
  | nil => cases hrun
  | cons d s =>
    rw [expectInEscape] at hrun
    split at hrun
    · cases hrun
      simp
    · cases hrun

theorem shortens_coded : Shortens coded := by
  refine shortens_hexUnit.affords_bind fun unit => ?_
  split
  · exact affords_halt _
  · split
    · refine (shortens_expectInEscape _).affords_bind fun _ => ?_
      refine (shortens_expectInEscape _).affords_bind fun _ => ?_
      refine shortens_hexUnit.affords_bind fun low => ?_
      split
      · exact shortens_pure _
      · exact affords_halt _
    · exact shortens_pure _

theorem shortens_escaped : Shortens escaped := by
  intro s a rest hrun
  cases s with
  | nil => cases hrun
  | cons c s =>
    rw [escaped] at hrun
    split at hrun
    · obtain ⟨n, -, htaken⟩ := shortens_coded s a rest hrun
      exact ⟨n, trivial, Nat.le_succ_of_le htaken⟩
    · split at hrun
      · cases hrun
        exact ⟨0, trivial, by simp⟩
      · cases hrun

theorem shortens_characters (fuel : Nat) : Shortens (characters fuel) := by
  induction fuel with
  | zero => exact affords_halt _
  | succ fuel ih =>
    have hmore : ∀ x : Char, Shortens (return x :: (← characters fuel)) := fun x =>
      ih.affords_bind fun _ => shortens_pure _
    refine shortens_next?.affords_bind fun next => ?_
    cases next with
    | none => exact affords_halt _
    | some c =>
      dsimp only
      split
      · exact shortens_pure _
      split
      · exact shortens_escaped.affords_bind hmore
      split
      · exact affords_halt _
      · exact hmore c

theorem shortens_string : Shortens string := by
  have hcharacters : Shortens fun s => characters (s.length + 1) s := fun s =>
    shortens_characters (s.length + 1) s
  exact hcharacters.affords_bind fun _ => shortens_pure _

/-! ## Brackets -/

theorem shortens_another (closing : Char) (atEnd otherwise : Reason) :
    Shortens (another closing atEnd otherwise) := by
  refine shortens_skipBlank.affords_bind fun _ => shortens_peek?.affords_bind fun next => ?_
  cases next with
  | none => exact affords_haltAt _
  | some c =>
    dsimp only
    split
    · exact shortens_advance.affords_bind fun _ => shortens_pure _
    split
    · refine shortens_advance.affords_bind fun _ => shortens_skipBlank.affords_bind fun _ => ?_
      refine shortens_peek?.affords_bind fun next => ?_
      cases next with
      | none => exact affords_haltAt _
      | some d =>
        dsimp only
        split
        · exact affords_haltAt _
        · exact shortens_pure _
    · exact affords_haltAt _

theorem shortens_nonempty (closing : Char) (atEnd : Reason) :
    Shortens (nonempty closing atEnd) := by
  refine shortens_skipBlank.affords_bind fun _ => shortens_peek?.affords_bind fun next => ?_
  cases next with
  | none => exact affords_haltAt _
  | some c =>
    dsimp only
    split
    · exact shortens_advance.affords_bind fun _ => shortens_pure _
    · exact shortens_pure _

theorem shortens_fieldName : Shortens fieldName := by
  refine (shortens_take? _).affords_bind fun quote => ?_
  cases quote with
  | none => exact affords_haltAt _
  | some _ =>
    refine shortens_string.affords_bind fun name => shortens_skipBlank.affords_bind fun _ => ?_
    refine shortens_peek?.affords_bind fun next => ?_
    cases next with
    | none => exact affords_haltAt _
    | some c =>
      dsimp only
      split
      · exact shortens_advance.affords_bind fun _ => shortens_pure _
      · exact affords_haltAt _

section

variable {α : Type} {P : α → Nat → Prop} {entry : Scan α}

theorem affords_entries (h : Affords 0 P entry) (closing : Char) (atEnd otherwise : Reason)
    (fuel : Nat) : Affords 0 (Each P) (entries entry closing atEnd otherwise fuel) := by
  induction fuel with
  | zero => exact affords_halt _
  | succ fuel ih =>
    refine affords_bind h fun first m hfirst => ?_
    refine (shortens_another closing atEnd otherwise).affords_bind fun more => ?_
    cases more with
    | false => exact affords_pure (.cons hfirst .nil) (Nat.le_refl _)
    | true =>
      refine affords_bind (ih.more m) fun rest n hrest => ?_
      obtain ⟨k, hrest, rfl⟩ := hrest
      exact affords_pure (.cons hfirst hrest) (Nat.le_of_eq (Nat.add_comm _ _))

theorem affords_bracketed (h : Affords 0 P entry) (closing : Char) (atEnd otherwise : Reason) :
    Affords 0 (Each P) (bracketed entry closing atEnd otherwise) := by
  refine (shortens_nonempty closing atEnd).affords_bind fun nonempty => ?_
  cases nonempty with
  | false => exact affords_pure .nil (Nat.le_refl _)
  | true => exact fun s => affords_entries h closing atEnd otherwise (s.length + 1) s

end

/-! ## Numerals -/

theorem shortens_whole : Shortens Numeral.whole := by
  intro s a rest hrun
  cases s with
  | nil => cases hrun
  | cons c s =>
    rw [Numeral.whole] at hrun
    split at hrun
    · cases hrun
    split at hrun
    · exact shortens_takeWhile _ _ _ _ hrun
    split at hrun
    · cases hrun
    · cases hrun
      exact ⟨0, trivial, by simp⟩

theorem shortens_fraction (x : Numeral.Scaled) : Shortens (Numeral.fraction x) := by
  refine (shortens_takeWhile _).affords_bind fun ds => ?_
  cases ds with
  | nil =>
    refine shortens_peek?.affords_bind fun next => ?_
    cases next <;> exact affords_haltAt _
  | cons d ds => exact shortens_pure _

theorem shortens_exponent (x : Numeral.Scaled) : Shortens (Numeral.exponent x) := by
  refine (shortens_take? _).affords_bind fun sign => ?_
  refine (shortens_takeWhile _).affords_bind fun ds => ?_
  cases ds with
  | nil =>
    refine shortens_peek?.affords_bind fun next => ?_
    cases next with
    | none => exact affords_halt _
    | some _ => exact affords_haltAfter _
  | cons d ds =>
    dsimp only
    split
    · exact shortens_pure _
    split
    · exact shortens_pure _
    · exact nofun

section

variable {P : Document → Nat → Prop}

theorem affords_scalar (hP : Composed P) {d : Document} (h : d.Scalar) : Affords 0 P (pure d) :=
  affords_pure (hP.scalar h) (Nat.le_refl _)

theorem affords_ofFinite (hP : Composed P) (negative : Bool) (x : Binary64) :
    Affords 0 P (Numeral.ofFinite negative x) := by
  rw [Numeral.ofFinite]
  split
  · exact affords_scalar hP trivial
  · exact affords_halt _

theorem affords_ofWhole (hP : Composed P) (negative : Bool) (x : Numeral.Scaled) :
    Affords 0 P (Numeral.ofWhole negative x) := by
  rw [Numeral.ofWhole]
  split
  · exact affords_ofFinite hP _ _
  split
  · exact affords_scalar hP trivial
  split
  · exact affords_ofFinite hP _ _
  · exact affords_scalar hP trivial

theorem affords_withExponent (hP : Composed P) (negative : Bool) (x : Numeral.Scaled)
    {otherwise : Scan Document} (h : Affords 0 P otherwise) :
    Affords 0 P (Numeral.withExponent negative x otherwise) := by
  refine (shortens_take? _).affords_bind fun mark => ?_
  cases mark with
  | none => exact h
  | some _ => exact (shortens_exponent x).affords_bind fun _ => affords_ofFinite hP _ _

theorem affords_numeral (hP : Composed P) (negative : Bool) :
    Affords 0 P (Numeral.read negative) := by
  refine shortens_whole.affords_bind fun _ => (shortens_take? _).affords_bind fun point => ?_
  cases point with
  | none => exact affords_withExponent hP _ _ (affords_ofWhole hP _ _)
  | some _ =>
    exact (shortens_fraction _).affords_bind fun _ =>
      affords_withExponent hP _ _ (affords_ofFinite hP _ _)

/-! ## Values -/

theorem affords_word (hP : Composed P) {d : Document} (h : d.Scalar) (letters : List Char) :
    Affords 0 P (word d letters) := by
  induction letters with
  | nil => exact affords_scalar hP h
  | cons letter letters ih =>
    intro s a rest hrun
    cases s with
    | nil => cases hrun
    | cons c s =>
      rw [word] at hrun
      split at hrun
      · obtain ⟨n, ha, htaken⟩ := ih s a rest hrun
        exact ⟨n, ha, Nat.le_succ_of_le htaken⟩
      · cases hrun

theorem affords_array (hP : Composed P) {value : Scan Document} (h : Affords 0 P value) :
    Affords 0 P (array value) :=
  affords_bind (affords_bracketed h _ _ _) fun _ _ hitems =>
    affords_pure (hP.array hitems) (Nat.le_refl _)

/-- The opening bracket is the character that an object takes for itself. -/
theorem affords_object (hP : Composed P) {value : Scan Document} (h : Affords 0 P value) :
    Affords 1 P (object value) := by
  have hfield : Affords 0 (fun p => P p.2) (field value) :=
    shortens_fieldName.affords_bind fun _ => affords_bind h fun _ _ hd =>
      affords_pure hd (Nat.le_refl _)
  refine affords_bind ((affords_bracketed hfield _ _ _).more 1) fun pairs n hpairs => ?_
  obtain ⟨m, hpairs, rfl⟩ := hpairs
  exact affords_pure (hP.object hpairs) (Nat.le_refl _)

theorem affords_valueWith (hP : Composed P) {inner : Option (Scan Document)}
    (h : ∀ value ∈ inner, Affords 0 P value) : Affords 0 P (valueWith inner) := by
  have hstring : Affords 0 P (return Document.string (← string)) :=
    shortens_string.affords_bind fun _ => affords_scalar hP trivial
  intro s d rest hrun
  cases s with
  | nil => cases hrun
  | cons c s =>
    have hskip : ∀ {x : Scan Document}, Affords 0 P x → x s = .ok (d, rest) →
        ∃ n, P d n ∧ n + rest.length ≤ (c :: s).length + 0 := by
      intro x hx hread
      obtain ⟨n, hd, htaken⟩ := hx s d rest hread
      exact ⟨n, hd, Nat.le_succ_of_le htaken⟩
    simp only [valueWith] at hrun
    split at hrun
    · exact hskip (affords_word hP (show Scalar .null from trivial) _) hrun
    split at hrun
    · exact hskip (affords_word hP (show Scalar (.bool true) from trivial) _) hrun
    split at hrun
    · exact hskip (affords_word hP (show Scalar (.bool false) from trivial) _) hrun
    split at hrun
    · exact hskip hstring hrun
    split at hrun
    · exact hskip (affords_numeral hP true) hrun
    split at hrun
    · exact affords_numeral hP false _ d rest hrun
    split at hrun
    · cases inner with
      | none => cases hrun
      | some value =>
        have hvalue : Affords 0 P value := h value rfl
        simp only at hrun
        split at hrun
        · exact hskip (affords_array hP hvalue) hrun
        · exact affords_object hP hvalue s d rest hrun
    · cases hrun

theorem affords_value (hP : Composed P) (depth : Nat) : Affords 0 P (value depth) := by
  induction depth with
  | zero => exact shortens_skipBlank.affords_bind fun _ => affords_valueWith hP nofun
  | succ depth ih =>
    refine shortens_skipBlank.affords_bind fun _ => affords_valueWith hP fun value hvalue => ?_
    cases hvalue
    exact ih

theorem affords_document (hP : Composed P) : Affords 0 P document := by
  refine affords_bind (affords_value hP _) fun d n hd => shortens_skipBlank.affords_bind fun _ => ?_
  refine shortens_peek?.affords_bind fun next => ?_
  cases next with
  | none => exact affords_pure hd (Nat.le_refl _)
  | some _ => exact affords_haltAt _

end

end Reader

/-- What is read from a text has the property, with a number within the length of the text. -/
theorem Composed.of_parse {P : Document → Nat → Prop} (hP : Composed P) {text : String}
    {d : Document} (h : parse text = .ok d) : ∃ n, P d n ∧ n ≤ text.length := by
  rw [parse] at h
  split at h
  · rename_i read rest hread
    cases h
    obtain ⟨n, hd, htaken⟩ := Reader.affords_document hP _ _ _ hread
    rw [String.length_toList] at htaken
    exact ⟨n, hd, by omega⟩
  · cases h

end QueryTree.Document
