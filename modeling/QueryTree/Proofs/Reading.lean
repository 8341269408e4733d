import QueryTree.Proofs.Data
import QueryTree.Document.Reader
import QueryTree.Document.Writer

/-!
# Reading what is written

The reader takes from a written document what was written, in either layout: strings with their
escapes, whole numbers of 64 bits, and brackets as far as they may stand inside one another.
-/

namespace QueryTree.Document.Reader

open Scan

/-! ## Single characters -/

theorem next?_cons (c : Char) (s : List Char) : next? (c :: s) = .ok (some c, s) := rfl

theorem peek?_cons (c : Char) (s : List Char) : peek? (c :: s) = .ok (some c, c :: s) := rfl

theorem skipBlank_append {blanks : List Char} (hblanks : ∀ c ∈ blanks, isBlank c = true) {c : Char}
    (h : isBlank c = false) (s : List Char) :
    skipBlank (blanks ++ c :: s) = .ok ((), c :: s) := by
  rw [skipBlank, List.dropWhile_append_of_pos hblanks, List.dropWhile_cons_of_neg (by simp [h])]

theorem skipBlank_cons {c : Char} (h : isBlank c = false) (s : List Char) :
    skipBlank (c :: s) = .ok ((), c :: s) :=
  skipBlank_append (List.forall_mem_nil _) h s

/-! ## Strings -/

theorem hexValue?_hexDigit : ∀ n < 16,
    hexValue? (Quoted.hexDigit n) = some n ∧ (Quoted.hexDigit n).utf8Size = 1 := by decide

/-- Four digits, as they are written for a control character. -/
theorem hexUnit_control {n : Nat} (h : n < 32) (rest : List Char) :
    hexUnit ('0' :: '0' :: Quoted.hexDigit (n / 16) :: Quoted.hexDigit (n % 16) :: rest) =
      .ok (n, rest) := by
  obtain ⟨hhigh, hhighSize⟩ := hexValue?_hexDigit (n / 16) (by omega)
  obtain ⟨hlow, hlowSize⟩ := hexValue?_hexDigit (n % 16) (by omega)
  have hzero : hexValue? '0' = some 0 := by decide
  have hlength :
      ¬ byteLength ['0', '0', Quoted.hexDigit (n / 16), Quoted.hexDigit (n % 16)] < 4 := by
    simp only [byteLength, hhighSize, hlowSize]
    decide
  simp [hexUnit, List.take, hlength, hzero, hhigh, hlow, Nat.div_add_mod]

theorem escaped_control {c : Char} (h : c.toNat < 32) (rest : List Char) :
    escaped ('u' :: '0' :: '0' :: Quoted.hexDigit (c.toNat / 16) ::
      Quoted.hexDigit (c.toNat % 16) :: rest) = .ok (c, rest) := by
  have htrailing : isTrailing c.toNat = false := by simp [isTrailing]; omega
  have hleading : isLeading c.toNat = false := by simp [isLeading]; omega
  rw [escaped, if_pos rfl, coded, bind_ok (hexUnit_control h rest)]
  simp [htrailing, hleading]

theorem characters_escaped {c : Char} {s rest : List Char} (h : escaped s = .ok (c, rest))
    (fuel : Nat) :
    characters (fuel + 1) ('\\' :: s) = (do return c :: (← characters fuel)) rest := by
  have hbackslash : ¬ '\\' = '"' := by decide
  rw [characters, bind_ok (next?_cons '\\' s)]
  simp only [hbackslash, if_false, if_true]
  exact bind_ok h _

theorem characters_plain {c : Char} (hquote : c ≠ '"') (hbackslash : c ≠ '\\')
    (hcontrol : ¬ c.toNat < 32) (fuel : Nat) (rest : List Char) :
    characters (fuel + 1) (c :: rest) = (do return c :: (← characters fuel)) rest := by
  rw [characters, bind_ok (next?_cons c rest)]
  simp only [hquote, hbackslash, hcontrol, if_false]

/-- Characters that are escaped by a letter, each with its letter. -/
def letters : List (Char × Char) :=
  [('"', '"'), ('\\', '\\'), ('\x08', 'b'), ('\x0c', 'f'), ('\n', 'n'), ('\r', 'r'), ('\t', 't')]

theorem escape_letters : ∀ p ∈ letters, p.2 ≠ 'u' ∧ lettered? p.2 = some p.1 ∧
    Quoted.escape p.1 = ['\\', p.2] := by decide

/-- An escape is a letter or a number after a backslash, or there is none. -/
theorem escape_cases (c : Char) :
    (∃ letter, letter ≠ 'u' ∧ lettered? letter = some c ∧
      Quoted.escape c = ['\\', letter]) ∨
    (c.toNat < 32 ∧ Quoted.escape c =
      ['\\', 'u', '0', '0', Quoted.hexDigit (c.toNat / 16), Quoted.hexDigit (c.toNat % 16)]) ∨
    (c ≠ '"' ∧ c ≠ '\\' ∧ ¬ c.toNat < 32 ∧ Quoted.escape c = [c]) := by
  by_cases hletter : c ∈ letters.map Prod.fst
  · obtain ⟨p, hp, rfl⟩ := List.mem_map.1 hletter
    exact .inl ⟨p.2, escape_letters p hp⟩
  · simp only [letters, List.map_cons, List.map_nil, List.mem_cons, List.not_mem_nil, or_false,
      not_or] at hletter
    obtain ⟨hquote, hbackslash, hbackspace, hfeed, hnewline, hreturn, htab⟩ := hletter
    have hescape : Quoted.escape c = if c.toNat < 32 then
        ['\\', 'u', '0', '0', Quoted.hexDigit (c.toNat / 16), Quoted.hexDigit (c.toNat % 16)]
        else [c] := by
      rw [Quoted.escape, if_neg hquote, if_neg hbackslash, if_neg hbackspace, if_neg hfeed,
        if_neg hnewline, if_neg hreturn, if_neg htab]
    by_cases hcontrol : c.toNat < 32
    · exact .inr (.inl ⟨hcontrol, hescape.trans (if_pos hcontrol)⟩)
    · exact .inr (.inr ⟨hquote, hbackslash, hcontrol, hescape.trans (if_neg hcontrol)⟩)

/-- A character is read back from its escape. -/
theorem characters_escape (fuel : Nat) (c : Char) (rest : List Char) :
    characters (fuel + 1) (Quoted.escape c ++ rest) =
      (do return c :: (← characters fuel)) rest := by
  obtain ⟨letter, hu, hletter, hescape⟩ | ⟨hcontrol, hescape⟩ |
    ⟨hquote, hbackslash, hcontrol, hescape⟩ := escape_cases c
  · have hescaped : escaped (letter :: rest) = .ok (c, rest) := by rw [escaped, if_neg hu, hletter]
    rw [hescape]
    exact characters_escaped hescaped fuel
  · rw [hescape]
    exact characters_escaped (escaped_control hcontrol rest) fuel
  · rw [hescape]
    exact characters_plain hquote hbackslash hcontrol fuel rest

theorem characters_flatMap {fuel : Nat} {text : List Char} (h : text.length < fuel)
    (rest : List Char) :
    characters fuel (text.flatMap Quoted.escape ++ '"' :: rest) = .ok (text, rest) := by
  induction text generalizing fuel with
  | nil =>
    cases fuel with
    | zero => cases h
    | succ fuel => rfl
  | cons c text ih =>
    cases fuel with
    | zero => cases h
    | succ fuel =>
      rw [List.flatMap_cons, List.append_assoc, characters_escape,
        bind_ok (ih (Nat.lt_of_succ_lt_succ h))]
      rfl

theorem escape_ne_nil (c : Char) : Quoted.escape c ≠ [] := by
  obtain ⟨_, _, _, hescape⟩ | ⟨_, hescape⟩ | ⟨_, _, _, hescape⟩ := escape_cases c
  all_goals
    rw [hescape]
    exact List.cons_ne_nil _ _

theorem length_le_flatMap {α β : Type} {f : α → List β} (h : ∀ a, f a ≠ []) (l : List α) :
    l.length ≤ (l.flatMap f).length := by
  induction l with
  | nil => exact Nat.le_refl 0
  | cons a l ih =>
    have ha := List.length_pos_iff.2 (h a)
    rw [List.flatMap_cons, List.length_append, List.length_cons]
    omega

/-- A string is read back after its opening quote. -/
theorem string_quote (text : String) (rest : List Char) :
    string (text.toList.flatMap Quoted.escape ++ '"' :: rest) = .ok (text, rest) := by
  have hlength := length_le_flatMap escape_ne_nil text.toList
  have hfuel : text.toList.length <
      (text.toList.flatMap Quoted.escape ++ '"' :: rest).length + 1 := by
    rw [List.length_append]
    omega
  simp only [string, bind_apply, characters_flatMap hfuel rest, String.ofList_toList]
  rfl

/-! ## Whole numbers -/

/-- What follows does not go on with a numeral. -/
def Delimited (rest : List Char) : Prop :=
  ∀ c ∈ rest.head?, c.isDigit = false ∧ c ≠ '.' ∧ c ≠ 'e' ∧ c ≠ 'E'

theorem delimited_nil : Delimited [] := nofun

theorem delimited_cons {c : Char} {rest : List Char} :
    Delimited (c :: rest) ↔ c.isDigit = false ∧ c ≠ '.' ∧ c ≠ 'e' ∧ c ≠ 'E' := by
  simp [Delimited]

end QueryTree.Document.Reader

namespace QueryTree.Document.Numeral

open Scan Reader

theorem le_ofDigitChars (n : Nat) (ds : List Char) : n ≤ Nat.ofDigitChars 10 ds n := by
  rw [Nat.ofDigitChars_eq_ofDigitChars_zero]
  have hpow : 0 < 10 ^ ds.length := Nat.pow_pos (by decide)
  have hmul := Nat.le_mul_of_pos_left n hpow
  omega

/-- All digits are taken where the number fits 64 bits. -/
theorem gather_eq {n : Nat} {ds : List Char}
    (h : Nat.ofDigitChars 10 ds n < 0x10000000000000000) :
    gather n ds = (Nat.ofDigitChars 10 ds n, []) := by
  induction ds generalizing n with
  | nil => rfl
  | cons d ds ih =>
    rw [Nat.ofDigitChars_cons] at h ⊢
    have hfits := Nat.lt_of_le_of_lt (le_ofDigitChars _ ds) h
    rw [gather]
    exact (if_pos hfits).trans (ih h)

theorem ofWhole_toDigits {n : Nat} (h : n < 0x10000000000000000) :
    Scaled.ofWhole (Nat.toDigits 10 n) = ⟨n, 0⟩ := by
  have hgather := @gather_eq 0 (Nat.toDigits 10 n) (by simpa using h)
  rw [Scaled.ofWhole, hgather, Nat.ofDigitChars_ten_toDigits]
  rfl

/-- No zero stands in front of other digits. -/
theorem head?_toDigits {n : Nat} (h : 0 < n) : (Nat.toDigits 10 n).head? ≠ some '0' := by
  induction n using Nat.strongRecOn with
  | ind n ih =>
    rw [Nat.toDigits_eq_if (by decide)]
    split
    · rename_i hlt
      intro hzero
      have hdigit := congrArg (Option.map (Char.toNat · - 48)) hzero
      simp [Nat.toNat_digitChar_sub_48_of_lt_ten hlt] at hdigit
      omega
    · rename_i hge
      have hhead := ih (n / 10) (by omega) (by omega)
      rwa [List.head?_append_of_ne_nil _ Nat.toDigits_ne_nil]

theorem take?_of_head {test : Char → Bool} {rest : List Char}
    (h : ∀ c ∈ rest.head?, test c = false) : take? test rest = .ok (none, rest) := by
  cases rest with
  | nil => rfl
  | cons c rest =>
    have hc : test c = false := h c rfl
    simp [take?, hc]

/-- The digits of a number are taken as far as they go. -/
theorem whole_toDigits (n : Nat) {rest : List Char} (hrest : Delimited rest) :
    whole (Nat.toDigits 10 n ++ rest) = .ok (Nat.toDigits 10 n, rest) := by
  have hdigits : ∀ c ∈ Nat.toDigits 10 n, c.isDigit = true := fun c hc =>
    Nat.isDigit_of_mem_toDigits (by decide) (by decide) hc
  have hnone : rest.head?.any Char.isDigit = false := by
    cases rest with
    | nil => rfl
    | cons c rest => simpa using (delimited_cons.1 hrest).1
  have hstop : rest.takeWhile Char.isDigit = [] ∧ rest.dropWhile Char.isDigit = rest := by
    cases rest with
    | nil => simp
    | cons c rest => simp_all
  rcases Nat.eq_zero_or_pos n with rfl | hpos
  · rw [Nat.toDigits_zero]
    simp [whole, hnone]
  · have hhead := head?_toDigits hpos
    cases hds : Nat.toDigits 10 n with
    | nil => exact absurd hds Nat.toDigits_ne_nil
    | cons c ds =>
      rw [hds] at hhead hdigits
      have hc : c ≠ '0' := by simpa using hhead
      have hcdigit := hdigits c List.mem_cons_self
      rw [List.cons_append, whole]
      simp only [hcdigit, Bool.not_true, Bool.false_eq_true, if_false, ne_eq, hc, not_false_eq_true,
        if_true, takeWhile]
      rw [← List.cons_append, List.takeWhile_append_of_pos hdigits,
        List.dropWhile_append_of_pos hdigits, hstop.1, hstop.2, List.append_nil]

/-- A number that fits 64 bits is read as a whole number, unless it is a zero with a sign. -/
theorem read_toDigits {negative : Bool} {n : Nat} {rest : List Char} (hrest : Delimited rest)
    (h : if negative then 0 < n ∧ n ≤ 0x8000000000000000 else n < 0x8000000000000000) :
    read negative (Nat.toDigits 10 n ++ rest) =
      .ok (.integer (if negative then -n else n), rest) := by
  have hfits : n < 0x10000000000000000 := by
    split at h <;> omega
  have hpoint : take? (· == '.') rest = .ok (none, rest) := by
    apply take?_of_head
    intro c hc
    exact beq_false_of_ne (hrest c hc).2.1
  have hmark : take? (fun c => c == 'e' || c == 'E') rest = .ok (none, rest) := by
    apply take?_of_head
    intro c hc
    rw [beq_false_of_ne (hrest c hc).2.2.1, beq_false_of_ne (hrest c hc).2.2.2]
    rfl
  rw [read, bind_ok (whole_toDigits n hrest), ofWhole_toDigits hfits, bind_ok hpoint]
  simp only
  rw [withExponent, bind_ok hmark, ofWhole, if_neg (not_not.2 rfl)]
  cases negative with
  | false => rfl
  | true =>
    have hbounds : ¬ (n = 0 ∨ 0x8000000000000000 < n) := by
      simp only [if_true] at h
      omega
    simp only [Bool.not_true, Bool.false_eq_true, if_false, hbounds, if_true]
    rfl

end QueryTree.Document.Numeral

namespace QueryTree

/-- Only blanks stand between entries. -/
theorem Layout.isBlank_of_mem_lineBreak (layout : Layout) (level : Nat) :
    ∀ c ∈ layout.lineBreak level, Document.Scan.isBlank c = true := by
  intro c hc
  cases layout with
  | compact => cases hc
  | indented =>
    rcases List.mem_cons.1 hc with rfl | hc
    · rfl
    · rw [List.eq_of_mem_replicate hc]
      rfl

namespace Document.Reader

open Scan

/-! ## Entries in brackets -/

/-- The scan takes the value from the front of a text that goes on with no numeral. -/
def Takes {α : Type} (scan : Scan α) (text : List Char) (a : α) : Prop :=
  ∀ rest, Delimited rest → scan (text ++ rest) = .ok (a, rest)

/-- The text starts with a character that is no blank, and no closing bracket. -/
def Opens (text : List Char) : Prop :=
  ∃ c s, text = c :: s ∧ isBlank c = false ∧ c ≠ ']' ∧ c ≠ '}'

theorem Opens.append {text : List Char} (h : Opens text) (rest : List Char) :
    Opens (text ++ rest) := by
  obtain ⟨c, s, rfl, hc⟩ := h
  exact ⟨c, s ++ rest, rfl, hc⟩

theorem skipBlank_of_opens {blanks s : List Char} (hblanks : ∀ c ∈ blanks, isBlank c = true)
    (h : Opens s) : skipBlank (blanks ++ s) = .ok ((), s) := by
  obtain ⟨c, s, rfl, hc, -⟩ := h
  exact skipBlank_append hblanks hc s

section

variable {α : Type} {closing : Char} {atEnd otherwise : Reason} {blanks : List Char}

theorem delimited_closing (hclosing : closing = ']' ∨ closing = '}')
    (hblanks : ∀ c ∈ blanks, isBlank c = true) (rest : List Char) :
    Delimited (blanks ++ closing :: rest) := by
  cases blanks with
  | nil => rcases hclosing with rfl | rfl <;> exact delimited_cons.2 (by decide)
  | cons c blanks =>
    have hc := hblanks c List.mem_cons_self
    simp only [isBlank, Bool.or_eq_true, beq_iff_eq] at hc
    rcases hc with ((rfl | rfl) | rfl) | rfl <;> exact delimited_cons.2 (by decide)

theorem another_closing (hclosing : closing = ']' ∨ closing = '}')
    (hblanks : ∀ c ∈ blanks, isBlank c = true) (rest : List Char) :
    another closing atEnd otherwise (blanks ++ closing :: rest) = .ok (false, rest) := by
  have hblank : isBlank closing = false := by rcases hclosing with rfl | rfl <;> rfl
  rw [another, bind_ok (skipBlank_append hblanks hblank rest), bind_ok (peek?_cons closing rest)]
  simp only [if_true]
  rfl

theorem another_comma (hclosing : closing = ']' ∨ closing = '}')
    (hblanks : ∀ c ∈ blanks, isBlank c = true) {s : List Char} (hopens : Opens s) :
    another closing atEnd otherwise (',' :: (blanks ++ s)) = .ok (true, s) := by
  have hskip := skipBlank_of_opens hblanks hopens
  have hcomma : ',' ≠ closing := by rcases hclosing with rfl | rfl <;> decide
  obtain ⟨c, s, rfl, -, hlist, hobject⟩ := hopens
  have hc : c ≠ closing := by rcases hclosing with rfl | rfl <;> assumption
  have hadvance : advance (',' :: (blanks ++ c :: s)) = .ok ((), blanks ++ c :: s) := rfl
  rw [another, bind_ok (skipBlank_cons rfl _), bind_ok (peek?_cons ',' _)]
  simp only [hcomma, if_false, if_true]
  rw [bind_ok hadvance, bind_ok hskip, bind_ok (peek?_cons c s)]
  simp only [hc, if_false]
  rfl

theorem nonempty_closing (hclosing : closing = ']' ∨ closing = '}') (rest : List Char) :
    nonempty closing atEnd (closing :: rest) = .ok (false, rest) := by
  have hblank : isBlank closing = false := by rcases hclosing with rfl | rfl <;> rfl
  rw [nonempty, bind_ok (skipBlank_cons hblank rest), bind_ok (peek?_cons closing rest)]
  simp only [if_true]
  rfl

theorem nonempty_opens (hclosing : closing = ']' ∨ closing = '}')
    (hblanks : ∀ c ∈ blanks, isBlank c = true) {s : List Char} (hopens : Opens s) :
    nonempty closing atEnd (blanks ++ s) = .ok (true, s) := by
  have hskip := skipBlank_of_opens hblanks hopens
  obtain ⟨c, s, rfl, -, hlist, hobject⟩ := hopens
  have hc : c ≠ closing := by rcases hclosing with rfl | rfl <;> assumption
  rw [nonempty, bind_ok hskip, bind_ok (peek?_cons c s)]
  simp only [hc, if_false]
  rfl

/-- Entries that are taken one by one are taken together, up to the closing bracket. -/
theorem entries_eq {entry : Scan α} (hclosing : closing = ']' ∨ closing = '}')
    {blanks' : List Char} (hblanks : ∀ c ∈ blanks, isBlank c = true)
    (hblanks' : ∀ c ∈ blanks', isBlank c = true) {first : α × List Char}
    {others : List (α × List Char)}
    (h : ∀ p ∈ first :: others, Takes entry p.2 p.1 ∧ Opens p.2) {fuel : Nat}
    (hfuel : others.length < fuel) (rest : List Char) :
    entries entry closing atEnd otherwise fuel
      (first.2 ++ (others.flatMap (fun p => ',' :: (blanks ++ p.2)) ++
        (blanks' ++ closing :: rest))) = .ok (first.1 :: others.map Prod.fst, rest) := by
  induction others generalizing first fuel with
  | nil =>
    obtain ⟨htakes, -⟩ := h first List.mem_cons_self
    cases fuel with
    | zero => cases hfuel
    | succ fuel =>
      rw [entries, List.flatMap_nil, List.nil_append,
        bind_ok (htakes _ (delimited_closing hclosing hblanks' rest)),
        bind_ok (another_closing hclosing hblanks' rest)]
      rfl
  | cons next others ih =>
    obtain ⟨⟨htakes, -⟩, hothers⟩ := List.forall_mem_cons.1 h
    obtain ⟨-, hopens⟩ := hothers next List.mem_cons_self
    cases fuel with
    | zero => cases hfuel
    | succ fuel =>
      have hrest := ih hothers (Nat.lt_of_succ_lt_succ hfuel)
      have hdelimited : ∀ s, Delimited (',' :: s) := fun s => delimited_cons.2 (by decide)
      rw [entries, List.flatMap_cons]
      simp only [List.append_assoc, List.cons_append]
      rw [bind_ok (htakes _ (hdelimited _)),
        bind_ok (another_comma hclosing hblanks (hopens.append _))]
      simp only [if_true]
      rw [bind_ok hrest]
      rfl

/-- Entries in brackets, after the opening one. -/
theorem bracketed_enclose {entry : Scan α} (hclosing : closing = ']' ∨ closing = '}')
    (layout : Layout) (level : Nat) (opening : Char) {pairs : List (α × List Char)}
    (h : ∀ p ∈ pairs, Takes entry p.2 p.1 ∧ Opens p.2) (rest : List Char) :
    ∃ s, layout.enclose level opening closing (pairs.map Prod.snd) ++ rest = opening :: s ∧
      bracketed entry closing atEnd otherwise s = .ok (pairs.map Prod.fst, rest) := by
  have hblanks := layout.isBlank_of_mem_lineBreak
  cases pairs with
  | nil =>
    refine ⟨closing :: rest, rfl, ?_⟩
    rw [bracketed, bind_ok (nonempty_closing hclosing rest)]
    rfl
  | cons first others =>
    obtain ⟨-, hopens⟩ := h first List.mem_cons_self
    refine ⟨layout.lineBreak (level + 1) ++ (first.2 ++
      (others.flatMap (fun p => ',' :: (layout.lineBreak (level + 1) ++ p.2)) ++
        (layout.lineBreak level ++ closing :: rest))), ?_, ?_⟩
    · simp [Layout.enclose, List.flatMap_map]
    · have hlength : others.length ≤
          (others.flatMap fun p => ',' :: (layout.lineBreak (level + 1) ++ p.2)).length :=
        length_le_flatMap (fun _ => List.cons_ne_nil _ _) others
      rw [bracketed, bind_ok (nonempty_opens hclosing (hblanks (level + 1)) (hopens.append _))]
      apply entries_eq hclosing (hblanks (level + 1)) (hblanks level) h
      simp only [List.length_append]
      omega

end

/-! ## Values -/

/-- A word after its first letter. -/
theorem word_eq (d : Document) (letters rest : List Char) :
    word d letters (letters ++ rest) = .ok (d, rest) := by
  induction letters with
  | nil => rfl
  | cons letter letters ih =>
    rw [List.cons_append, word, if_pos rfl, ih]

/-- Blanks in front of a value are skipped. -/
theorem value_blanks (depth : Nat) {blanks : List Char}
    (hblanks : ∀ c ∈ blanks, isBlank c = true) (s : List Char) :
    value depth (blanks ++ s) = value depth s := by
  cases depth <;>
    simp only [value, bind_apply, skipBlank, List.dropWhile_append_of_pos hblanks]

/-- Without blanks in front, a value is read by its first character. -/
theorem value_eq_valueWith (depth : Nat) {c : Char} (h : isBlank c = false) (s : List Char) :
    value depth (c :: s) = valueWith (match depth with
      | 0 => none
      | depth + 1 => some (value depth)) (c :: s) := by
  cases depth <;> exact bind_ok (skipBlank_cons h s) _

theorem isDigit_head_toDigits (n : Nat) :
    ∃ c ds, Nat.toDigits 10 n = c :: ds ∧ c.isDigit = true := by
  cases hds : Nat.toDigits 10 n with
  | nil => exact absurd hds Nat.toDigits_ne_nil
  | cons c ds =>
    have hmem : c ∈ Nat.toDigits 10 n := by simp [hds]
    exact ⟨c, ds, rfl, Nat.isDigit_of_mem_toDigits (by decide) (by decide) hmem⟩

theorem ne_of_isDigit {c other : Char} (h : c.isDigit = true) (hother : other.isDigit = false) :
    c ≠ other := by
  rintro rfl
  rw [h] at hother
  cases hother

theorem opens_digit {c : Char} (h : c.isDigit = true) (s : List Char) : Opens (c :: s) := by
  refine ⟨c, s, rfl, ?_, ne_of_isDigit h rfl, ne_of_isDigit h rfl⟩
  simp [isBlank, ne_of_isDigit h]

theorem valueWith_digit (inner : Option (Scan Document)) {c : Char} (h : c.isDigit = true)
    (s : List Char) : valueWith inner (c :: s) = Numeral.read false (c :: s) := by
  simp [valueWith, ne_of_isDigit h, h]

theorem takes_integer (depth : Nat) {n : Int} (h : Literal.InRange n) :
    Takes (value depth) (integerText n) (.integer n) := by
  intro rest hrest
  obtain ⟨hlow, hhigh⟩ := h
  rw [integerText]
  split
  · rename_i hneg
    have hread := @Numeral.read_toDigits true n.natAbs rest hrest (by simp; omega)
    rw [List.cons_append, value_eq_valueWith depth (by decide)]
    refine hread.trans ?_
    have hn : -(n.natAbs : Int) = n := by omega
    rw [if_pos rfl, hn]
  · rename_i hneg
    have hread := @Numeral.read_toDigits false n.natAbs rest hrest (by simp; omega)
    obtain ⟨c, ds, hds, hc⟩ := isDigit_head_toDigits n.natAbs
    obtain ⟨_, _, ⟨⟩, hblank, -⟩ := opens_digit hc ds
    rw [hds, List.cons_append] at hread ⊢
    rw [value_eq_valueWith depth hblank, valueWith_digit _ hc]
    refine hread.trans ?_
    have hn : (n.natAbs : Int) = n := by omega
    rw [if_neg Bool.false_ne_true, hn]

theorem takes_string (depth : Nat) (s : String) :
    Takes (value depth) (Quoted.quote s.toList) (.string s) := by
  intro rest _
  rw [Quoted.quote, List.append_assoc, List.cons_append, value_eq_valueWith depth (by decide)]
  have hread : (return Document.string (← string) : Scan Document)
      (s.toList.flatMap Quoted.escape ++ (['"'] ++ rest)) = .ok (.string s, rest) :=
    bind_ok (string_quote s rest) _
  exact hread

theorem fieldName_quote (name : String) (rest : List Char) :
    fieldName (Quoted.quote name.toList ++ ':' :: rest) = .ok (name, rest) := by
  have hquote : Quoted.quote name.toList ++ ':' :: rest =
      '"' :: (name.toList.flatMap Quoted.escape ++ '"' :: ':' :: rest) := by
    simp [Quoted.quote]
  rw [hquote, fieldName, bind_ok (show take? (· == '"') ('"' :: _) = .ok (some '"', _) from rfl)]
  simp only
  rw [bind_ok (string_quote name (':' :: rest)),
    bind_ok (skipBlank_cons rfl rest), bind_ok (peek?_cons ':' rest)]
  rfl

theorem takes_field {depth : Nat} {text : List Char} {d : Document}
    (h : Takes (value depth) text d) (layout : Layout) (name : String) :
    Takes (field (value depth)) (layout.member name text) (name, d) := by
  intro rest hrest
  have hvalue : ∃ s, layout.member name text ++ rest = Quoted.quote name.toList ++ ':' :: s ∧
      value depth s = .ok (d, rest) := by
    cases layout with
    | compact =>
      refine ⟨text ++ rest, ?_, h rest hrest⟩
      simp [Layout.member]
    | indented =>
      refine ⟨[' '] ++ (text ++ rest), ?_, ?_⟩
      · simp [Layout.member]
      · rw [value_blanks depth (by simp [isBlank])]
        exact h rest hrest
  obtain ⟨s, htext, hread⟩ := hvalue
  rw [htext, field, bind_ok (fieldName_quote name s), bind_ok hread]
  rfl

theorem takes_array {depth level : Nat} {layout : Layout} {pairs : List (Document × List Char)}
    (h : ∀ p ∈ pairs, Takes (value depth) p.2 p.1 ∧ Opens p.2) :
    Takes (value (depth + 1)) (layout.enclose level '[' ']' (pairs.map Prod.snd))
      (.array (pairs.map Prod.fst)) := by
  intro rest _
  obtain ⟨s, htext, hread⟩ := @bracketed_enclose _ _ .endInList .expectedListEnd _ (.inl rfl) layout
    level '[' pairs h rest
  have harray : valueWith (some (value depth)) ('[' :: s) = array (value depth) s := rfl
  rw [htext, value_eq_valueWith _ (by decide), harray, array, bind_ok hread]
  rfl

theorem takes_object {depth level : Nat} {layout : Layout}
    {pairs : List ((String × Document) × List Char)}
    (h : ∀ p ∈ pairs, Takes (field (value depth)) p.2 p.1 ∧ Opens p.2) :
    Takes (value (depth + 1)) (layout.enclose level '{' '}' (pairs.map Prod.snd))
      (ofFields (pairs.map Prod.fst)) := by
  intro rest _
  obtain ⟨s, htext, hread⟩ := @bracketed_enclose _ _ .endInObject .expectedObjectEnd _ (.inr rfl)
    layout level '{' pairs h rest
  have hobject : valueWith (some (value depth)) ('{' :: s) = object (value depth) s := rfl
  rw [htext, value_eq_valueWith _ (by decide), hobject, object, bind_ok hread]
  rfl

end Document.Reader

namespace Document

mutual

/-- How many brackets stand inside one another. -/
def depth : Document → Nat
  | .array items => depthItems items + 1
  | .object fields => depthFields fields + 1
  | _ => 0

def depthItems : List Document → Nat
  | [] => 0
  | d :: rest => max (depth d) (depthItems rest)

def depthFields : List (String × Document) → Nat
  | [] => 0
  | (_, d) :: rest => max (depth d) (depthFields rest)

end

theorem depth_le_depthItems {d : Document} {items : List Document} (h : d ∈ items) :
    d.depth ≤ depthItems items := by
  induction items with
  | nil => cases h
  | cons first rest ih =>
    rw [depthItems]
    rcases List.mem_cons.1 h with rfl | h
    · exact Nat.le_max_left _ _
    · exact Nat.le_trans (ih h) (Nat.le_max_right _ _)

theorem depth_le_depthFields {p : String × Document} {fields : List (String × Document)}
    (h : p ∈ fields) : p.2.depth ≤ depthFields fields := by
  induction fields with
  | nil => cases h
  | cons first rest ih =>
    rw [depthFields]
    rcases List.mem_cons.1 h with rfl | h
    · exact Nat.le_max_left _ _
    · exact Nat.le_trans (ih h) (Nat.le_max_right _ _)

namespace Reader

open Scan

theorem opens_enclose (layout : Layout) (level : Nat) {opening : Char} (closing : Char)
    (h : opening = '[' ∨ opening = '{') (entries : List (List Char)) :
    Opens (layout.enclose level opening closing entries) := by
  have hopening : isBlank opening = false ∧ opening ≠ ']' ∧ opening ≠ '}' := by
    rcases h with rfl | rfl <;> decide
  cases entries with
  | nil => exact ⟨opening, _, rfl, hopening⟩
  | cons first rest => exact ⟨opening, _, rfl, hopening⟩

/-- The text of a document starts without a blank. -/
theorem opens_write (layout : Layout) (level : Nat) {d : Document}
    (h : d.Regular fun _ => False) : Opens (d.write layout level) := by
  cases h with
  | null => exact ⟨'n', _, rfl, by decide⟩
  | bool b => cases b <;> exact ⟨_, _, rfl, by decide⟩
  | @integer n hrange =>
    rw [write, integerText]
    split
    · exact ⟨'-', _, rfl, by decide⟩
    · obtain ⟨c, ds, hds, hc⟩ := isDigit_head_toDigits n.natAbs
      rw [hds]
      exact opens_digit hc ds
  | float hfloat => exact hfloat.elim
  | string s => exact ⟨'"', _, rfl, by decide⟩
  | array => exact opens_enclose layout level ']' (.inl rfl) _
  | object => exact opens_enclose layout level '}' (.inr rfl) _

theorem opens_member (layout : Layout) (name : String) (text : List Char) :
    Opens (layout.member name text) := ⟨'"', _, rfl, by decide⟩

theorem takes_word (depth : Nat) {d : Document} {c : Char} {letters : List Char}
    (hblank : isBlank c = false)
    (hword : ∀ inner s, valueWith inner (c :: s) = word d letters s) :
    Takes (value depth) (c :: letters) d := by
  intro rest _
  rw [List.cons_append, value_eq_valueWith depth hblank, hword, word_eq]

/-- A document without floats that is not too deep is read back from its text. -/
theorem takes_write {d : Document} (h : d.Regular fun _ => False) (layout : Layout)
    {depth : Nat} (hdepth : d.depth ≤ depth) (level : Nat) :
    Takes (value depth) (d.write layout level) d := by
  induction h generalizing depth level with
  | null => exact takes_word depth rfl fun _ _ => rfl
  | bool b =>
    cases b with
    | false => exact takes_word depth rfl fun _ _ => rfl
    | true => exact takes_word depth rfl fun _ _ => rfl
  | integer hrange => exact takes_integer depth hrange
  | float hfloat => exact hfloat.elim
  | string s => exact takes_string depth s
  | @array items hitems ih =>
    cases depth with
    | zero => cases hdepth
    | succ depth =>
      have hdeep : depthItems items ≤ depth := Nat.le_of_succ_le_succ hdepth
      have hpairs : ∀ p ∈ items.map fun d => (d, d.write layout (level + 1)),
          Takes (value depth) p.2 p.1 ∧ Opens p.2 := by
        intro p hp
        obtain ⟨d, hd, rfl⟩ := List.mem_map.1 hp
        constructor
        · exact ih d hd (Nat.le_trans (depth_le_depthItems hd) hdeep) (level + 1)
        · exact opens_write layout (level + 1) (hitems d hd)
      have htakes := @takes_array depth level layout _ hpairs
      rw [write, writeItems_eq_map]
      simpa [Function.comp_def] using htakes
  | @object fields hnodup hfields ih =>
    cases depth with
    | zero => cases hdepth
    | succ depth =>
      have hdeep : depthFields fields ≤ depth := Nat.le_of_succ_le_succ hdepth
      have hpairs : ∀ p ∈ fields.map fun p =>
          (p, layout.member p.1 (p.2.write layout (level + 1))),
          Takes (field (value depth)) p.2 p.1 ∧ Opens p.2 := by
        intro p hp
        obtain ⟨q, hq, rfl⟩ := List.mem_map.1 hp
        have hvalue := ih q hq (Nat.le_trans (depth_le_depthFields hq) hdeep) (level + 1)
        exact ⟨takes_field hvalue layout q.1, opens_member layout q.1 _⟩
      have htakes := @takes_object depth level layout _ hpairs
      rw [write, writeFields_eq_map]
      simpa [Function.comp_def, ofFields, Fields.arrival_of_nodup hnodup] using htakes

end Reader

/-- The text of such a document is read as the document. -/
theorem parse_text {d : Document} (h : d.Regular fun _ => False)
    (hdepth : d.depth ≤ Reader.greatestDepth) (layout : Layout) :
    parse (d.text layout) = .ok d := by
  have hread := Reader.takes_write h layout hdepth 0 [] Reader.delimited_nil
  rw [List.append_nil] at hread
  have hdocument : Reader.document (d.write layout 0) = .ok (d, []) := by
    rw [Reader.document, Scan.bind_ok hread]
    rfl
  rw [parse, text, String.toList_ofList, hdocument]

end Document

end QueryTree
