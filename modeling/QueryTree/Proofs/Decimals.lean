import QueryTree.Proofs.Data

/-!
# Literals of decimals

A decimal is held as a sign, a mantissa of 96 bits and a scale. Its literal is made in three steps:
the part after the point is looked at, then the number is converted to 64 bits, and where either
does not serve it becomes a double. However the arithmetic of decimals carries out these steps, as
long as it keeps its laws, the literal is an integer exactly if the number is whole and in range. So
the scale at which a number is written makes no difference.
-/

namespace QueryTree

/-- A decimal of 96 bits. Zero has two signs, and a number as many forms as there are scales that
suffice for it. -/
structure Decimal96 where
  negative : Bool
  magnitude : BitVec 96
  scale : Fin 29
deriving DecidableEq

namespace Decimal96

def mantissa (d : Decimal96) : Int :=
  if d.negative then -(d.magnitude.toNat : Int) else d.magnitude.toNat

/-- The mantissa of one at the scale of the decimal. -/
def unit (d : Decimal96) : Int := (Nat.pow 10 d.scale : Nat)

def toDecimal (d : Decimal96) : Decimal := ⟨d.mantissa, d.scale⟩

/-- The same number, at whatever scales. -/
def SameNumber (d d' : Decimal96) : Prop := d.mantissa * d'.unit = d'.mantissa * d.unit

instance (d d' : Decimal96) : Decidable (d.SameNumber d') := inferInstanceAs (Decidable (_ = _))

theorem unit_pos (d : Decimal96) : 0 < d.unit := Int.ofNat_lt.2 (Nat.pow_pos (by decide))

theorem unit_ne_zero (d : Decimal96) : d.unit ≠ 0 := Int.ne_of_gt d.unit_pos

theorem mantissa_eq_zero (d : Decimal96) : d.mantissa = 0 ↔ d.magnitude = 0 := by
  rw [← BitVec.toNat_inj, mantissa]
  split <;> simp

theorem SameNumber.symm {d d' : Decimal96} (h : d.SameNumber d') : d'.SameNumber d := Eq.symm h

theorem SameNumber.whole {d d' : Decimal96} (h : d.SameNumber d') {n : Int}
    (hwhole : d.mantissa = n * d.unit) : d'.mantissa = n * d'.unit := by
  apply Int.eq_of_mul_eq_mul_right d.unit_ne_zero
  calc d'.mantissa * d.unit = d.mantissa * d'.unit := h.symm
    _ = n * d.unit * d'.unit := by rw [hwhole]
    _ = n * d'.unit * d.unit := Int.mul_right_comm ..

/-! ## Conversions -/

/-- What literals are made with: the part after the point, the whole number in 64 bits, and the
double of a decimal. -/
structure Conversions where
  fraction : Decimal96 → Decimal96
  toInt64? : Decimal96 → Option Int64
  toBinary64? : Decimal96 → Option Binary64

/-- The laws of the conversions. The part after the point has the sign of the number, at any scale.
A whole number is converted if 64 bits hold it; nothing is said of numbers that are not whole, or of
how a double is rounded. No decimal is too large for a double. -/
structure Conversions.Lawful (c : Conversions) : Prop where
  fraction (d : Decimal96) :
    (c.fraction d).mantissa * d.unit = d.mantissa.tmod d.unit * (c.fraction d).unit
  toInt64? (d : Decimal96) (n : Int) : d.mantissa = n * d.unit →
    c.toInt64? d = if Literal.InRange n then some (Int64.ofInt n) else none
  toBinary64? (d : Decimal96) : (c.toBinary64? d).isSome

namespace Conversions

variable {c : Conversions} {d : Decimal96}

/-- The double of a decimal, or null where there is none. -/
def double (c : Conversions) (d : Decimal96) : Literal :=
  match c.toBinary64? d with
  | some x => .float x
  | none => .null

/-- The literal of a decimal: an integer if nothing stands after the point and 64 bits suffice. -/
def literal (c : Conversions) (d : Decimal96) : Literal :=
  if (c.fraction d).magnitude = 0 then
    match c.toInt64? d with
    | some n => .integer n
    | none => c.double d
  else c.double d

theorem Lawful.double_eq (h : c.Lawful) (d : Decimal96) : ∃ x, c.double d = .float x := by
  obtain ⟨x, hx⟩ := Option.isSome_iff_exists.1 (h.toBinary64? d)
  exact ⟨x, by rw [double, hx]⟩

/-- Nothing stands after the point of the whole numbers. -/
theorem Lawful.fraction_eq_zero (h : c.Lawful) :
    (c.fraction d).magnitude = 0 ↔ ∃ n, d.mantissa = n * d.unit := by
  have hzero : (c.fraction d).mantissa = 0 ↔ d.mantissa.tmod d.unit = 0 := by
    have hfraction := h.fraction d
    constructor
    · intro hmantissa
      rw [hmantissa, Int.zero_mul, eq_comm, Int.mul_eq_zero] at hfraction
      exact hfraction.resolve_right (unit_ne_zero _)
    · intro hrest
      rw [hrest, Int.zero_mul, Int.mul_eq_zero] at hfraction
      exact hfraction.resolve_right (unit_ne_zero _)
  rw [← mantissa_eq_zero, hzero, ← Int.dvd_iff_tmod_eq_zero]
  constructor
  · rintro ⟨n, hn⟩
    exact ⟨n, hn.trans (Int.mul_comm ..)⟩
  · rintro ⟨n, hn⟩
    exact ⟨n, hn.trans (Int.mul_comm ..)⟩

theorem Lawful.literal_whole (h : c.Lawful) {n : Int} (hn : d.mantissa = n * d.unit) :
    c.literal d = if Literal.InRange n then .integer (Int64.ofInt n) else c.double d := by
  rw [literal, if_pos (h.fraction_eq_zero.2 ⟨n, hn⟩), h.toInt64? d n hn]
  by_cases hrange : Literal.InRange n
  · rw [if_pos hrange, if_pos hrange]
  · rw [if_neg hrange, if_neg hrange]

theorem Lawful.literal_not_whole (h : c.Lawful) (hd : ∀ n, d.mantissa ≠ n * d.unit) :
    c.literal d = c.double d :=
  if_neg fun hzero => by
    obtain ⟨n, hn⟩ := h.fraction_eq_zero.1 hzero
    exact hd n hn

theorem Lawful.literal_integer_iff (h : c.Lawful) {n : Int64} :
    c.literal d = .integer n ↔ d.mantissa = n.toInt * d.unit := by
  constructor
  · intro hliteral
    by_cases hwhole : ∃ m, d.mantissa = m * d.unit
    · obtain ⟨m, hm⟩ := hwhole
      rw [h.literal_whole hm] at hliteral
      split at hliteral
      · rename_i hrange
        cases hliteral
        rw [Int64.toInt_ofInt_of_le hrange.1 hrange.2, hm]
      · obtain ⟨x, hx⟩ := h.double_eq d
        cases hx.symm.trans hliteral
    · obtain ⟨x, hx⟩ := h.double_eq d
      rw [h.literal_not_whole (not_exists.1 hwhole)] at hliteral
      cases hx.symm.trans hliteral
  · intro hn
    have hrange : Literal.InRange n.toInt := ⟨Int64.le_toInt n, Int64.toInt_lt n⟩
    rw [h.literal_whole hn, if_pos hrange, Int64.ofInt_toInt]

/-- A literal that is no integer is a double. -/
theorem Lawful.literal_cases (h : c.Lawful) (d : Decimal96) :
    (∃ n, c.literal d = .integer n) ∨ ∃ x, c.literal d = .float x := by
  obtain ⟨x, hx⟩ := h.double_eq d
  rw [literal]
  split
  · split
    · exact .inl ⟨_, rfl⟩
    · exact .inr ⟨x, hx⟩
  · exact .inr ⟨x, hx⟩

theorem Lawful.literal_float_iff (h : c.Lawful) (d : Decimal96) :
    (∃ x, c.literal d = .float x) ↔ ∀ n : Int64, d.mantissa ≠ n.toInt * d.unit := by
  constructor
  · rintro ⟨x, hx⟩ n hn
    cases hx.symm.trans (h.literal_integer_iff.2 hn)
  · intro hn
    rcases h.literal_cases d with ⟨n, hliteral⟩ | hfloat
    · exact absurd (h.literal_integer_iff.1 hliteral) (hn n)
    · exact hfloat

/-- By any two lawful conversions and at any two scales, a number becomes literals of one kind, and
the same integer if they are integers. -/
theorem Lawful.literal_same {c' : Conversions} (h : c.Lawful) (h' : c'.Lawful) {d' : Decimal96}
    (hsame : d.SameNumber d') : (c.literal d).typeName = (c'.literal d').typeName ∧
      ∀ n, c.literal d = .integer n ↔ c'.literal d' = .integer n := by
  have hinteger : ∀ n, c.literal d = .integer n ↔ c'.literal d' = .integer n := by
    intro n
    rw [h.literal_integer_iff, h'.literal_integer_iff]
    exact ⟨hsame.whole, hsame.symm.whole⟩
  refine ⟨?_, hinteger⟩
  rcases h.literal_cases d with ⟨n, hn⟩ | ⟨x, hx⟩
  · rw [hn, (hinteger n).1 hn]
  · rcases h'.literal_cases d' with ⟨n, hn⟩ | ⟨y, hy⟩
    · cases hx.symm.trans ((hinteger n).2 hn)
    · rw [hx, hy]
      rfl

end Conversions

/-! ## Exact conversions -/

/-- Exact conversions, with doubles rounded to the nearest. -/
def exact : Conversions where
  fraction d := { d with magnitude := d.magnitude % BitVec.ofNat 96 (Nat.pow 10 d.scale) }
  toInt64? d :=
    let n := d.mantissa.tdiv d.unit
    if Literal.InRange n then some (Int64.ofInt n) else none
  toBinary64? d := some d.toDecimal.nearest

theorem mantissa_fraction (d : Decimal96) :
    (exact.fraction d).mantissa = d.mantissa.tmod d.unit := by
  have hgreatest : Nat.pow 10 d.scale ≤ Nat.pow 10 28 :=
    Nat.pow_le_pow_right (by decide) (Nat.le_of_lt_succ d.scale.isLt)
  have hscale : Nat.pow 10 d.scale < 0x1000000000000000000000000 :=
    Nat.lt_of_le_of_lt hgreatest (by decide)
  have hmagnitude :
      (exact.fraction d).magnitude.toNat = d.magnitude.toNat % Nat.pow 10 d.scale := by
    rw [exact, BitVec.toNat_umod, BitVec.toNat_ofNat, Nat.mod_eq_of_lt hscale]
  rw [mantissa, mantissa, hmagnitude, unit]
  show (if d.negative then _ else _) = _
  split
  · rw [Int.neg_tmod, Int.ofNat_tmod]
  · rw [Int.ofNat_tmod]

theorem lawful_exact : exact.Lawful where
  fraction d := congrArg (· * d.unit) (mantissa_fraction d)
  toInt64? d n h := by
    have hn : d.mantissa.tdiv d.unit = n := by rw [h, Int.mul_tdiv_cancel n d.unit_ne_zero]
    simp only [exact, hn]
  toBinary64? _ := rfl

theorem whole?_toDecimal (d : Decimal96) (n : Int) :
    d.toDecimal.whole? = some n ↔ d.mantissa = n * d.unit := by
  have hwhole : d.toDecimal.whole? =
      if d.mantissa % d.unit = 0 then some (d.mantissa / d.unit) else none := rfl
  rw [hwhole]
  constructor
  · intro h
    split at h
    · rename_i hrest
      cases h
      exact (Int.ediv_mul_cancel (Int.dvd_of_emod_eq_zero hrest)).symm
    · cases h
  · intro h
    rw [h, Int.mul_emod_left, if_pos rfl, Int.mul_ediv_cancel n d.unit_ne_zero]

/-- Decimals become literals by these conversions. -/
theorem literal_exact (d : Decimal96) : exact.literal d = Literal.ofDecimal d.toDecimal := by
  rw [Literal.ofDecimal]
  cases hwhole : d.toDecimal.whole? with
  | some n => exact lawful_exact.literal_whole ((whole?_toDecimal d n).1 hwhole)
  | none =>
    refine lawful_exact.literal_not_whole fun n hn => ?_
    rw [(whole?_toDecimal d n).2 hn] at hwhole
    cases hwhole

/-- A decimal becomes an integer if and only if it is a whole number that 64 bits hold, and a double
otherwise, never null. A number at two scales becomes literals of one kind, and the same integer if
they are integers. This holds of any lawful conversions, and they agree with the exact ones on what
is an integer. -/
theorem literal_of_decimal {c : Conversions} (h : c.Lawful) (d : Decimal96) :
    (∀ n : Int64, c.literal d = .integer n ↔ d.mantissa = n.toInt * d.unit) ∧
    ((∃ x, c.literal d = .float x) ↔ ∀ n : Int64, d.mantissa ≠ n.toInt * d.unit) ∧
    c.literal d ≠ .null ∧
    (∀ d', d.SameNumber d' → (c.literal d).typeName = (c.literal d').typeName ∧
      ∀ n, c.literal d = .integer n ↔ c.literal d' = .integer n) ∧
    (Literal.ofDecimal d.toDecimal).typeName = (c.literal d).typeName ∧
      ∀ n, Literal.ofDecimal d.toDecimal = .integer n ↔ c.literal d = .integer n := by
  refine ⟨fun n => h.literal_integer_iff, h.literal_float_iff d, ?_, ?_, ?_⟩
  · intro hnull
    rcases h.literal_cases d with ⟨n, hn⟩ | ⟨x, hx⟩
    · cases hn.symm.trans hnull
    · cases hx.symm.trans hnull
  · exact fun d' hsame => h.literal_same h hsame
  · rw [← literal_exact]
    exact lawful_exact.literal_same h rfl

/-- The least integer at a scale of three places, zero with a sign, and two forms of a half. -/
theorem literals_at_scales :
    let least : Decimal96 := ⟨true, 9223372036854775808000, 3⟩
    let zero : Decimal96 := ⟨true, 0, 28⟩
    let half : Decimal96 := ⟨false, 5, 1⟩
    let half' : Decimal96 := ⟨false, 5000000000000000000000000000, 28⟩
    Conversions.Lawful exact ∧
      Literal.ofDecimal least.toDecimal = .integer (-9223372036854775808) ∧
      Literal.ofDecimal zero.toDecimal = .integer 0 ∧
      half.SameNumber half' ∧ (∃ x, Literal.ofDecimal half'.toDecimal = .float x) ∧
      (Literal.ofDecimal half.toDecimal).typeName =
        (Literal.ofDecimal half'.toDecimal).typeName := by
  intro least zero half half'
  have hsame : half.SameNumber half' := by decide
  simp only [← literal_exact]
  refine ⟨lawful_exact, ?_, ?_, hsame, ?_, ?_⟩
  · exact ((literal_of_decimal lawful_exact least).1 _).2 (by decide)
  · exact ((literal_of_decimal lawful_exact zero).1 _).2 (by decide)
  · refine (literal_of_decimal lawful_exact half').2.1.2 fun n hn => ?_
    have hmantissa : (5000000000000000000000000000 : Int) =
        n.toInt * 10000000000000000000000000000 := hn
    omega
  · exact ((literal_of_decimal lawful_exact half).2.2.2.1 half' hsame).1

end Decimal96

end QueryTree
