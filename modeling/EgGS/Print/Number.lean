import EgGS.Print.Format
import Mathlib.Data.Nat.Digits.Lemmas

/-!
# The numbers that `number` writes

What a number should look like is said here without the loops of the code: the sign and the prefix
that are due, the digits, which read back give the magnitude, and how much is missing up to the
width.  The loops of the code share one counter, and count it down behind their last round too.
A width so far below zero that the counter wraps makes one of them pad for ever long.

* `number_writes_iff`: `number` writes that text exactly as long as the counter does not wrap.
-/

namespace EgGS

open Lib Prog

/-! ## What is due -/

/-- A value of type `int`. -/
def IsInt (x : ℤ) : Prop := -2147483648 ≤ x ∧ x < 2147483648

/-- The sign character that is due. -/
def signDue (num : ℤ) (type : FmtFlags) : List UInt8 :=
  if type.sign ∧ num < 0 then [chr '-']
  else if type.plus then [chr '+']
  else if type.space then [chr ' ']
  else []

/-- The prefix under `SPECIAL`. -/
def prefixDue (base : ℕ) (type : FmtFlags) : List UInt8 :=
  if type.special then
    if base = 16 then [chr '0', if type.small then chr 'x' else chr 'X']
    else if base = 8 then [chr '0']
    else []
  else []

/-- The number that the digits stand for. -/
def magnitude (num : ℤ) (type : FmtFlags) : ℕ :=
  if type.sign then num.natAbs else (num % 4294967296).toNat

/-- The number of digits. -/
def digitCount (num : ℤ) (base : ℕ) (type : FmtFlags) : ℕ :=
  max 1 (Nat.digits base (magnitude num type)).length

/-- `size` without the sign, the prefix, and the digits or the precision. -/
def sizeSpare (num : ℤ) (base : ℕ) (size precision : ℤ) (type : FmtFlags) : ℤ :=
  size - (signDue num type).length - (prefixDue base type).length -
    max (digitCount num base type : ℤ) precision

/-- The value of a digit, in upper or in lower case. -/
def digitValue (c : UInt8) : ℕ :=
  if c.toNat < 58 then c.toNat - 48 else if c.toNat < 91 then c.toNat - 55 else c.toNat - 87

/-- Digits read in a base, the highest one first. -/
def readDigits (base : ℕ) (digits : List UInt8) : ℕ :=
  digits.foldl (fun value c => value * base + digitValue c) 0

/-- The parts of a number, in order. -/
structure NumberParts where
  padLeft : ℕ
  sign : List UInt8
  pre : List UInt8
  zeros : ℕ
  digits : List UInt8
  padRight : ℕ

namespace NumberParts

/-- The characters of the parts. -/
def text (parts : NumberParts) : List UInt8 :=
  List.replicate parts.padLeft (chr ' ') ++ parts.sign ++ parts.pre ++
    List.replicate parts.zeros (chr '0') ++ parts.digits ++ List.replicate parts.padRight (chr ' ')

/-- The parts are those of `num`.  What is missing up to the width is padded on the left, behind
the prefix with zeros, or on the right. -/
structure Of (parts : NumberParts) (num : ℤ) (base : ℕ) (size precision : ℤ) (type : FmtFlags) :
    Prop where
  sign : parts.sign = signDue num type
  pre : parts.pre = prefixDue base type
  value : readDigits base parts.digits = magnitude num type
  valid : ∀ c ∈ parts.digits, digitValue c < base
  count : parts.digits.length = digitCount num base type
  padLeft : type.left ∨ type.zeropad → parts.padLeft = 0
  padRight : ¬ type.left → parts.padRight = 0
  zeros : type.left ∨ ¬ type.zeropad →
    (parts.zeros : ℤ) = max 0 (precision - digitCount num base type)
  length : (parts.text.length : ℤ) =
    max size (parts.sign.length + parts.pre.length + max (parts.digits.length : ℤ) precision)

end NumberParts

/-- `number` writes the parts of `num`, and `tmp` has room for the digits. -/
def WritesParts (num : ℤ) (base : ℕ) (size precision : ℤ) (type : FmtFlags) : Prop :=
  (tmpOf type.small base (signOf num type).2).length ≤ 36 ∧
    ∃ parts : NumberParts, parts.Of num base size precision type ∧
      number num base size precision type = some parts.text

/-! ## The digits -/

theorem digitValue_digitChar (small : Bool) {i : ℕ} (hi : i < 36) :
    digitValue (digitChar small i) = i := by
  have hall : ∀ small, ∀ j < 36, digitValue (digitChar small j) = j := by decide
  exact hall small i hi

theorem tmpDigits_eq (small : Bool) {base : ℕ} (hbase : 1 < base) : ∀ (rounds num : ℕ),
    num < base ^ rounds → tmpDigits small base rounds num =
      (Nat.digits base num).map (digitChar small) := by
  intro rounds
  induction rounds with
  | zero =>
      intro num hnum
      obtain rfl : num = 0 := by simpa using hnum
      simp [tmpDigits]
  | succ rounds ih =>
      intro num hnum
      rw [tmpDigits]
      by_cases hzero : num = 0
      · simp [hzero]
      · have hrest : num / base < base ^ rounds :=
          Nat.div_lt_of_lt_mul (by rwa [Nat.pow_succ, Nat.mul_comm] at hnum)
        rw [if_neg hzero, ih _ hrest, Nat.digits_def' hbase (Nat.pos_of_ne_zero hzero),
          List.map_cons]

/-- The digits of a number, the lowest one first; zero has one of them. -/
def digitList (base num : ℕ) : List ℕ := if num = 0 then [0] else Nat.digits base num

theorem digitList_lt {base num : ℕ} (hbase : 1 < base) {i : ℕ} (hi : i ∈ digitList base num) :
    i < base := by
  unfold digitList at hi
  split at hi
  · have hzero : i = 0 := by simpa using hi
    omega
  · exact Nat.digits_lt_base hbase hi

theorem digitList_length (base num : ℕ) :
    (digitList base num).length = max 1 (Nat.digits base num).length := by
  unfold digitList
  split
  · next hzero => simp [hzero]
  · next hzero =>
    have hpos : 0 < (Nat.digits base num).length :=
      List.length_pos_of_ne_nil (Nat.digits_ne_nil_iff_ne_zero.mpr hzero)
    omega

theorem ofDigits_digitList (base num : ℕ) : Nat.ofDigits base (digitList base num) = num := by
  unfold digitList
  split
  · next hzero => simp [hzero]
  · exact Nat.ofDigits_digits base num

/-- `tmp` holds the digits. -/
theorem tmpOf_eq (small : Bool) {base num : ℕ} (hbase : 1 < base) (hnum : num < 4294967296) :
    tmpOf small base num = (digitList base num).map (digitChar small) := by
  have hwide : num < base ^ 32 :=
    calc num < 2 ^ 32 := by omega
      _ ≤ base ^ 32 := Nat.pow_le_pow_left hbase 32
  unfold tmpOf digitList
  split
  · cases small <;> rfl
  · exact tmpDigits_eq small hbase 32 num hwide

theorem readDigits_reverse (base : ℕ) (l : List UInt8) :
    readDigits base l.reverse = Nat.ofDigits base (l.map digitValue) := by
  unfold readDigits
  rw [List.foldl_reverse, Nat.ofDigits_eq_foldr, List.foldr_map]
  congr 1
  funext c value
  simp only [Nat.cast_id]
  ring

theorem map_digitValue (small : Bool) {base : ℕ} (hbase : base ≤ 36) {digits : List ℕ}
    (hdigits : ∀ i ∈ digits, i < base) :
    (digits.map (digitChar small)).map digitValue = digits := by
  rw [List.map_map]
  refine (List.map_congr_left fun i hi => ?_).trans (List.map_id _)
  exact digitValue_digitChar small ((hdigits i hi).trans_le hbase)

/-- **The digits read back give the number.** -/
theorem readDigits_tmpOf (small : Bool) {base num : ℕ} (hbase : 1 < base) (hbase' : base ≤ 36)
    (hnum : num < 4294967296) : readDigits base (tmpOf small base num).reverse = num := by
  rw [readDigits_reverse, tmpOf_eq small hbase hnum,
    map_digitValue small hbase' fun i hi => digitList_lt hbase hi, ofDigits_digitList]

theorem tmpOf_valid (small : Bool) {base num : ℕ} (hbase : 1 < base) (hbase' : base ≤ 36)
    (hnum : num < 4294967296) : ∀ c ∈ tmpOf small base num, digitValue c < base := by
  intro c hc
  rw [tmpOf_eq small hbase hnum] at hc
  obtain ⟨i, hi, rfl⟩ := List.mem_map.mp hc
  have hlt := digitList_lt hbase hi
  rw [digitValue_digitChar small (hlt.trans_le hbase')]
  exact hlt

theorem tmpOf_length (small : Bool) {base num : ℕ} (hbase : 1 < base) (hnum : num < 4294967296) :
    (tmpOf small base num).length = max 1 (Nat.digits base num).length := by
  rw [tmpOf_eq small hbase hnum, List.length_map, digitList_length]

/-! ## The sign and the prefix -/

theorem magnitude_lt {num : ℤ} (hnum : IsInt num) (type : FmtFlags) :
    magnitude num type < 4294967296 := by
  obtain ⟨hlo, hhi⟩ := hnum
  unfold magnitude
  split <;> omega

/-- `INT_MIN` is its own negation, and is printed as what it is without a sign. -/
theorem signOf_num {num : ℤ} (hnum : IsInt num) (type : FmtFlags) :
    (signOf num type).2 = magnitude num type := by
  obtain ⟨hlo, hhi⟩ := hnum
  unfold signOf magnitude unsigned
  cases hsign : type.sign with
  | false => simp
  | true =>
      by_cases hneg : num < 0
      · rw [if_pos ⟨rfl, hneg⟩, if_pos rfl]
        dsimp only
        omega
      · rw [if_neg fun h => hneg h.2, if_pos rfl]
        dsimp only
        omega

theorem signOf_sign (num : ℤ) (type : FmtFlags) :
    (signOf num type).1.toList = signDue num type := by
  unfold signOf signDue
  split_ifs <;> rfl

theorem prefixOf_eq {base : ℕ} (type : FmtFlags) : prefixOf base type = prefixDue base type := by
  have hdigit : digitChar type.small 33 = if type.small then chr 'x' else chr 'X' := by
    cases type.small <;> decide
  unfold prefixOf prefixDue
  rw [hdigit]
  by_cases hsixteen : base = 16
  · subst hsixteen
    simp
  · simp [hsixteen]

theorem sizeLeft_eq (num size : ℤ) (base : ℕ) (type : FmtFlags) :
    sizeLeft size base (signOf num type).1 type =
      size - (signDue num type).length - (prefixDue base type).length := by
  have hsome : ((signOf num type).1.isSome : Prop) ↔ (signDue num type).length = 1 := by
    rw [← signOf_sign]
    cases (signOf num type).1 <;> simp
  have hnone : ¬ (signOf num type).1.isSome → (signDue num type).length = 0 := by
    rw [← signOf_sign]
    cases (signOf num type).1 <;> simp
  unfold sizeLeft prefixDue
  by_cases hsign : (signOf num type).1.isSome
  · rw [if_pos hsign, hsome.mp hsign]
    split_ifs <;> simp
  · rw [if_neg hsign, hnone hsign]
    split_ifs <;> simp

/-! ## The parts -/

section Parts

variable {num : ℤ} {base : ℕ} {size precision : ℤ} {type : FmtFlags}

/-- The parts that the code writes. -/
def partsOf (num : ℤ) (base : ℕ) (size precision : ℤ) (type : FmtFlags) : NumberParts where
  padLeft :=
    if type.left ∨ type.zeropad then 0 else (sizeSpare num base size precision type).toNat
  sign := signDue num type
  pre := prefixDue base type
  zeros :=
    (if type.zeropad ∧ ¬ type.left then (sizeSpare num base size precision type).toNat else 0) +
      (precision - digitCount num base type).toNat
  digits := (tmpOf type.small base (signOf num type).2).reverse
  padRight := if type.left then (sizeSpare num base size precision type).toNat else 0

theorem tmp_length (type : FmtFlags) (hnum : IsInt num) (hbase : 1 < base) :
    (tmpOf type.small base (signOf num type).2).length = digitCount num base type := by
  rw [signOf_num hnum, tmpOf_length type.small hbase (magnitude_lt hnum type), digitCount]

theorem partsOf_length (hnum : IsInt num) (hbase : 1 < base) :
    ((partsOf num base size precision type).text.length : ℤ) =
      max size ((signDue num type).length + (prefixDue base type).length +
        max (digitCount num base type : ℤ) precision) := by
  have htmp := tmp_length type hnum hbase
  simp only [NumberParts.text, partsOf, List.length_append, List.length_replicate,
    List.length_reverse, htmp]
  cases type.left <;> cases type.zeropad <;> simp [sizeSpare] <;> omega

/-- The parts that the code writes are those of the number. -/
theorem partsOf_of (hnum : IsInt num) (hbase : 1 < base) (hbase' : base ≤ 36) :
    (partsOf num base size precision type).Of num base size precision type := by
  have hlt := magnitude_lt hnum type
  have hcount : (partsOf num base size precision type).digits.length =
      digitCount num base type := by
    rw [← tmp_length type hnum hbase]
    exact List.length_reverse
  have hdigits : (partsOf num base size precision type).digits =
      (tmpOf type.small base (magnitude num type)).reverse := by
    rw [← signOf_num hnum type]
    rfl
  refine ⟨rfl, rfl, ?_, ?_, hcount, fun h => if_pos h, fun h => if_neg h, ?_, ?_⟩
  · rw [hdigits]
    exact readDigits_tmpOf type.small hbase hbase' hlt
  · intro c hc
    rw [hdigits, List.mem_reverse] at hc
    exact tmpOf_valid type.small hbase hbase' hlt c hc
  · intro h
    have hnot : ¬ (type.zeropad = true ∧ ¬ type.left = true) := fun ⟨hz, hl⟩ =>
      h.elim hl fun hz' => hz' hz
    simp only [partsOf, if_neg hnot]
    omega
  · rw [hcount]
    exact partsOf_length hnum hbase

/-- The text that `number_text` speaks of is that of the parts. -/
theorem numberText_parts (hnum : IsInt num) (hbase : 1 < base) :
    numberText base (sizeSpare num base size precision type) precision type (signOf num type).1
      (signOf num type).2 = (partsOf num base size precision type).text := by
  simp only [numberText, NumberParts.text, partsOf, signOf_sign, prefixOf_eq,
    tmp_length type hnum hbase]
  cases type.left <;> cases type.zeropad <;> simp

/-- A counter that wraps pads as much as a counter can hold. -/
theorem number_wraps (hnum : IsInt num) (hbase : 2 ≤ base ∧ base ≤ 36) (hsize : IsInt size)
    (hprecision : IsInt precision) (hfits : -2147483648 ≤ sizeSpare num base size precision type)
    (hwraps : ¬ CountsDown type (sizeSpare num base size precision type)) :
    ∃ text, number num base size precision type = some text ∧
      (text.length : ℤ) = (signDue num type).length + (prefixDue base type).length +
        max (digitCount num base type : ℤ) precision + 2147483647 := by
  obtain ⟨hleft, hlow⟩ := not_or.mp hwraps
  rw [Bool.not_eq_true] at hleft
  have htmp := tmp_length type hnum hbase.1
  have hpos : 0 < digitCount num base type := by
    unfold digitCount
    omega
  have hsmall : digitCount num base type ≤ 32 := by
    rw [← htmp]
    exact tmpOf_length_le ..
  have hmax : (if (digitCount num base type : ℤ) > precision then
      (digitCount num base type : ℤ) else precision) =
      max (digitCount num base type : ℤ) precision := by
    split <;> omega
  have hint :
      wrap32 (sizeSpare num base size precision type) = sizeSpare num base size precision type :=
    wrap32_of_int hfits (by
      obtain ⟨-, hhi⟩ := hsize
      unfold sizeSpare
      omega)
  obtain ⟨most, hmost⟩ : ∃ most : ℕ, (most : ℤ) = 2147483647 := ⟨2147483647, by norm_num⟩
  have hfull : ∀ c str, padPost c 0 2147483647 str = (str ++ List.replicate most c, -1) := by
    intro c str
    rw [← hmost, padPost_eq (le_refl 0) (by omega) (by omega), sub_zero, Int.toNat_natCast]
    congr 1
    omega
  have hmin : ∀ c str, padPost c 0 (-2147483648) str = (str, 2147483647) :=
    fun c str => padPost_short (by omega) str
  have hmin' : ∀ c str, padPost c 0 (-2147483647) str = (str, -2147483648) :=
    fun c str => padPost_short (by omega) str
  have hneg : ∀ c str, (padPost c 0 (-1) str).1 = str := fun c str => by
    rw [padPost_short (by omega)]
  have hzero : ∀ str, (padPost (chr '0') (digitCount num base type)
      (max (digitCount num base type : ℤ) precision) str).1 =
      str ++ List.replicate (precision - digitCount num base type).toNat (chr '0') := fun str => by
    obtain ⟨-, hhi⟩ := hprecision
    have hmissing : (max
      (digitCount num base type : ℤ) precision - digitCount num base type).toNat =
        (precision - digitCount num base type).toNat := by omega
    rw [padPost_eq (by omega) (by omega) (by omega), hmissing]
  unfold number
  rw [if_neg (by omega)]
  simp only [htmp, hmax, sizeLeft_eq, signOf_sign, prefixOf_eq]
  rw [show size - (signDue num type).length - (prefixDue base type).length -
    max (digitCount num base type : ℤ) precision = sizeSpare num base size precision type from rfl,
    hint, hleft]
  refine ⟨_, rfl, ?_⟩
  -- the blanks in front of the sign are only written without the flag for zeros
  cases hz : type.zeropad with
  | true =>
      -- no loop runs before the last one, which starts from the lowest value
      have hlast : sizeSpare num base size precision type = -2147483648 := by
        rw [hz, if_pos rfl] at hlow
        omega
      simp [hlast, hmin, hfull, hzero, htmp]
      omega
  | false =>
      -- the first loop counts down to the lowest value, or wraps at once
      have hlast : sizeSpare num base size precision type = -2147483648 ∨
          sizeSpare num base size precision type = -2147483647 := by
        rw [hz, if_neg (by decide)] at hlow
        omega
      rcases hlast with hlast | hlast
      · simp [hlast, hmin, hfull, hzero, hneg, htmp]
        omega
      · simp [hlast, hmin', hmin, hfull, hzero, htmp]
        omega

/-- **When `number` writes a number**: exactly when the counter that the loops share does not
wrap behind their last round. -/
theorem number_writes_iff (hnum : IsInt num) (hbase : base = 8 ∨ base = 10 ∨ base = 16)
    (hsize : IsInt size) (hprecision : IsInt precision)
    (hfits : -2147483648 ≤ sizeSpare num base size precision type) :
    WritesParts num base size precision type ↔
      (type.left ∨ -2147483648 + (if type.zeropad then 1 else 2) ≤
        sizeSpare num base size precision type) := by
  have hrange : 2 ≤ base ∧ base ≤ 36 := by omega
  have htmp := tmp_length type hnum hrange.1
  constructor
  · rintro ⟨-, parts, hof, hparts⟩
    by_contra hwraps
    obtain ⟨text, htext, hlength⟩ := number_wraps hnum hrange hsize hprecision hfits hwraps
    obtain rfl : parts.text = text := Option.some.inj (hparts.symm.trans htext)
    have hdue := hof.length
    rw [hof.sign, hof.pre, hof.count] at hdue
    have hneg : sizeSpare num base size precision type < 0 := by
      have hlow := (not_or.mp hwraps).2
      split at hlow <;> omega
    unfold sizeSpare at hneg
    omega
  · intro hdown
    refine ⟨(tmpOf_length_le ..).trans (by omega), partsOf num base size precision type,
      partsOf_of hnum hrange.1 hrange.2, ?_⟩
    have hhi : sizeSpare num base size precision type < 2147483648 := by
      obtain ⟨-, hhi⟩ := hsize
      unfold sizeSpare digitCount
      omega
    rw [← numberText_parts hnum hrange.1]
    refine number_text hrange hprecision.2 ?_ hfits hhi hdown
    rw [sizeLeft_eq, htmp, max_comm, sizeSpare]

end Parts

/-- Both directions of the condition are met. -/
theorem number_writes_iff_minInt :
    IsInt (-2147483648) ∧
      (WritesParts (-2147483648) 10 12 (-1) { sign := true } ↔
        (FmtFlags.left { sign := true } ∨
          -2147483648 + (if FmtFlags.zeropad { sign := true } then 1 else 2) ≤
            sizeSpare (-2147483648) 10 12 (-1) { sign := true })) :=
  ⟨by unfold IsInt; omega,
    number_writes_iff (by unfold IsInt; omega) (.inr (.inl rfl)) (by unfold IsInt; omega)
      (by unfold IsInt; omega) (by decide +kernel)⟩

/-- A width at the lower end of the range wraps: with nothing left to pad there are
`INT_MAX` characters of padding. -/
theorem number_width_wraps :
    IsInt (-2147483647) ∧ -2147483648 ≤ sizeSpare 0 10 (-2147483647) (-1) {} ∧
      ¬ WritesParts 0 10 (-2147483647) (-1) {} := by
  have hsize : IsInt (-2147483647) := by
    unfold IsInt
    omega
  have hspare : sizeSpare 0 10 (-2147483647) (-1) {} = -2147483648 := by decide +kernel
  refine ⟨hsize, by omega, ?_⟩
  rintro ⟨-, parts, hof, hparts⟩
  obtain ⟨text, htext, hlength⟩ : ∃ text, number 0 10 (-2147483647) (-1) {} = some text ∧
      (text.length : ℤ) = (signDue 0 {}).length + (prefixDue 10 {}).length +
        max (digitCount 0 10 {} : ℤ) (-1) + 2147483647 :=
    number_wraps (by unfold IsInt; omega) (by omega) hsize (by unfold IsInt; omega) hspare.ge
      (by rw [hspare]; simp [CountsDown])
  obtain rfl : parts.text = text := Option.some.inj (hparts.symm.trans htext)
  have hdue := hof.length
  rw [hof.sign, hof.pre, hof.count] at hdue
  have hcount : digitCount 0 10 {} = 1 := by decide +kernel
  have hsign : (signDue 0 {}).length = 0 := by decide
  have hpre : (prefixDue 10 {}).length = 0 := by decide
  omega

end EgGS
