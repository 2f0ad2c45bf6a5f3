import EgGS.Print.Number
import EgGS.Print.Scan

/-!
# Widths and precisions as arguments

In place of a width or of a precision a directive can have a `*`, and take the value from the
arguments.  The code moves over the `*` of a precision, but not over that of a width: it takes the
`*` for the conversion, and the rest of the directive for text.

* `star_same_iff`: a directive with stars does what it does with the values in their place exactly
  when its width is no star.
-/

namespace EgGS

open Lib Prog

/-! ## Directives -/

/-- A number in decimal. -/
def decimal (w : ℕ) : List UInt8 := (tmpOf false 10 w).reverse

/-- The conversions. -/
def conversions : List UInt8 :=
  [chr 'c', chr 's', chr 'o', chr 'p', chr 'x', chr 'X', chr 'd', chr 'i', chr 'u', chr 'n',
    chr '%']

/-- A directive: its flags, width, precision, qualifier and conversion. -/
structure Directive where
  flags : List UInt8
  width : Option ℕ
  precision : Option ℕ
  qualifier : Option UInt8
  conv : UInt8

namespace Directive

/-- The parts of a directive are what they are called, and its numbers are values of type `int`. -/
structure Valid (d : Directive) : Prop where
  flags : ∀ c ∈ d.flags, isFlag c
  width : ∀ w ∈ d.width, 1 ≤ w ∧ w < 2147483648
  precision : ∀ p ∈ d.precision, p < 2147483648
  qualifier : ∀ c ∈ d.qualifier, c = chr 'h' ∨ c = chr 'l' ∨ c = chr 'L'
  conv : d.conv ∈ conversions

/-- The width as it stands in the format. -/
def widthText (d : Directive) (star : Bool) : List UInt8 :=
  match d.width with
  | none => []
  | some w => if star then [chr '*'] else decimal w

/-- The precision as it stands in the format. -/
def precisionText (d : Directive) (star : Bool) : List UInt8 :=
  match d.precision with
  | none => []
  | some p => chr '.' :: if star then [chr '*'] else decimal p

/-- The directive behind its precision. -/
def ending (d : Directive) : List UInt8 := d.qualifier.toList ++ [d.conv]

/-- The directive as it stands in the format, with a `*` for the width or for the precision. -/
def text (d : Directive) (starWidth starPrecision : Bool) : List UInt8 :=
  chr '%' :: (d.flags ++
    (d.widthText starWidth ++ (d.precisionText starPrecision ++ d.ending)))

/-- The arguments that stand for the stars. -/
def stars (d : Directive) (starWidth starPrecision : Bool) : List ℤ :=
  (if starWidth then d.width.toList.map (↑) else []) ++
    if starPrecision then d.precision.toList.map (↑) else []

end Directive

/-- From `s'` the directive with stars does what the directive without them does from `s`: the
output, the arguments left and the memory are the same, and both stop behind their directive. -/
def SameDirective (d : Directive) (starWidth starPrecision : Bool) (fmt : ℕ → UInt8) (s : Printing)
    (fmt' : ℕ → UInt8) (s' : Printing) : Prop :=
  ∃ t t', Evals formatRound fmt s (.inl ()) t ∧ Evals formatRound fmt' s' (.inl ()) t' ∧
    t.pos = s.pos + (d.text false false).length ∧
    t'.pos = s'.pos + (d.text starWidth starPrecision).length ∧
    t'.str = t.str ∧ t'.args = t.args ∧ t'.mem = t.mem

/-! ## Decimal numbers -/

theorem isDigit_digitChar {i : ℕ} (hi : i < 10) : isDigit (digitChar false i) = true := by
  have hall : ∀ j < 10, isDigit (digitChar false j) = true := by decide
  exact hall i hi

theorem decimal_digits {w : ℕ} (hw : w < 2147483648) : ∀ c ∈ decimal w, isDigit c = true := by
  intro c hc
  rw [decimal, List.mem_reverse, tmpOf_eq false (by omega) (by omega)] at hc
  obtain ⟨i, hi, rfl⟩ := List.mem_map.mp hc
  exact isDigit_digitChar (digitList_lt (by omega) hi)

theorem readDigits_decimal {w : ℕ} (hw : w < 2147483648) : readDigits 10 (decimal w) = w :=
  readDigits_tmpOf false (by omega) (by omega) (by omega)

theorem decimal_ne_nil {w : ℕ} (hw : w < 2147483648) : decimal w ≠ [] := by
  have hlen := tmpOf_length false (show 1 < 10 by omega) (show w < 4294967296 by omega)
  intro hnil
  rw [decimal, List.reverse_eq_nil_iff] at hnil
  rw [hnil, List.length_nil] at hlen
  omega

/-- The first digit of a number that is not zero is no flag. -/
theorem decimal_head {w : ℕ} (hpos : 1 ≤ w) (hw : w < 2147483648) :
    ∃ c l, decimal w = c :: l ∧ ¬ isFlag c := by
  have hne : Nat.digits 10 w ≠ [] := Nat.digits_ne_nil_iff_ne_zero.mpr (by omega)
  have hlast := Nat.getLast_digit_ne_zero 10 (show w ≠ 0 by omega)
  have hlt := Nat.digits_lt_base (by omega : 1 < 10) (List.getLast_mem hne)
  have hall : ∀ i < 10, i ≠ 0 → ¬ isFlag (digitChar false i) := by decide
  refine ⟨digitChar false ((Nat.digits 10 w).getLast hne),
    (((Nat.digits 10 w).dropLast).map (digitChar false)).reverse, ?_, hall _ hlt hlast⟩
  rw [decimal, tmpOf_eq false (by omega) (by omega), digitList, if_neg (by omega)]
  conv_lhs => rw [← List.dropLast_append_getLast hne]
  rw [List.map_append, List.reverse_append]
  rfl

/-! ## Reading a directive -/

section Reading

variable {fmt : ℕ → UInt8} {mem : ℕ → UInt8} {pos : ℕ} {reads : List ℕ} {args : List ℤ}
variable {str : List UInt8} {c : UInt8}

/-- What a flag sets. -/
def addFlag (flags : FmtFlags) (c : UInt8) : FmtFlags :=
  if c = chr '-' then { flags with left := true }
  else if c = chr '+' then { flags with plus := true }
  else if c = chr ' ' then { flags with space := true }
  else if c = chr '#' then { flags with special := true }
  else { flags with zeropad := true }

theorem readFlags_all {flags : List UInt8} (hflags : ∀ f ∈ flags, isFlag f) (hc : ¬ isFlag c)
    (htext : BytesAt fmt (pos + 1) (flags ++ [c])) :
    Leaves readFlags fmt ⟨pos, reads, args, mem, str⟩ (flags.foldl addFlag {})
      (pos + 1 + flags.length) args str := by
  refine LoopDoes.does ?_
  generalize ({} : FmtFlags) = seen
  induction flags generalizing pos reads seen with
  | nil =>
      simp only [isFlag, not_or] at hc
      obtain ⟨hminus, hplus, hspace, hhash, hzero⟩ := hc
      refine .done (bind_fmtNext (bind_fmtChar htext.1 ?_))
      rw [if_neg hminus, if_neg hplus, if_neg hspace, if_neg hhash, if_neg hzero]
      exact .pure ⟨_, rfl, rfl, _, rfl⟩
  | cons f flags ih =>
      have hflag := hflags f (List.mem_cons_self ..)
      have hrest := @ih (pos + 1) ((pos + 1) :: reads)
        (fun f' hf' => hflags f' (List.mem_cons_of_mem _ hf')) htext.2 (addFlag seen f)
      refine .step (bind_fmtNext (bind_fmtChar htext.1 ?_))
      rw [show pos + 1 + (f :: flags).length = pos + 1 + 1 + flags.length by
        rw [List.length_cons]
        omega]
      rw [List.foldl_cons]
      -- the branches set what `addFlag` does
      refine Does.mono (R := fun x t => x = .inl (addFlag seen f) ∧
        t = ⟨pos + 1, (pos + 1) :: reads, args, mem, str⟩) ?_ fun x t h => ⟨_, h.1, h.2 ▸ hrest⟩
      unfold addFlag
      refine .ite (fun h => .pure ⟨by rw [if_pos h], rfl⟩) fun hminus => ?_
      rw [if_neg hminus]
      refine .ite (fun h => .pure ⟨by rw [if_pos h], rfl⟩) fun hplus => ?_
      rw [if_neg hplus]
      refine .ite (fun h => .pure ⟨by rw [if_pos h], rfl⟩) fun hspace => ?_
      rw [if_neg hspace]
      refine .ite (fun h => .pure ⟨by rw [if_pos h], rfl⟩) fun hhash => ?_
      rw [if_neg hhash]
      refine .ite (fun _ => .pure ⟨rfl, rfl⟩) fun hzero => ?_
      exact absurd hflag (by simp [isFlag, hminus, hplus, hspace, hhash, hzero])

theorem digit_step {d : UInt8} (hd : isDigit d = true) {i : ℕ}
    (hi : i * 10 + digitValue d < 2147483648) :
    wrap32 ((i : ℤ) * 10 + d.toNat - 48) = ((i * 10 + digitValue d : ℕ) : ℤ) := by
  have hrange : 48 ≤ d.toNat ∧ d.toNat ≤ 57 := by
    simp only [isDigit, Bool.and_eq_true, decide_eq_true_eq, UInt8.le_iff_toNat_le] at hd
    exact hd
  have hvalue : digitValue d = d.toNat - 48 := by
    unfold digitValue
    rw [if_pos (by omega)]
  rw [hvalue] at hi ⊢
  rw [wrap32_of_int (by omega) (by omega)]
  omega

theorem le_foldl_digits (digits : List UInt8) (i : ℕ) :
    i ≤ digits.foldl (fun value c => value * 10 + digitValue c) i := by
  induction digits generalizing i with
  | nil => exact le_rfl
  | cons d digits ih =>
      rw [List.foldl_cons]
      exact (by omega : i ≤ i * 10 + digitValue d).trans (ih _)

/-- Digits are read as the number they stand for. -/
theorem skipAtoi_digits {digits : List UInt8} (hdigits : ∀ d ∈ digits, isDigit d = true)
    (hc : isDigit c = false) (hvalue : readDigits 10 digits < 2147483648)
    (htext : BytesAt fmt pos (digits ++ [c])) :
    Leaves skipAtoi fmt ⟨pos, reads, args, mem, str⟩ (readDigits 10 digits) (pos + digits.length)
      args str := by
  unfold readDigits at hvalue ⊢
  refine LoopDoes.does ?_
  rw [← Int.natCast_zero]
  generalize 0 = i at hvalue ⊢
  induction digits generalizing pos reads i with
  | nil =>
      refine .done (bind_fmtChar htext.1 ?_)
      rw [if_neg (by simp [hc])]
      exact .pure ⟨_, rfl, rfl, _, rfl⟩
  | cons d digits ih =>
      have hd := hdigits d (List.mem_cons_self ..)
      rw [List.foldl_cons] at hvalue
      have hstep := digit_step hd ((le_foldl_digits digits _).trans_lt hvalue)
      refine .step (bind_fmtChar htext.1 ?_)
      rw [if_pos hd]
      refine bind_fmtNext (.pure ⟨_, rfl, ?_⟩)
      rw [hstep, List.foldl_cons, List.length_cons,
        show pos + (digits.length + 1) = pos + 1 + digits.length by omega]
      exact ih (fun d' hd' => hdigits d' (List.mem_cons_of_mem _ hd')) htext.2 _ hvalue

end Reading

/-! ## The parts of a directive -/

namespace Directive

variable {d : Directive}

/-- A character that stands behind the flags and is none. -/
theorem conv_not_flag {c : UInt8} (hc : c ∈ conversions) :
    ¬ isFlag c ∧ Plain c ∧ c ≠ 0 := by
  have hall : ∀ c ∈ conversions, ¬ isFlag c ∧ isDigit c = false ∧ c ≠ chr '*' ∧ c ≠ chr '.' ∧
      ¬ (c = chr 'h' ∨ c = chr 'l' ∨ c = chr 'L') ∧ c ≠ 0 := by decide +kernel
  obtain ⟨hflag, hdigit, hstar, hdot, hqualifier, hzero⟩ := hall c hc
  exact ⟨hflag, ⟨hdigit, hstar, hdot, hqualifier⟩, hzero⟩

/-- What stands behind the precision starts neither a precision nor a width. -/
theorem Valid.ending_head (hd : d.Valid) :
    ∃ c l, d.ending = c :: l ∧ ¬ isFlag c ∧ isDigit c = false ∧ c ≠ chr '*' ∧ c ≠ chr '.' := by
  unfold ending
  cases hq : d.qualifier with
  | none =>
      obtain ⟨hflag, hplain, -⟩ := conv_not_flag hd.conv
      exact ⟨_, _, rfl, hflag, hplain.digit, hplain.star, hplain.dot⟩
  | some q =>
      refine ⟨q, [d.conv], rfl, ?_⟩
      rcases hd.qualifier q hq with rfl | rfl | rfl <;> decide

/-- What stands behind the width starts no width. -/
theorem Valid.precision_head (hd : d.Valid) (star : Bool) :
    ∃ c l, d.precisionText star ++ d.ending = c :: l ∧ ¬ isFlag c ∧ isDigit c = false ∧
      c ≠ chr '*' := by
  unfold precisionText
  cases d.precision with
  | none =>
      obtain ⟨c, l, hcl, hflag, hdigit, hstar, -⟩ := hd.ending_head
      exact ⟨c, l, hcl, hflag, hdigit, hstar⟩
  | some p => exact ⟨chr '.', _, rfl, by decide, by decide, by decide⟩

/-- What stands behind the flags starts with no flag. -/
theorem Valid.width_head (hd : d.Valid) (star starPrecision : Bool) :
    ∃ c l, d.widthText star ++ (d.precisionText starPrecision ++ d.ending) = c :: l ∧
      ¬ isFlag c := by
  unfold widthText
  cases hw : d.width with
  | none =>
      obtain ⟨c, l, hcl, hflag, -⟩ := hd.precision_head starPrecision
      exact ⟨c, l, hcl, hflag⟩
  | some w =>
      cases star with
      | true => exact ⟨chr '*', _, rfl, by decide⟩
      | false =>
          obtain ⟨hpos, hlt⟩ := hd.width w hw
          obtain ⟨c, l, hcl, hflag⟩ := decimal_head hpos hlt
          refine ⟨c, l ++ (d.precisionText starPrecision ++ d.ending), ?_, hflag⟩
          dsimp only
          rw [if_neg (by decide), hcl]
          rfl

/-- The width that is read. -/
def widthValue (d : Directive) : ℤ :=
  match d.width with
  | none => -1
  | some w => w

/-- The precision that is read. -/
def precisionValue (d : Directive) : ℤ :=
  match d.precision with
  | none => -1
  | some p => p

section Reading

variable {fmt : ℕ → UInt8} {mem : ℕ → UInt8} {pos : ℕ} {reads : List ℕ} {args : List ℤ}
variable {str : List UInt8} {flags : FmtFlags} {star starPrecision : Bool}

/-- A part of a text, with the character behind it. -/
theorem bytesAt_head {l l' : List UInt8} {c : UInt8} (h : BytesAt fmt pos (l ++ (c :: l'))) :
    BytesAt fmt pos (l ++ [c]) := by
  obtain ⟨hl, hc, -⟩ := BytesAt.append.mp h
  exact BytesAt.append.mpr ⟨hl, hc, trivial⟩

theorem Valid.readFlags (hd : d.Valid) (htext : BytesAt fmt pos (d.text star starPrecision)) :
    Leaves readFlags fmt ⟨pos, reads, args, mem, str⟩ (d.flags.foldl addFlag {})
      (pos + 1 + d.flags.length) args str := by
  obtain ⟨c, l, hcl, hflag⟩ := hd.width_head star starPrecision
  have hbehind := htext.2
  rw [hcl] at hbehind
  exact readFlags_all hd.flags hflag (bytesAt_head hbehind)

/-- A width that is no star. -/
theorem Valid.readWidth (hd : d.Valid)
    (htext : BytesAt fmt pos (d.widthText false ++ (d.precisionText starPrecision ++ d.ending))) :
    Leaves (EgGS.readWidth flags) fmt ⟨pos, reads, args, mem, str⟩ (flags, d.widthValue)
      (pos + (d.widthText false).length) args str := by
  obtain ⟨c, l, hcl, -, hdigit, hstar⟩ := hd.precision_head starPrecision
  rw [hcl] at htext
  unfold widthText widthValue at *
  cases hw : d.width with
  | none =>
      rw [hw] at htext
      exact readWidth_none hdigit hstar htext.1
  | some w =>
      obtain ⟨-, hlt⟩ := hd.width w hw
      rw [hw] at htext
      dsimp only at htext ⊢
      rw [if_neg (by decide)] at htext ⊢
      have hdigits := decimal_digits hlt
      have hatoi : Leaves skipAtoi fmt ⟨pos, pos :: reads, args, mem, str⟩
        (readDigits 10 (decimal w))
          (pos + (decimal w).length) args str :=
        skipAtoi_digits hdigits hdigit (by rwa [readDigits_decimal hlt]) (bytesAt_head htext)
      rw [readDigits_decimal hlt] at hatoi
      obtain ⟨f, l', hl'⟩ := List.exists_cons_of_ne_nil (decimal_ne_nil hlt)
      have hfirst : fmt pos = f := by
        rw [hl'] at htext
        exact htext.1
      unfold EgGS.readWidth
      refine bind_fmtChar hfirst ?_
      rw [if_pos (hdigits f (by rw [hl']; exact List.mem_cons_self ..))]
      exact hatoi.bind fun _ => .pure ⟨rfl, _, rfl⟩

/-- A precision, with its argument if it is a star. -/
theorem Valid.readPrecision (hd : d.Valid)
    (htext : BytesAt fmt pos (d.precisionText star ++ d.ending)) :
    Leaves EgGS.readPrecision fmt ⟨pos, reads, d.stars false star ++ args, mem, str⟩
      d.precisionValue (pos + (d.precisionText star).length) args str := by
  obtain ⟨c, l, hcl, -, hdigit, -, hdot⟩ := hd.ending_head
  rw [hcl] at htext
  unfold precisionText precisionValue stars at *
  -- without a point there is no precision, and the next character is not one
  cases hp : d.precision with
  | none =>
      rw [hp] at htext
      have hargs : (if star then List.map (fun p : ℕ => (p : ℤ)) (none : Option ℕ).toList
          else []) = [] := by cases star <;> rfl
      simp only [Bool.false_eq_true, ↓reduceIte, List.nil_append, hargs]
      exact readPrecision_leaves hdot htext.1
  | some p =>
      have hlt := hd.precision p hp
      rw [hp] at htext
      obtain ⟨hfirst, hrest⟩ := htext
      -- the precision is an argument, or it is read digit by digit
      cases star with
      | true =>
          have hstar : fmt (pos + 1) = chr '*' := hrest.1
          have hprecision : Leaves EgGS.readPrecision fmt ⟨pos, reads, (p : ℤ) :: args, mem, str⟩
              (if (p : ℤ) < 0 then 0 else p) (pos + 2) args str := readPrecision_star hfirst hstar
          rwa [if_neg (by omega)] at hprecision
      | false =>
          have hdigits := decimal_digits hlt
          rw [if_neg (by decide)] at hrest
          have hatoi : Leaves skipAtoi fmt ⟨pos + 1, (pos + 1) :: pos :: reads, args, mem, str⟩
              (readDigits 10 (decimal p)) (pos + 1 + (decimal p).length) args str :=
            skipAtoi_digits hdigits hdigit (by rwa [readDigits_decimal hlt]) (bytesAt_head hrest)
          rw [readDigits_decimal hlt] at hatoi
          obtain ⟨f, l', hl'⟩ := List.exists_cons_of_ne_nil (decimal_ne_nil hlt)
          have hfirst' : fmt (pos + 1) = f := by
            rw [hl'] at hrest
            exact hrest.1
          have hvalue : Leaves readPrecisionValue fmt ⟨pos + 1, pos :: reads, args, mem, str⟩ p
              (pos + 1 + (decimal p).length) args str := by
            unfold readPrecisionValue
            refine bind_fmtChar hfirst' ?_
            rw [if_pos (hdigits f (by rw [hl']; exact List.mem_cons_self ..))]
            exact hatoi
          simp only [Bool.false_eq_true, ↓reduceIte, List.nil_append, List.length_cons]
          unfold EgGS.readPrecision
          refine bind_fmtChar hfirst ?_
          rw [if_pos rfl]
          refine bind_fmtNext (hvalue.bind fun reads' => .pure ⟨if_neg (by omega), reads', ?_⟩)
          rw [show pos + 1 + (decimal p).length = pos + ((decimal p).length + 1) by omega]

theorem Valid.readQualifier (hd : d.Valid) (htext : BytesAt fmt pos d.ending) :
    Leaves EgGS.readQualifier fmt ⟨pos, reads, args, mem, str⟩ ()
      (pos + d.qualifier.toList.length) args str := by
  unfold ending at htext
  cases hq : d.qualifier with
  | none =>
      rw [hq] at htext
      obtain ⟨-, hplain, -⟩ := conv_not_flag hd.conv
      exact readQualifier_leaves hplain.qualifier htext.1
  | some q =>
      rw [hq] at htext
      unfold EgGS.readQualifier
      refine bind_fmtChar htext.1 ?_
      rw [if_pos (hd.qualifier q hq)]
      exact .update ⟨rfl, _, rfl⟩

/-- A directive whose width is no star is read up to its conversion, which gets the values of the
width and of the precision. -/
theorem Valid.directive (hd : d.Valid) {Q : Unit → Printing → Prop}
    (htext : BytesAt fmt pos (d.text false starPrecision))
    (hconvert : ∀ reads, Does (convert (d.flags.foldl addFlag {}) d.widthValue d.precisionValue) fmt
      ⟨pos + (d.text false starPrecision).length - 1, reads, args, mem, str⟩ Q) :
    Does EgGS.directive fmt ⟨pos, reads, d.stars false starPrecision ++ args, mem, str⟩ Q := by
  obtain ⟨hflags, hwidth⟩ := BytesAt.append.mp htext.2
  obtain ⟨-, hprecision⟩ := BytesAt.append.mp hwidth
  obtain ⟨-, hending⟩ := BytesAt.append.mp hprecision
  have hlen : pos + (d.text false starPrecision).length - 1 =
      pos + 1 + d.flags.length + (d.widthText false).length +
        (d.precisionText starPrecision).length + d.qualifier.toList.length := by
    simp only [text, ending, List.length_cons, List.length_append, List.length_nil]
    omega
  rw [hlen] at hconvert
  unfold EgGS.directive
  refine (hd.readFlags htext).bind fun _ => ?_
  refine (hd.readWidth hwidth).bind fun _ => ?_
  refine (hd.readPrecision hprecision).bind fun _ => ?_
  exact (hd.readQualifier hending).bind fun _ => hconvert _

/-- At a `*` in place of the width the directive ends. -/
theorem Valid.directive_star (hd : d.Valid) {w : ℕ} (hw : d.width = some w)
    (htext : BytesAt fmt pos (d.text true starPrecision)) :
    Does EgGS.directive fmt ⟨pos, reads, (w : ℤ) :: args, mem, str⟩ fun _ t =>
      t.pos = pos + 1 + d.flags.length := by
  have hstar : fmt (pos + 1 + d.flags.length) = chr '*' := by
    obtain ⟨-, hwidth⟩ := BytesAt.append.mp htext.2
    unfold widthText at hwidth
    rw [hw] at hwidth
    exact hwidth.1
  unfold EgGS.directive
  refine (hd.readFlags htext).bind fun reads => ?_
  have hwidth : Leaves (EgGS.readWidth (d.flags.foldl addFlag {})) fmt
      ⟨pos + 1 + d.flags.length, reads, (w : ℤ) :: args, mem, str⟩
        (d.flags.foldl addFlag {}, (w : ℤ))
      (pos + 1 + d.flags.length) args str := by
    unfold EgGS.readWidth
    refine bind_fmtChar hstar ?_
    rw [if_neg (by decide), if_pos rfl]
    refine bind_vaArg ?_
    rw [if_neg (by omega)]
    exact .pure ⟨rfl, _, rfl⟩
  refine hwidth.bind fun _ => ?_
  refine (readPrecision_leaves (by decide) hstar).bind fun _ => ?_
  refine (readQualifier_leaves (by decide) hstar).bind fun _ => ?_
  unfold convert
  refine bind_fmtChar hstar ?_
  rw [if_neg (by decide), if_neg (by decide), if_neg (by decide), if_neg (by decide),
    if_neg (by decide), if_neg (by decide), if_neg (by decide), if_neg (by decide),
    if_neg (by decide)]
  unfold convertOther
  refine .ite (fun _ => emits (.ite (fun _ => .update rfl) fun h => ?_)) fun h => ?_
  · exact absurd (by decide) h
  · exact absurd (by decide) h

end Reading

end Directive

/-! ## The conversions -/

section Conversions

variable {mem : ℕ → UInt8} {args : List ℤ} {str : List UInt8} {c : UInt8}

/-- `convert` does the same wherever its character stands. -/
def Determined (flags : FmtFlags) (width precision : ℤ) (c : UInt8) (args : List ℤ)
    (mem : ℕ → UInt8) (str : List UInt8) : Prop :=
  ∃ rest mem' out, ∀ (fmt : ℕ → UInt8) (pos : ℕ) (reads : List ℕ), fmt pos = c →
    Does (convert flags width precision) fmt ⟨pos, reads, args, mem, str⟩ fun _ t =>
      t.pos = pos ∧ t.args = rest ∧ t.mem = mem' ∧ t.str = out

/-- The conversions that call `number`. -/
theorem number_determined {flags : FmtFlags} {width precision : ℤ} (base : ℕ) (width' : ℤ)
    (flags' : FmtFlags) (hbase : 2 ≤ base ∧ base ≤ 36)
    (hneed : Phase.step .conversion c = (some .int, .text))
    (hargs : Supplied .conversion [c] args mem)
    (hconvert : ∀ {fmt : ℕ → UInt8} {pos : ℕ} {reads : List ℕ} {Q : Unit → Printing → Prop},
      fmt pos = c →
      Does (convertNumber base width' precision flags') fmt ⟨pos, pos :: reads, args, mem, str⟩ Q →
      Does (convert flags width precision) fmt ⟨pos, reads, args, mem, str⟩ Q) :
    Determined flags width precision c args mem str := by
  rw [Supplied, hneed] at hargs
  obtain ⟨w, rest, rfl, -⟩ := hargs
  obtain ⟨text, htext⟩ := number_isSome hbase (wrap32 w) width' precision flags'
  refine ⟨rest, mem, str ++ text, fun fmt pos reads hpos => hconvert hpos ?_⟩
  refine (convertNumber_leaves htext).mono ?_
  rintro _ _ ⟨-, _, rfl⟩
  exact ⟨rfl, rfl, rfl, rfl⟩

theorem char_determined {flags : FmtFlags} {width precision : ℤ}
    (hargs : Supplied .conversion [chr 'c'] args mem) :
    Determined flags width precision (chr 'c') args mem str := by
  have hneed : Phase.step .conversion (chr 'c') = (some .int, .text) := by decide
  rw [Supplied, hneed] at hargs
  obtain ⟨w, rest, rfl, -⟩ := hargs
  let pads := if !flags.left then padPre width [] else ([], width)
  refine ⟨rest, mem, str ++ pads.1 ++ [UInt8.ofNat (unsigned w)] ++ (padPre pads.2 []).1,
    fun fmt pos reads hpos => ?_⟩
  unfold convert
  refine bind_fmtChar hpos ?_
  rw [if_pos rfl]
  unfold convertChar
  exact bind_emit (bind_vaArg (bind_emit (.update ⟨rfl, rfl, rfl, rfl⟩)))

theorem string_determined {flags : FmtFlags} {width precision : ℤ}
    (hargs : Supplied .conversion [chr 's'] args mem) :
    Determined flags width precision (chr 's') args mem str := by
  have hneed : Phase.step .conversion (chr 's') = (some .string, .text) := by decide
  rw [Supplied, hneed] at hargs
  obtain ⟨w, rest, rfl, ⟨l, hl⟩, -⟩ := hargs
  let len := if 0 ≤ precision ∧ precision < l.length then precision else l.length
  let pads := if !flags.left then padPost (chr ' ') len width [] else ([], width)
  refine ⟨rest, mem, str ++ (pads.1 ++ (List.range len.toNat).map fun i => mem (unsigned w + i)) ++
    (padPost (chr ' ') len pads.2 []).1, fun fmt pos reads hpos => ?_⟩
  unfold convert
  refine bind_fmtChar hpos ?_
  rw [if_neg (by decide), if_pos rfl]
  unfold convertString
  refine bind_vaArg ((strlen_leaves hl).bind fun _ => .bind_read (bind_emit (.update ?_)))
  exact ⟨rfl, rfl, rfl, rfl⟩

theorem count_determined {flags : FmtFlags} {width precision : ℤ}
    (hargs : Supplied .conversion [chr 'n'] args mem) :
    Determined flags width precision (chr 'n') args mem str := by
  have hneed : Phase.step .conversion (chr 'n') = (some .cell, .text) := by decide
  rw [Supplied, hneed] at hargs
  obtain ⟨w, rest, rfl, -⟩ := hargs
  refine ⟨rest, fun a => if unsigned w ≤ a ∧ a < unsigned w + 4 then
      UInt8.ofNat (str.length / 256 ^ (a - unsigned w)) else mem a, str,
    fun fmt pos reads hpos => ?_⟩
  unfold convert
  refine bind_fmtChar hpos ?_
  rw [if_neg (by decide), if_neg (by decide), if_neg (by decide), if_neg (by decide),
    if_neg (by decide), if_neg (by decide), if_neg (by decide), if_neg (by decide), if_pos rfl]
  unfold storeCount
  exact bind_vaArg (.update ⟨rfl, rfl, rfl, rfl⟩)

theorem percent_determined {flags : FmtFlags} {width precision : ℤ} :
    Determined flags width precision (chr '%') args mem str := by
  refine ⟨args, mem, str ++ [chr '%'], fun fmt pos reads hpos => ?_⟩
  unfold convert
  refine bind_fmtChar hpos ?_
  rw [if_neg (by decide), if_neg (by decide), if_neg (by decide), if_neg (by decide),
    if_neg (by decide), if_neg (by decide), if_neg (by decide), if_neg (by decide),
    if_neg (by decide)]
  unfold convertOther
  refine .ite (fun h => absurd rfl h) fun _ => .ite
    (fun _ => .update ⟨rfl, rfl, rfl, rfl⟩) fun h => ?_
  exact absurd (by decide) h

/-- What a conversion does depends on its character, on the arguments and on the memory only. -/
theorem convert_determined {flags : FmtFlags} {width precision : ℤ} (hc : c ∈ conversions)
    (hargs : Supplied .conversion [c] args mem) :
    Determined flags width precision c args mem str := by
  simp only [conversions, List.mem_cons, List.not_mem_nil, or_false] at hc
  -- one case for each conversion character, in the order of the `switch`
  rcases hc with rfl | rfl | rfl | rfl | rfl | rfl | rfl | rfl | rfl | rfl | rfl
  · exact char_determined hargs
  · exact string_determined hargs
  · refine number_determined 8 width flags (by omega) (by decide) hargs fun hpos h => ?_
    unfold convert
    refine bind_fmtChar hpos ?_
    rw [if_neg (by decide), if_neg (by decide), if_pos rfl]
    exact h
  · -- `%p` without a width prints eight digits
    by_cases hwidth : width = -1
    · refine number_determined 16 8 { flags with zeropad := true } (by omega) (by decide) hargs
        fun hpos h => ?_
      unfold convert
      refine bind_fmtChar hpos ?_
      rw [if_neg (by decide), if_neg (by decide), if_neg (by decide), if_pos rfl, if_pos hwidth]
      exact h
    · refine number_determined 16 width flags (by omega) (by decide) hargs fun hpos h => ?_
      unfold convert
      refine bind_fmtChar hpos ?_
      rw [if_neg (by decide), if_neg (by decide), if_neg (by decide), if_pos rfl, if_neg hwidth]
      exact h
  · refine number_determined 16 width { flags with small := true } (by omega) (by decide) hargs
      fun hpos h => ?_
    unfold convert
    refine bind_fmtChar hpos ?_
    rw [if_neg (by decide), if_neg (by decide), if_neg (by decide), if_neg (by decide), if_pos rfl]
    exact h
  · refine number_determined 16 width flags (by omega) (by decide) hargs fun hpos h => ?_
    unfold convert
    refine bind_fmtChar hpos ?_
    rw [if_neg (by decide), if_neg (by decide), if_neg (by decide), if_neg (by decide),
      if_neg (by decide), if_pos rfl]
    exact h
  · refine number_determined 10 width { flags with sign := true } (by omega) (by decide) hargs
      fun hpos h => ?_
    unfold convert
    refine bind_fmtChar hpos ?_
    rw [if_neg (by decide), if_neg (by decide), if_neg (by decide), if_neg (by decide),
      if_neg (by decide), if_neg (by decide), if_pos (.inl rfl)]
    exact h
  · refine number_determined 10 width { flags with sign := true } (by omega) (by decide) hargs
      fun hpos h => ?_
    unfold convert
    refine bind_fmtChar hpos ?_
    rw [if_neg (by decide), if_neg (by decide), if_neg (by decide), if_neg (by decide),
      if_neg (by decide), if_neg (by decide), if_pos (.inr rfl)]
    exact h
  · refine number_determined 10 width flags (by omega) (by decide) hargs fun hpos h => ?_
    unfold convert
    refine bind_fmtChar hpos ?_
    rw [if_neg (by decide), if_neg (by decide), if_neg (by decide), if_neg (by decide),
      if_neg (by decide), if_neg (by decide), if_neg (by decide), if_pos rfl]
    exact h
  · exact count_determined hargs
  · exact percent_determined

end Conversions

/-! ## Stars and values -/

section Stars

variable {d : Directive} {fmt fmt' : ℕ → UInt8} {s s' : Printing} {mem : ℕ → UInt8}
variable {args : List ℤ} {str : List UInt8}

/-- A round of the loop does a directive, and moves on. -/
theorem directive_round {Q : Printing → Prop} (hpercent : fmt s.pos = chr '%')
    (h : ∀ reads, Does directive fmt { s with reads } fun _ t => Q { t with pos := t.pos + 1 }) :
    Does formatRound fmt s fun x t => x = .inl () ∧ Q t := by
  unfold formatRound
  refine readChar ?_
  rw [hpercent, if_neg (by decide), if_neg (by decide)]
  exact (h _).bind fun _ t ht => moveOn (.pure ⟨rfl, ht⟩)

/-- The conversion stands at the end of the directive. -/
theorem Directive.conv_at {pos : ℕ} {starWidth starPrecision : Bool}
    (htext : BytesAt fmt pos (d.text starWidth starPrecision)) :
    0 < (d.text starWidth starPrecision).length ∧
      fmt (pos + ((d.text starWidth starPrecision).length - 1)) = d.conv := by
  have hpos : 0 < (d.text starWidth starPrecision).length := Nat.succ_pos _
  refine ⟨hpos, ?_⟩
  rw [htext.get (by omega)]
  simp only [Directive.text, Directive.ending, ← List.append_assoc, ← List.cons_append,
    List.length_append, List.length_singleton, Nat.add_sub_cancel, List.getElem_concat_length]

/-- What the round of a directive does whose width is no star. -/
theorem Directive.Valid.round (hd : d.Valid) (hargs : Supplied .conversion [d.conv] args mem) :
    ∃ rest mem' out, ∀ (fmt : ℕ → UInt8) (pos : ℕ) (reads : List ℕ) (star : Bool),
      BytesAt fmt pos (d.text false star) →
      Does formatRound fmt ⟨pos, reads, d.stars false star ++ args, mem, str⟩ fun x t =>
        x = .inl () ∧ t.pos = pos + (d.text false star).length ∧ t.args = rest ∧ t.mem = mem' ∧
          t.str = out := by
  obtain ⟨rest, mem', out, hconvert⟩ : Determined (d.flags.foldl addFlag {}) d.widthValue
    d.precisionValue d.conv args mem str := convert_determined hd.conv hargs
  refine ⟨rest, mem', out, fun fmt pos reads star htext => ?_⟩
  obtain ⟨hlen, hconv⟩ := Directive.conv_at htext
  rw [← Nat.add_sub_assoc hlen] at hconv
  refine directive_round (Q := fun t => t.pos = pos + (d.text false star).length ∧ t.args = rest ∧
    t.mem = mem' ∧ t.str = out) htext.1 fun reads => ?_
  refine hd.directive htext fun reads => ?_
  refine (hconvert fmt _ reads hconv).mono fun _ t ⟨hpos, hrest, hmem, hout⟩ => ?_
  refine ⟨?_, hrest, hmem, hout⟩
  dsimp only
  omega

/-- The round of a directive whose width is a star ends behind the star, in front of the
conversion. -/
theorem not_same_of_star {starPrecision : Bool} {w : ℕ} (hd : d.Valid) (hw : d.width = some w)
    (htext : BytesAt fmt' s'.pos (d.text true starPrecision))
    (hargs : s'.args = d.stars true starPrecision ++ s.args) :
    ¬ SameDirective d true starPrecision fmt s fmt' s' := by
  rintro ⟨t, t', -, heval, -, hpos, -⟩
  obtain ⟨pos', reads', args', mem', str'⟩ := s'
  dsimp only at *
  subst hargs
  have hstars : d.stars true starPrecision ++ s.args =
      (w : ℤ) :: ((if starPrecision then d.precision.toList.map (fun p : ℕ => (p : ℤ)) else []) ++
        s.args) := by
    unfold Directive.stars
    rw [hw]
    rfl
  rw [hstars] at heval
  have hround : Does formatRound fmt' ⟨pos', reads', (w : ℤ) ::
      ((if starPrecision then d.precision.toList.map (fun p : ℕ => (p : ℤ)) else []) ++ s.args),
      mem', str'⟩ fun x t => x = .inl () ∧ t.pos = pos' + 1 + d.flags.length + 1 :=
    directive_round (Q := fun t => t.pos = pos' + 1 + d.flags.length + 1) htext.1 fun reads =>
      (hd.directive_star hw htext).mono fun _ t ht => congrArg (· + 1) ht
  obtain ⟨x, u, heval', -, hu⟩ := hround
  obtain ⟨-, rfl⟩ := heval.unique heval'
  rw [hpos] at hu
  simp only [Directive.text, Directive.widthText, hw, Directive.ending, if_pos, List.length_cons,
    List.length_append, List.length_nil] at hu
  omega

/-- **Stars and values**: with the argument that its conversion takes, a directive with stars does
what it does with the values in their place, exactly when its width is no star. -/
theorem star_same_iff {starWidth starPrecision : Bool} (hd : d.Valid)
    (htext : BytesAt fmt s.pos (d.text false false))
    (htext' : BytesAt fmt' s'.pos (d.text starWidth starPrecision))
    (hargs : s'.args = d.stars starWidth starPrecision ++ s.args) (hmem : s'.mem = s.mem)
    (hstr : s'.str = s.str) (hsupplied : Supplied .conversion [d.conv] s.args s.mem) :
    SameDirective d starWidth starPrecision fmt s fmt' s' ↔
      ¬ (starWidth = true ∧ d.width.isSome) := by
  constructor
  · rintro hsame ⟨rfl, hwidth⟩
    obtain ⟨w, hw⟩ := Option.isSome_iff_exists.mp hwidth
    exact not_same_of_star hd hw htext' hargs hsame
  · intro hnot
    obtain ⟨pos, reads, args, mem, str⟩ := s
    obtain ⟨pos', reads', args', mem', str'⟩ := s'
    dsimp only at *
    subst hargs hmem hstr
    obtain ⟨rest, mem', out, hround⟩ := hd.round hsupplied
    have hplain : d.text starWidth starPrecision = d.text false starPrecision ∧
        d.stars starWidth starPrecision = d.stars false starPrecision := by
      cases starWidth with
      | false => exact ⟨rfl, rfl⟩
      | true =>
          have hnone : d.width = none := Option.not_isSome_iff_eq_none.mp fun h => hnot ⟨rfl, h⟩
          simp [Directive.text, Directive.widthText, Directive.stars, hnone]
    rw [hplain.1] at htext'
    obtain ⟨_, t, heval, rfl, hpos, hrest, hmem, hout⟩ := hround fmt pos reads false htext
    obtain ⟨_, t', heval', rfl, hpos', hrest', hmem', hout'⟩ :=
      hround fmt' pos' reads' starPrecision htext'
    refine ⟨t, t', heval, ?_, hpos, ?_, hout'.trans hout.symm, hrest'.trans hrest.symm,
      hmem'.trans hmem.symm⟩
    · rw [hplain.2]
      exact heval'
    · rw [hplain.1]
      exact hpos'

end Stars

theorem formatMemory_bytes (format : List UInt8) : BytesAt (formatMemory format) 0 format :=
  .of_get fun i hi => by simp [formatMemory, hi]

/-- `%5.2d` -/
def fiveTwo : Directive := ⟨[], some 5, some 2, none, chr 'd'⟩

theorem fiveTwo_valid : fiveTwo.Valid := by
  refine ⟨?_, ?_, ?_, ?_, by decide⟩ <;> simp [fiveTwo]

theorem supplied_number (w : ℤ) (mem : ℕ → UInt8) : Supplied .conversion [chr 'd'] [w] mem := by
  have hstep : Phase.step .conversion (chr 'd') = (some .int, .text) := by decide
  rw [Supplied, hstep]
  exact ⟨w, [], rfl, trivial⟩

/-- `%5.*d` and `%*.*d` beside `%5.2d`. -/
theorem star_same_iff_fiveTwo :
    (SameDirective fiveTwo false true (formatMemory (fiveTwo.text false false))
        ⟨0, [], [42], fun _ => 0, []⟩ (formatMemory (fiveTwo.text false true))
        ⟨0, [], [2, 42], fun _ => 0, []⟩ ↔ ¬ (false = true ∧ fiveTwo.width.isSome)) ∧
      (SameDirective fiveTwo true true (formatMemory (fiveTwo.text false false))
        ⟨0, [], [42], fun _ => 0, []⟩ (formatMemory (fiveTwo.text true true))
        ⟨0, [], [5, 2, 42], fun _ => 0, []⟩ ↔ ¬ (true = true ∧ fiveTwo.width.isSome)) :=
  ⟨star_same_iff fiveTwo_valid (formatMemory_bytes _) (formatMemory_bytes _) rfl rfl rfl
    (supplied_number 42 _), star_same_iff fiveTwo_valid (formatMemory_bytes _)
    (formatMemory_bytes _) rfl rfl rfl (supplied_number 42 _)⟩

/-- `%5d` -/
def fiveWide : Directive := ⟨[], some 5, none, none, chr 'd'⟩

theorem fiveWide_valid : fiveWide.Valid := by
  refine ⟨?_, ?_, ?_, ?_, by decide⟩ <;> simp [fiveWide]

/-- `%*d` with 5 and 42 prints the directive, and leaves the 42 to the rest of the format. -/
theorem star_width_printed :
    (vsprintf (formatMemory (fiveWide.text false false)) 9
        ⟨0, [], [42], fun _ => 0, []⟩).state.str = bytes "   42" ++ [0] ∧
      (vsprintf (formatMemory (fiveWide.text true false)) 9
        ⟨0, [], [5, 42], fun _ => 0, []⟩).state.str = bytes "%*d" ++ [0] ∧
      ¬ SameDirective fiveWide true false (formatMemory (fiveWide.text false false))
        ⟨0, [], [42], fun _ => 0, []⟩ (formatMemory (fiveWide.text true false))
        ⟨0, [], [5, 42], fun _ => 0, []⟩ :=
  ⟨by decide +kernel, by decide +kernel,
    not_same_of_star fiveWide_valid rfl (formatMemory_bytes _) rfl⟩

end EgGS
