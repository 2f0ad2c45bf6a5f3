import EgGS.Lib.Does
import EgGS.Model.Printf
import Mathlib.Data.Nat.Digits.Defs

/-!
# What `vsprintf` writes

A format is a sequence of pieces: characters that stand for themselves, and the directives
`%d`, `%x`, `%04x`, `%s` and `%.*s` and their like.  `vsprintf` writes the pieces one after
the other.

* `number_text`: the parts of a number, in order.
* `vsprintf_writes`: a format of such pieces, with arguments for all of them, makes `vsprintf`
  return, and write what its pieces write and a `NUL`.
-/

namespace EgGS

open Lib Prog

/-! ## Padding -/

/-- The integers that an `int` can hold and that can be counted down by three. -/
def Small (x : ℤ) : Prop := -2147483646 < x ∧ x < 2147483648

theorem Small.int {x : ℤ} (h : Small x) : -2147483648 ≤ x ∧ x < 2147483648 := by
  obtain ⟨hlo, hhi⟩ := h
  omega

theorem wrap32_of_int {x : ℤ} (hlo : -2147483648 ≤ x) (hhi : x < 2147483648) : wrap32 x = x := by
  unfold wrap32
  omega

theorem whilePost_eq {c : UInt8} {bound : ℤ} (hbound : 0 ≤ bound) : ∀ (rounds : ℕ) {w : ℤ}
    (str : List UInt8), -2147483648 < w → w < 2147483648 → (w - bound).toNat < rounds →
    whilePost c bound rounds w str =
      (str ++ List.replicate (w - bound).toNat c, min w bound - 1) := by
  intro rounds
  induction rounds with
  | zero =>
      intro w str _ _ hrounds
      omega
  | succ rounds ih =>
      intro w str hlo hhi hrounds
      rw [whilePost]
      by_cases hlt : bound < w
      · have hone : (w - bound).toNat = (w - 1 - bound).toNat + 1 := by omega
        rw [if_pos hlt, ih _ (by omega) (by omega) (by omega), hone, List.replicate_succ,
          List.append_assoc, List.singleton_append]
        congr 1
        omega
      · rw [if_neg hlt, wrap32_of_int (by omega) (by omega), Int.toNat_eq_zero.mpr (by omega),
          List.replicate_zero, List.append_nil, min_eq_left (by omega)]

/-- The loop writes what is missing, and leaves a count that no later loop pads for. -/
theorem padPost_eq {c : UInt8} {bound w : ℤ} (hbound : 0 ≤ bound) (hlo : -2147483648 < w)
    (hhi : w < 2147483648) (str : List UInt8) :
    padPost c bound w str = (str ++ List.replicate (w - bound).toNat c, min w bound - 1) :=
  whilePost_eq hbound _ str hlo hhi (Nat.lt_succ_self _)

/-- There is nothing to pad. -/
theorem padPost_short {c : UInt8} {bound w : ℤ} (h : w ≤ bound) (str : List UInt8) :
    padPost c bound w str = (str, wrap32 (w - 1)) := by
  unfold padPost
  rw [whilePost, if_neg (by omega)]

/-! ## Numbers -/

theorem tmpDigits_length (small : Bool) {base : ℕ} (hbase : 1 < base) : ∀ (rounds num : ℕ),
    num < base ^ rounds → (tmpDigits small base rounds num).length = (base.digits num).length := by
  intro rounds
  induction rounds with
  | zero =>
      intro num hnum
      obtain rfl : num = 0 := by simpa using hnum
      simp [tmpDigits]
  | succ rounds ih =>
      intro num hnum
      rw [tmpDigits]
      by_cases hzero : num = 0
      · simp [hzero]
      · have hrest : num / base < base ^ rounds :=
          Nat.div_lt_of_lt_mul (by rwa [Nat.pow_succ, Nat.mul_comm] at hnum)
        rw [if_neg hzero, List.length_cons, ih _ hrest,
          Nat.digits_def' hbase (Nat.pos_of_ne_zero hzero), List.length_cons]

theorem tmpDigits_length_le (small : Bool) (base : ℕ) : ∀ (rounds num : ℕ),
    (tmpDigits small base rounds num).length ≤ rounds := by
  intro rounds
  induction rounds with
  | zero =>
      intro num
      simp [tmpDigits]
  | succ rounds ih =>
      intro num
      rw [tmpDigits]
      split
      · exact Nat.zero_le _
      · simpa using ih _

/-- `tmp` has room for 36 characters. -/
theorem tmpOf_length_le (small : Bool) (base num : ℕ) : (tmpOf small base num).length ≤ 32 := by
  unfold tmpOf
  split
  · decide
  · exact tmpDigits_length_le small base 32 num

/-- The parts of a number that is written with `size` characters left for padding, in order. -/
def numberText (base : ℕ) (size precision : ℤ) (type : FmtFlags) (sign : Option UInt8) (num : ℕ) :
    List UInt8 :=
  let tmp := tmpOf type.small base num
  let pad := size.toNat
  (if type.left ∨ type.zeropad then [] else List.replicate pad (chr ' ')) ++ sign.toList ++
    prefixOf base type ++
    (if type.zeropad ∧ ¬ type.left then List.replicate pad (chr '0') else []) ++
    List.replicate (precision - tmp.length).toNat (chr '0') ++ tmp.reverse ++
    (if type.left then List.replicate pad (chr ' ') else [])

/-- The loops that pad with what is left of the size count below zero without wrapping: one loop
counts it down on the way, two of them without `ZEROPAD`. -/
def CountsDown (type : FmtFlags) (left : ℤ) : Prop :=
  type.left = true ∨ -2147483648 + (if type.zeropad then 1 else 2) ≤ left

theorem Small.countsDown {left : ℤ} (h : Small left) (type : FmtFlags) : CountsDown type left := by
  obtain ⟨hlo, -⟩ := h
  refine .inr ?_
  split <;> omega

/-- **A number**: left padding, sign, prefix, zeros, digits and right padding. -/
theorem number_text {num : ℤ} {base : ℕ} {size precision : ℤ} {type : FmtFlags} {left : ℤ}
    (hbase : 2 ≤ base ∧ base ≤ 36) (hprecision : precision < 2147483648)
    (hleft : left = sizeLeft size base (signOf num type).1 type -
      max precision (tmpOf type.small base (signOf num type).2).length)
    (hlo : -2147483648 ≤ left) (hhi : left < 2147483648) (hdown : CountsDown type left) :
    number num base size precision type =
      some (numberText base left precision type (signOf num type).1 (signOf num type).2) := by
  unfold number
  rw [if_neg (by omega)]
  have hlen := tmpOf_length_le type.small base (signOf num type).2
  have hmax : (if ((tmpOf type.small base (signOf num type).2).length : ℤ) > precision then
      ((tmpOf type.small base (signOf num type).2).length : ℤ) else precision) =
      max precision (tmpOf type.small base (signOf num type).2).length := by
    split <;> omega
  have hzeros : (max precision (tmpOf type.small base (signOf num type).2).length -
      ((tmpOf type.small base (signOf num type).2).length : ℤ)).toNat =
      (precision - (tmpOf type.small base (signOf num type).2).length).toNat := by omega
  have hzero : ∀ str, (padPost (chr '0') (tmpOf type.small base (signOf num type).2).length
      (max precision (tmpOf type.small base (signOf num type).2).length) str).1 =
      str ++ List.replicate (precision - (tmpOf type.small base (signOf num type).2).length).toNat
        (chr '0') := fun str => by rw [padPost_eq (by omega) (by omega) (by omega), hzeros]
  have hint : wrap32 left = left := wrap32_of_int hlo hhi
  have hpad : -2147483648 < left → ∀ c str,
      padPost c 0 left str = (str ++ List.replicate left.toNat c, min left 0 - 1) := by
    intro hlt c str
    simpa using padPost_eq (le_refl 0) hlt hhi str
  -- behind a loop that padded, the count stays below zero
  have hdone : ∀ w c str, w ≤ 0 → (padPost c 0 w str).1 = str := fun w c str hw => by
    rw [padPost_short hw]
  simp only [hmax, ← hleft, hint, numberText]
  cases hl : type.left with
  | true =>
      have hlast : ∀ str, (padPost (chr ' ') 0 left str).1 =
          str ++ List.replicate left.toNat (chr ' ') := by
        intro str
        by_cases hlt : -2147483648 < left
        · rw [hpad hlt]
        · rw [hdone left _ _ (by omega), Int.toNat_eq_zero.mpr (by omega), List.replicate_zero,
            List.append_nil]
      simp [hzero, hlast]
  | false =>
      have hlow : -2147483648 + (if type.zeropad then 1 else 2) ≤ left := by
        simpa [CountsDown, hl] using hdown
      cases hz : type.zeropad with
      | true =>
          rw [hz, if_pos rfl] at hlow
          simp [hpad (by omega), hzero, hdone (min left 0 - 1) _ _ (by omega)]
      | false =>
          rw [hz, if_neg (by decide)] at hlow
          have hsecond : ∀ c str,
              padPost c 0 (min left 0 - 1) str = (str, min left 0 - 2) := fun c str => by
            rw [padPost_short (by omega), wrap32_of_int (by omega) (by omega)]
            congr 1
            omega
          simp [hpad (by omega), hzero, hsecond, hdone (min left 0 - 2) _ _ (by omega)]

theorem numberText_length_le (base : ℕ) (size precision : ℤ) (type : FmtFlags) (sign : Option UInt8)
    (num : ℕ) :
    (numberText base size precision type sign num).length ≤ size.toNat + precision.toNat + 35 := by
  have htmp := tmpOf_length_le type.small base num
  have hsign : sign.toList.length ≤ 1 := by cases sign <;> simp
  have hprefix : (prefixOf base type).length ≤ 2 := by
    unfold prefixOf
    split_ifs <;> simp
  have hpad :
      (if type.left ∨ type.zeropad then [] else List.replicate size.toNat (chr ' ')).length +
      (if type.zeropad ∧ ¬ type.left then List.replicate size.toNat (chr '0') else []).length +
      (if type.left then List.replicate size.toNat (chr ' ') else []).length ≤ size.toNat := by
    cases type.left <;> cases type.zeropad <;> simp
  have hzeros : (List.replicate (precision - (tmpOf type.small base num).length).toNat
      (chr '0')).length ≤ precision.toNat := by
    rw [List.length_replicate]
    omega
  simp only [numberText, List.length_append, List.length_reverse]
  omega

/-- A number without sign, width and precision is written as its digits. -/
theorem number_plain (num : ℕ) (hnum : num < 2147483648) :
    ∃ text, number num 10 (-1) (-1) { sign := true } = some text ∧
      text.length = max 1 (Nat.digits 10 num).length := by
  have hsign : signOf (num : ℤ) { sign := true } = (none, num) := by
    have hnot : ¬ ((num : ℤ) < 0) := by omega
    have hmod : ((num : ℤ) % 4294967296).toNat = num := by omega
    simp [signOf, unsigned, hnot, hmod]
  have hlen := tmpOf_length_le false 10 num
  have hsmall : Small (sizeLeft (-1) 10 (signOf (num : ℤ) { sign := true }).1 { sign := true } -
      max (-1) ((tmpOf false 10 (signOf (num : ℤ) { sign := true }).2).length : ℤ)) := by
    simp only [hsign, sizeLeft]
    constructor <;> simp <;> omega
  refine ⟨_, number_text (by omega) (by omega) rfl hsmall.int.1 hsmall.2 (hsmall.countsDown _), ?_⟩
  · have hleft : (sizeLeft (-1) 10 none { sign := true } -
        max (-1) ((tmpOf false 10 num).length : ℤ)).toNat = 0 := by
      simp only [sizeLeft]
      simp
    have hpad : ((-1 : ℤ) - (tmpOf false 10 num).length).toNat = 0 := by omega
    simp only [hsign, numberText, hleft, hpad, prefixOf]
    simp only [Bool.false_eq_true, or_self, ↓reduceIte, List.replicate_zero, Option.toList_none,
      List.append_nil, false_and, List.nil_append, List.length_reverse]
    unfold tmpOf
    by_cases hzero : num = 0
    · simp [hzero]
    · rw [if_neg hzero, tmpDigits_length false (by omega) 32 num (by omega)]
      have hpos : 0 < (Nat.digits 10 num).length :=
        List.length_pos_of_ne_nil (Nat.digits_ne_nil_iff_ne_zero.mpr hzero)
      omega

/-! ## Bytes in memory -/

/-- The bytes `l` lie at `a`. -/
def BytesAt (m : ℕ → UInt8) : ℕ → List UInt8 → Prop
  | _, [] => True
  | a, c :: l => m a = c ∧ BytesAt m (a + 1) l

/-- The string `l` lies at `a`, and a `NUL` ends it. -/
structure StringAt (m : ℕ → UInt8) (a : ℕ) (l : List UInt8) : Prop where
  bytes : BytesAt m a l
  zero : m (a + l.length) = 0
  nonzero : 0 ∉ l

namespace BytesAt

variable {m : ℕ → UInt8} {a : ℕ} {l l' : List UInt8}

theorem append : BytesAt m a (l ++ l') ↔ BytesAt m a l ∧ BytesAt m (a + l.length) l' := by
  induction l generalizing a with
  | nil => simp [BytesAt]
  | cons c l ih =>
      rw [List.cons_append, BytesAt, BytesAt, ih, List.length_cons, and_assoc,
        show a + 1 + l.length = a + (l.length + 1) by omega]

theorem get (h : BytesAt m a l) {i : ℕ} (hi : i < l.length) : m (a + i) = l[i] := by
  induction l generalizing a i with
  | nil => simp at hi
  | cons c l ih =>
      cases i with
      | zero => exact h.1
      | succ i =>
          rw [show a + (i + 1) = a + 1 + i by omega]
          exact ih h.2 (by simpa using hi)

theorem of_get (h : ∀ i (hi : i < l.length), m (a + i) = l[i]) : BytesAt m a l := by
  induction l generalizing a with
  | nil => trivial
  | cons c l ih =>
      refine ⟨h 0 (Nat.succ_pos _), ih fun i hi => ?_⟩
      rw [show a + 1 + i = a + (i + 1) by omega]
      exact h (i + 1) (Nat.succ_lt_succ hi)

/-- The bytes from `a` on are the ones the range is mapped to. -/
theorem map_range (h : BytesAt m a l) {len : ℕ} (hlen : len ≤ l.length) :
    (List.range len).map (fun i => m (a + i)) = l.take len := by
  refine List.ext_getElem (by simp [hlen]) fun i hi _ => ?_
  have hin : i < l.length := by
    simp only [List.length_map, List.length_range] at hi
    omega
  simp [h.get hin]

end BytesAt

/-! ## Pieces of a format -/

/-- A piece of a format. -/
inductive Piece where
  /-- A character that stands for itself. -/
  | lit (c : UInt8)
  /-- `%d` or `%x`, with a width of one digit or none, and maybe padded with zeros. -/
  | number (zero : Bool) (width : ℕ) (hex : Bool)
  /-- `%s` -/
  | string
  /-- `%.*s` -/
  | clipped
  deriving DecidableEq

namespace Piece

/-- The piece as it stands in the format. -/
def text : Piece → List UInt8
  | lit c => [c]
  | number zero width hex =>
      [chr '%'] ++ (if zero then [chr '0'] else []) ++
        (if width = 0 then [] else [UInt8.ofNat (48 + width)]) ++ [if hex then chr 'x' else chr 'd']
  | string => [chr '%', chr 's']
  | clipped => [chr '%', chr '.', chr '*', chr 's']

/-- A character is no directive, and a width has one digit. -/
def Ok : Piece → Prop
  | lit c => c ≠ 0 ∧ c ≠ chr '%'
  | number _ width _ => width < 10
  | _ => True

/-- The flags that `number` gets. -/
def flags (zero hex : Bool) : FmtFlags := { zeropad := zero, small := hex, sign := !hex }

/-- The width that `number` gets. -/
def fieldWidth (width : ℕ) : ℤ := if width = 0 then -1 else width

/-- With `args` the piece writes `out`, and leaves the arguments `rest`. -/
inductive Writes (mem : ℕ → UInt8) : Piece → (args rest : List ℤ) → (out : List UInt8) → Prop
  | lit (c : UInt8) (args : List ℤ) : Writes mem (lit c) args args [c]
  | number {zero hex : Bool} {width : ℕ} {w : ℤ} {out : List UInt8} (args : List ℤ) :
      EgGS.number (wrap32 w) (if hex then 16 else 10) (fieldWidth width) (-1) (flags zero hex) =
        some out →
      Writes mem (number zero width hex) (w :: args) args out
  | string {w : ℤ} {l : List UInt8} (args : List ℤ) : StringAt mem (unsigned w) l →
      Writes mem string (w :: args) args l
  | clipped {p w : ℤ} {l : List UInt8} (args : List ℤ) : StringAt mem (unsigned w) l →
      Writes mem clipped (p :: w :: args) args (l.take p.toNat)

end Piece

/-- With `args` the pieces write `out`. -/
inductive WriteAll (mem : ℕ → UInt8) : List Piece → List ℤ → List UInt8 → Prop
  | nil (args : List ℤ) : WriteAll mem [] args []
  | cons {p : Piece} {ps : List Piece} {args rest : List ℤ} {out outs : List UInt8} :
      p.Writes mem args rest out → WriteAll mem ps rest outs →
      WriteAll mem (p :: ps) args (out ++ outs)

/-! ## The programs -/

section Programs

variable {α β : Type} {fmt mem : ℕ → UInt8} {pos : ℕ} {reads : List ℕ} {args : List ℤ}
variable {str : List UInt8} {s : Printing} {c : UInt8}

/-- `m` returns `a`, at `pos` in the format, with the arguments `args` left and with `str`
written.  The memory is as before. -/
def Leaves (m : F α) (fmt : ℕ → UInt8) (s : Printing) (a : α) (pos : ℕ) (args : List ℤ)
    (str : List UInt8) : Prop :=
  Does m fmt s fun b t => b = a ∧ ∃ reads, t = ⟨pos, reads, args, s.mem, str⟩

theorem Leaves.bind {m : F α} {f : α → F β} {a : α} {Q : β → Printing → Prop}
    (h : Leaves m fmt s a pos args str)
    (hf : ∀ reads, Does (f a) fmt ⟨pos, reads, args, s.mem, str⟩ Q) : Does (m >>= f) fmt s Q :=
  Does.bind h fun b t ⟨hb, reads, ht⟩ => by
    subst hb ht
    exact hf reads

theorem bind_fmtChar {f : UInt8 → F β} {Q : β → Printing → Prop} (hc : fmt pos = c)
    (h : Does (f c) fmt ⟨pos, pos :: reads, args, mem, str⟩ Q) :
    Does (fmtChar >>= f) fmt ⟨pos, reads, args, mem, str⟩ Q := by
  subst hc
  exact h

theorem bind_fmtNext {f : Unit → F β} {Q : β → Printing → Prop}
    (h : Does (f ()) fmt ⟨pos + 1, reads, args, mem, str⟩ Q) :
    Does (fmtNext >>= f) fmt ⟨pos, reads, args, mem, str⟩ Q := h

theorem bind_emit {text : List UInt8} {f : Unit → F β} {Q : β → Printing → Prop}
    (h : Does (f ()) fmt ⟨pos, reads, args, mem, str ++ text⟩ Q) :
    Does (emit text >>= f) fmt ⟨pos, reads, args, mem, str⟩ Q := h

theorem bind_vaArg {w : ℤ} {f : ℤ → F β} {Q : β → Printing → Prop}
    (h : Does (f w) fmt ⟨pos, reads, args, mem, str⟩ Q) :
    Does (vaArg >>= f) fmt ⟨pos, reads, w :: args, mem, str⟩ Q := h

/-- The character is a flag. -/
def isFlag (c : UInt8) : Prop :=
  c = chr '-' ∨ c = chr '+' ∨ c = chr ' ' ∨ c = chr '#' ∨ c = chr '0'

theorem readFlags_leaves (zero : Bool) (hc : ¬ isFlag c)
    (htext : BytesAt fmt (pos + 1) ((if zero then [chr '0'] else []) ++ [c])) :
    Leaves readFlags fmt ⟨pos, reads, args, mem, str⟩ { zeropad := zero }
      (pos + 1 + if zero then 1 else 0) args str := by
  simp only [isFlag, not_or] at hc
  obtain ⟨hminus, hplus, hspace, hhash, hzero⟩ := hc
  refine LoopDoes.does ?_
  cases zero with
  | false =>
      refine .done (bind_fmtNext (bind_fmtChar htext.1 ?_))
      simp only [if_neg hminus, if_neg hplus, if_neg hspace, if_neg hhash, if_neg hzero]
      exact .pure ⟨_, rfl, rfl, _, rfl⟩
  | true =>
      refine .step (bind_fmtNext (bind_fmtChar htext.1 (.pure ⟨_, rfl, ?_⟩)))
      refine .done (bind_fmtNext (bind_fmtChar htext.2.1 ?_))
      simp only [if_neg hminus, if_neg hplus, if_neg hspace, if_neg hhash, if_neg hzero]
      exact .pure ⟨_, rfl, rfl, _, rfl⟩

/-- The conversion character `c` is no digit, and starts no precision and no qualifier. -/
structure Plain (c : UInt8) : Prop where
  digit : isDigit c = false
  star : c ≠ chr '*'
  dot : c ≠ chr '.'
  qualifier : ¬ (c = chr 'h' ∨ c = chr 'l' ∨ c = chr 'L')

theorem skipAtoi_leaves {d : UInt8} (hd : isDigit d = true) (hc : isDigit c = false)
    (htext : BytesAt fmt pos [d, c]) :
    Leaves skipAtoi fmt ⟨pos, reads, args, mem, str⟩ (wrap32 (0 * 10 + d.toNat - 48)) (pos + 1)
      args str := by
  refine LoopDoes.does (.step (bind_fmtChar htext.1 ?_))
  rw [if_pos hd]
  refine bind_fmtNext (.pure ⟨_, rfl, .done (bind_fmtChar htext.2.1 ?_)⟩)
  rw [if_neg (by simp [hc])]
  exact .pure ⟨_, rfl, rfl, _, rfl⟩

/-- The digit of a width. -/
theorem widthDigit {width : ℕ} (hwidth : width < 10) :
    isDigit (UInt8.ofNat (48 + width)) = true ∧
      wrap32 (0 * 10 + (UInt8.ofNat (48 + width)).toNat - 48) = width := by
  have hcases : ∀ w < 10, isDigit (UInt8.ofNat (48 + w)) = true ∧
      wrap32 (0 * 10 + (UInt8.ofNat (48 + w)).toNat - 48) = w := by decide
  exact hcases width hwidth

theorem readWidth_leaves {width : ℕ} {flags : FmtFlags} (hwidth : width < 10)
    (hdig : isDigit c = false) (hstar : c ≠ chr '*')
    (htext : BytesAt fmt pos ((if width = 0 then [] else [UInt8.ofNat (48 + width)]) ++ [c])) :
    Leaves (readWidth flags) fmt ⟨pos, reads, args, mem, str⟩ (flags, Piece.fieldWidth width)
      (pos + if width = 0 then 0 else 1) args str := by
  unfold readWidth Piece.fieldWidth
  by_cases hzero : width = 0
  · rw [if_pos hzero] at htext
    refine bind_fmtChar htext.1 ?_
    rw [if_neg (by simp [hdig]), if_neg hstar, if_pos hzero, if_pos hzero]
    exact .pure ⟨rfl, _, rfl⟩
  · obtain ⟨hdigit, hvalue⟩ := widthDigit hwidth
    rw [if_neg hzero] at htext
    refine bind_fmtChar htext.1 ?_
    rw [if_pos hdigit, if_neg hzero, if_neg hzero]
    refine (skipAtoi_leaves hdigit hdig htext).bind fun _ => ?_
    rw [hvalue]
    exact .pure ⟨rfl, _, rfl⟩

theorem readWidth_none {flags : FmtFlags} (hdig : isDigit c = false) (hstar : c ≠ chr '*')
    (htext : fmt pos = c) :
    Leaves (readWidth flags) fmt ⟨pos, reads, args, mem, str⟩ (flags, -1) pos args str := by
  unfold readWidth
  refine bind_fmtChar htext ?_
  rw [if_neg (by simp [hdig]), if_neg hstar]
  exact .pure ⟨rfl, _, rfl⟩

theorem readPrecision_leaves (hc : c ≠ chr '.') (htext : fmt pos = c) :
    Leaves readPrecision fmt ⟨pos, reads, args, mem, str⟩ (-1) pos args str := by
  unfold readPrecision
  refine bind_fmtChar htext ?_
  rw [if_neg hc]
  exact .pure ⟨rfl, _, rfl⟩

/-- Behind `.` the precision is an argument if `*` stands there. -/
theorem readPrecision_star {p : ℤ} (hdot : fmt pos = chr '.') (hstar : fmt (pos + 1) = chr '*') :
    Leaves readPrecision fmt ⟨pos, reads, p :: args, mem, str⟩ (if p < 0 then 0 else p) (pos + 2)
      args str := by
  have hvalue : ∀ reads, Leaves readPrecisionValue fmt ⟨pos + 1, reads, p :: args, mem, str⟩ p
      (pos + 2) args str := by
    intro reads
    unfold readPrecisionValue
    refine bind_fmtChar hstar ?_
    rw [if_neg (by decide), if_pos rfl]
    exact bind_fmtNext (bind_vaArg (.pure ⟨rfl, _, rfl⟩))
  unfold readPrecision
  refine bind_fmtChar hdot ?_
  rw [if_pos rfl]
  exact bind_fmtNext ((hvalue _).bind fun _ => .pure ⟨rfl, _, rfl⟩)

theorem readQualifier_leaves (hc : ¬ (c = chr 'h' ∨ c = chr 'l' ∨ c = chr 'L'))
    (htext : fmt pos = c) :
    Leaves readQualifier fmt ⟨pos, reads, args, mem, str⟩ () pos args str := by
  unfold readQualifier
  refine bind_fmtChar htext ?_
  rw [if_neg hc]
  exact .pure ⟨rfl, _, rfl⟩

/-! ### Conversions -/

theorem convertNumber_leaves {w : ℤ} {base : ℕ} {width precision : ℤ} {flags : FmtFlags}
    {out : List UInt8} (hout : number (wrap32 w) base width precision flags = some out) :
    Leaves (convertNumber base width precision flags) fmt ⟨pos, reads, w :: args, mem, str⟩ () pos
      args (str ++ out) := by
  unfold convertNumber
  refine bind_vaArg ?_
  rw [hout]
  exact .update ⟨rfl, reads, rfl⟩

theorem strlen_leaves {a : ℕ} {l : List UInt8} (h : StringAt mem a l) :
    Leaves (strlen a) fmt ⟨pos, reads, args, mem, str⟩ l.length pos args str := by
  have hrest : ∀ left len, left + len = l.length →
      LoopDoes (fun len => (do
        let t ← Prog.read
        if t.mem (a + len) = 0 then pure (.inr len) else pure (.inl (len + 1)) : F (ℕ ⊕ ℕ))) fmt len
        ⟨pos, reads, args, mem, str⟩ fun b t => b = l.length ∧
          ∃ reads, t = ⟨pos, reads, args, mem, str⟩ := by
    intro left
    induction left with
    | zero =>
        intro len hlen
        obtain rfl : len = l.length := by omega
        refine .done (.bind_read (.ite (fun _ => .pure ⟨_, rfl, rfl, _, rfl⟩) fun hne => ?_))
        exact absurd h.zero hne
    | succ left ih =>
        intro len hlen
        refine .step (.bind_read (.ite (fun hzero => ?_) fun _ => .pure ⟨_, rfl, ih _ (by omega)⟩))
        have hget : mem (a + len) = l[len] := h.bytes.get (by omega)
        exact absurd (List.getElem_mem (by omega : len < l.length))
          (hget.symm.trans hzero ▸ h.nonzero)
  exact (hrest l.length 0 (by omega)).does

/-- Without a width a string is written up to its precision. -/
theorem convertString_leaves {w precision : ℤ} {l : List UInt8} {flags : FmtFlags}
    (h : StringAt mem (unsigned w) l) :
    Leaves (convertString flags (-1) precision) fmt ⟨pos, reads, w :: args, mem, str⟩ () pos args
      (str ++ if 0 ≤ precision then l.take precision.toNat else l) := by
  unfold convertString
  refine bind_vaArg ((strlen_leaves h).bind fun reads => ?_)
  obtain ⟨len, hlen, hle, htake⟩ : ∃ len : ℕ,
      (if 0 ≤ precision ∧ precision < l.length then precision else (l.length : ℤ)) = len ∧
      len ≤ l.length ∧ l.take len = if 0 ≤ precision then l.take precision.toNat else l := by
    by_cases hcut : 0 ≤ precision ∧ precision < l.length
    · refine ⟨precision.toNat, ?_, by omega, by rw [if_pos hcut.1]⟩
      rw [if_pos hcut]
      omega
    · refine ⟨l.length, by rw [if_neg hcut], le_refl _, ?_⟩
      split
      · rw [List.take_length, List.take_of_length_le (by omega)]
      · exact List.take_length
  have hpad : ∀ str, padPost (chr ' ') (len : ℤ) (-1) str = (str, -2) := fun str =>
    padPost_short (by omega) str
  have hpad' : ∀ str, (padPost (chr ' ') (len : ℤ) (-2) str).1 = str := fun str => by
    rw [padPost_short (by omega)]
  refine .bind_read ?_
  have hmap := h.bytes.map_range hle
  rw [htake] at hmap
  simp only [hlen, hpad, Int.toNat_natCast, hmap]
  cases flags.left with
  | false =>
      refine bind_emit ?_
      simp only [Bool.not_false, ↓reduceIte, hpad', List.nil_append]
      exact .update ⟨trivial, reads, by rw [List.append_nil]⟩
  | true =>
      refine bind_emit ?_
      simp only [Bool.not_true, Bool.false_eq_true, ↓reduceIte, hpad, List.nil_append]
      exact .update ⟨trivial, reads, by rw [List.append_nil]⟩

/-! ### Pieces -/

/-- The conversion character of a number. -/
def Piece.conv (hex : Bool) : UInt8 := if hex then chr 'x' else chr 'd'

theorem conv_plain (hex : Bool) : Plain (Piece.conv hex) := by
  cases hex <;> exact ⟨by decide, by decide, by decide, by decide⟩

/-- Behind the flags of a number stands a width or the conversion, which are no flags. -/
theorem width_not_flag {width : ℕ} (hwidth : width < 10) (hex : Bool) :
    ¬ isFlag (if width = 0 then Piece.conv hex else UInt8.ofNat (48 + width)) := by
  have hcases : ∀ w < 10, ¬ isFlag (if w = 0 then Piece.conv hex else UInt8.ofNat (48 + w)) := by
    unfold isFlag
    cases hex <;> decide
  exact hcases width hwidth

theorem convert_number {flags : FmtFlags} {zero hex : Bool} {width precision : ℤ} {w : ℤ}
    {out : List UInt8} (hflags : flags = { zeropad := zero })
    (hout : number (wrap32 w) (if hex then 16 else 10) width precision (Piece.flags zero hex) =
      some out) (htext : fmt pos = Piece.conv hex) :
    Leaves (convert flags width precision) fmt ⟨pos, reads, w :: args, mem, str⟩ () pos args
      (str ++ out) := by
  subst hflags
  unfold convert
  refine bind_fmtChar htext ?_
  cases hex with
  | false =>
      rw [if_neg (by decide), if_neg (by decide), if_neg (by decide), if_neg (by decide),
        if_neg (by decide), if_neg (by decide), if_pos (by decide)]
      exact convertNumber_leaves hout
  | true =>
      rw [if_neg (by decide), if_neg (by decide), if_neg (by decide), if_neg (by decide),
        if_pos (by decide)]
      exact convertNumber_leaves hout

/-- A number takes one argument. -/
theorem directive_number {zero hex : Bool} {width : ℕ} {w : ℤ} {out : List UInt8}
    (hwidth : width < 10)
    (hout : number (wrap32 w) (if hex then 16 else 10) (Piece.fieldWidth width) (-1)
      (Piece.flags zero hex) = some out)
    (htext : BytesAt fmt pos (Piece.number zero width hex).text) :
    Leaves directive fmt ⟨pos, reads, w :: args, mem, str⟩ ()
      (pos + 1 + (if zero then 1 else 0) + if width = 0 then 0 else 1) args (str ++ out) := by
  have hplain := conv_plain hex
  rw [Piece.text, List.append_assoc, List.append_assoc, List.cons_append, List.nil_append] at htext
  obtain ⟨hflag, hrest⟩ := BytesAt.append.mp htext.2
  have hlen : (if zero then [chr '0'] else []).length = if zero then 1 else 0 := by
    cases zero <;> rfl
  rw [hlen] at hrest
  obtain ⟨-, hconv⟩ := BytesAt.append.mp hrest
  have hlen' : (if width = 0 then [] else [UInt8.ofNat (48 + width)]).length =
      if width = 0 then 0 else 1 := by split <;> rfl
  rw [hlen'] at hconv
  have hnext : BytesAt fmt (pos + 1) ((if zero then [chr '0'] else []) ++
      [if width = 0 then Piece.conv hex else UInt8.ofNat (48 + width)]) := by
    rw [BytesAt.append, hlen]
    refine ⟨hflag, ?_, trivial⟩
    by_cases hzero : width = 0
    · rw [if_pos hzero] at hrest ⊢
      exact hrest.1
    · rw [if_neg hzero] at hrest ⊢
      exact hrest.1
  refine (readFlags_leaves zero (width_not_flag hwidth hex) hnext).bind fun _ => ?_
  refine (readWidth_leaves hwidth hplain.digit hplain.star hrest).bind fun _ => ?_
  refine (readPrecision_leaves hplain.dot hconv.1).bind fun _ => ?_
  refine (readQualifier_leaves hplain.qualifier hconv.1).bind fun _ => ?_
  exact convert_number rfl hout hconv.1

/-- A string takes one argument. -/
theorem directive_string {w : ℤ} {l : List UInt8} (hl : StringAt mem (unsigned w) l)
    (htext : BytesAt fmt pos Piece.string.text) :
    Leaves directive fmt ⟨pos, reads, w :: args, mem, str⟩ () (pos + 1) args (str ++ l) := by
  have hplain : Plain (chr 's') := ⟨by decide, by decide, by decide, by decide⟩
  have hs : fmt (pos + 1) = chr 's' := htext.2.1
  refine (readFlags_leaves false (by unfold isFlag; decide) htext.2).bind fun _ => ?_
  refine (readWidth_none hplain.digit hplain.star hs).bind fun _ => ?_
  refine (readPrecision_leaves hplain.dot hs).bind fun _ => ?_
  refine (readQualifier_leaves hplain.qualifier hs).bind fun _ => ?_
  unfold convert
  refine bind_fmtChar hs ?_
  rw [if_neg (by decide), if_pos (by decide)]
  exact convertString_leaves hl

/-- A string that is cut to a precision takes two arguments. -/
theorem directive_clipped {p w : ℤ} {l : List UInt8} (hl : StringAt mem (unsigned w) l)
    (htext : BytesAt fmt pos Piece.clipped.text) :
    Leaves directive fmt ⟨pos, reads, p :: w :: args, mem, str⟩ () (pos + 3) args
      (str ++ l.take p.toNat) := by
  obtain ⟨-, hdot, hstar, hs, -⟩ := htext
  refine (readFlags_leaves (c := chr '.') false (by unfold isFlag; decide) ⟨hdot, trivial⟩).bind
    fun _ => ?_
  refine (readWidth_none (by decide) (by decide) hdot).bind fun _ => ?_
  refine (readPrecision_star hdot hstar).bind fun _ => ?_
  refine (readQualifier_leaves (c := chr 's') (by decide) hs).bind fun _ => ?_
  unfold convert
  refine bind_fmtChar hs ?_
  rw [if_neg (by decide), if_pos (by decide)]
  have hcut : (if 0 ≤ (if p < 0 then 0 else p) then l.take (if p < 0 then 0 else p).toNat else l) =
      l.take p.toNat := by
    by_cases hneg : p < 0
    · simp [hneg, Int.toNat_of_nonpos hneg.le]
    · simp [hneg, not_lt.mp hneg]
  rw [← hcut]
  exact convertString_leaves hl

theorem Piece.text_length_number (zero : Bool) (width : ℕ) (hex : Bool) :
    (Piece.number zero width hex).text.length =
      2 + (if zero then 1 else 0) + if width = 0 then 0 else 1 := by
  cases zero <;> by_cases hwidth : width = 0 <;> simp [Piece.text, hwidth]

/-- A round of the loop writes one piece. -/
theorem formatRound_piece {p : Piece} {rest : List ℤ} {out : List UInt8} (hok : p.Ok)
    (hwrites : p.Writes mem args rest out) (htext : BytesAt fmt pos p.text) :
    Leaves formatRound fmt ⟨pos, reads, args, mem, str⟩ (.inl ()) (pos + p.text.length) rest
      (str ++ out) := by
  have hdirective : ∀ {last : ℕ}, fmt pos = chr '%' → last + 1 = pos + p.text.length →
      (∀ reads, Leaves directive fmt ⟨pos, reads, args, mem, str⟩ () last rest (str ++ out)) →
      Leaves formatRound fmt ⟨pos, reads, args, mem, str⟩ (.inl ()) (pos + p.text.length) rest
        (str ++ out) := by
    intro last hpercent hlast hbody
    unfold formatRound
    refine bind_fmtChar hpercent ?_
    rw [if_neg (by decide), if_neg (by decide), ← hlast]
    exact (hbody _).bind fun _ => bind_fmtNext (.pure ⟨rfl, _, rfl⟩)
  cases hwrites with
  | lit c =>
      unfold formatRound
      refine bind_fmtChar htext.1 ?_
      rw [if_neg hok.1, if_pos hok.2]
      exact bind_emit (bind_fmtNext (.pure ⟨rfl, _, rfl⟩))
  | number _ hout =>
      refine hdirective htext.1 ?_ fun _ => directive_number hok hout htext
      rw [Piece.text_length_number]
      omega
  | string _ hl => exact hdirective htext.1 rfl fun _ => directive_string hl htext
  | clipped _ hl => exact hdirective htext.1 rfl fun _ => directive_clipped hl htext

/-- The pieces are written one after the other, up to the end of the format. -/
theorem formatRounds_pieces {ps : List Piece} {out : List UInt8} (hok : ∀ p ∈ ps, p.Ok)
    (hwrites : WriteAll mem ps args out) (htext : BytesAt fmt pos (ps.flatMap Piece.text ++ [0])) :
    LoopDoes (fun _ => formatRound) fmt () ⟨pos, reads, args, mem, str⟩ fun _ t =>
      t.str = str ++ out := by
  induction hwrites generalizing pos reads str with
  | nil args =>
      refine .done ?_
      unfold formatRound
      refine bind_fmtChar htext.1 ?_
      rw [if_pos rfl]
      exact .pure ⟨(), rfl, by simp⟩
  | @cons p ps args rest out outs hp hps ih =>
      rw [List.flatMap_cons, List.append_assoc, BytesAt.append] at htext
      refine .step ((formatRound_piece (hok p (List.mem_cons_self ..)) hp htext.1).mono ?_)
      rintro _ _ ⟨rfl, reads', rfl⟩
      refine ⟨(), rfl, ?_⟩
      rw [← List.append_assoc]
      exact ih (fun q hq => hok q (List.mem_cons_of_mem _ hq)) htext.2

/-- **What `vsprintf` writes**: the pieces of the format, and a `NUL`. -/
theorem vsprintf_writes {ps : List Piece} {out : List UInt8} (hok : ∀ p ∈ ps, p.Ok)
    (hwrites : WriteAll mem ps args out) (htext : BytesAt fmt 0 (ps.flatMap Piece.text ++ [0])) :
    Does vsprintf fmt ⟨0, reads, args, mem, []⟩ fun len t =>
      len = out.length ∧ t.str = out ++ [0] := by
  unfold vsprintf
  refine (formatRounds_pieces hok hwrites htext).does.bind fun _ t hstr => .bind_read ?_
  rw [List.nil_append] at hstr
  refine .bind_update (.pure ⟨by rw [hstr], ?_⟩)
  rw [hstr]

end Programs

/-! ## Reading a format -/

/-- The pieces that stand for `%d`, `%x`, `%04x`, `%6d`, `%s` and `%.*s`. -/
def directives : List Piece :=
  [.number false 0 false, .number false 0 true, .number true 4 true, .number true 2 true,
    .number false 6 false, .string, .clipped]

/-- The pieces of a format with at most `rounds` of them. -/
def pieces : (rounds : ℕ) → List UInt8 → Option (List Piece)
  | _, [] => some []
  | 0, _ => none
  | rounds + 1, c :: cs =>
      if c = chr '%' then
        match directives.find? fun p => p.text.isPrefixOf (c :: cs) with
        | none => none
        | some p => (pieces rounds ((c :: cs).drop p.text.length)).map (p :: ·)
      else if c = 0 then none
      else (pieces rounds cs).map (.lit c :: ·)

theorem directives_ok : ∀ p ∈ directives, p.Ok := by
  intro p hp
  simp only [directives, List.mem_cons, List.not_mem_nil, or_false] at hp
  rcases hp with rfl | rfl | rfl | rfl | rfl | rfl | rfl <;> simp [Piece.Ok]

/-- The pieces of a format make up the format. -/
theorem pieces_text : ∀ {rounds : ℕ} {cs : List UInt8} {ps : List Piece},
    pieces rounds cs = some ps → ps.flatMap Piece.text = cs ∧ ∀ p ∈ ps, p.Ok := by
  intro rounds
  -- on the rounds; each one takes a piece off the front of the text
  induction rounds with
  | zero =>
      intro cs ps h
      cases cs with
      | nil =>
          obtain rfl : ps = [] := by simpa [pieces] using h.symm
          simp
      | cons c cs => simp [pieces] at h
  | succ rounds ih =>
      intro cs ps h
      cases cs with
      | nil =>
          obtain rfl : ps = [] := by simpa [pieces] using h.symm
          simp
      | cons c cs =>
          rw [pieces] at h
          -- a directive of the list, or a character that stands for itself
          by_cases hpercent : c = chr '%'
          · rw [if_pos hpercent] at h
            cases hfind : directives.find? fun p => p.text.isPrefixOf (c :: cs) with
            | none => simp [hfind] at h
            | some p =>
                rw [hfind] at h
                obtain ⟨qs, hqs, rfl⟩ := Option.map_eq_some_iff.mp h
                obtain ⟨htext, hok⟩ := ih hqs
                have hprefix : p.text.isPrefixOf (c :: cs) = true :=
                  List.find?_some (p := fun p : Piece => p.text.isPrefixOf (c :: cs)) hfind
                obtain ⟨rest, hrest⟩ := List.isPrefixOf_iff_prefix.mp hprefix
                refine ⟨?_, ?_⟩
                · rw [List.flatMap_cons, htext, ← hrest, List.drop_left]
                · rintro q (_ | ⟨_, hq⟩)
                  · exact directives_ok p (List.mem_of_find?_eq_some hfind)
                  · exact hok q hq
          · rw [if_neg hpercent] at h
            by_cases hzero : c = 0
            · simp [hzero] at h
            · rw [if_neg hzero] at h
              obtain ⟨qs, hqs, rfl⟩ := Option.map_eq_some_iff.mp h
              obtain ⟨htext, hok⟩ := ih hqs
              refine ⟨by rw [List.flatMap_cons, htext]; rfl, ?_⟩
              rintro q (_ | ⟨_, hq⟩)
              · exact ⟨hzero, hpercent⟩
              · exact hok q hq

end EgGS
