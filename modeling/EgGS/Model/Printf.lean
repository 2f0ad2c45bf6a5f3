import EgGS.Model.State

/-!
# Formatted output (`vsprintf` and `printk` of `util.c`)

A program here reads a format, which lies in memory of its own, and works on the pointer into
it, the arguments that are left, the memory that arguments point to and the characters written
so far.  `reads` records which bytes of the format were read.

An `int` is an integer; where the code can leave the range of 32 bits with an `int` it wraps.
The loops that pad a field count down, and are written as loops whose number of rounds is known.
-/

namespace EgGS

open Lib

/-! ## Characters -/

/-- A character of the source as a byte. -/
def chr (c : Char) : UInt8 := UInt8.ofNat c.toNat

/-- The bytes of a string literal, without its `NUL`. -/
def bytes (s : String) : List UInt8 := s.toList.map chr

/-- `is_digit` -/
def isDigit (c : UInt8) : Bool := chr '0' ≤ c && c ≤ chr '9'

/-- An `int`. -/
def wrap32 (x : ℤ) : ℤ := (x + 2147483648) % 4294967296 - 2147483648

/-! ## Padding -/

/-- `while (bound < w--) *str++ = c;`, of which `rounds` rounds are left. -/
def whilePost (c : UInt8) (bound : ℤ) : (rounds : ℕ) → ℤ → List UInt8 → List UInt8 × ℤ
  | 0, w, str => (str, w)
  | rounds + 1, w, str =>
      if bound < w then whilePost c bound rounds (w - 1) (str ++ [c]) else (str, wrap32 (w - 1))

/-- `while (bound < w--) *str++ = c;` -/
def padPost (c : UInt8) (bound w : ℤ) (str : List UInt8) : List UInt8 × ℤ :=
  whilePost c bound ((w - bound).toNat + 1) w str

/-- `while (--w > 0) *str++ = ' ';`, of which `rounds` rounds are left. -/
def whilePre : (rounds : ℕ) → ℤ → List UInt8 → List UInt8 × ℤ
  | 0, w, str => (str, w)
  | rounds + 1, w, str =>
      if wrap32 (w - 1) > 0 then whilePre rounds (wrap32 (w - 1)) (str ++ [chr ' '])
      else (str, wrap32 (w - 1))

/-- `while (--w > 0) *str++ = ' ';` -/
def padPre (w : ℤ) (str : List UInt8) : List UInt8 × ℤ :=
  whilePre ((wrap32 (w - 1)).toNat + 1) w str

/-! ## Numbers -/

/-- The flags of a directive. -/
structure FmtFlags where
  zeropad : Bool := false
  sign : Bool := false
  plus : Bool := false
  space : Bool := false
  left : Bool := false
  special : Bool := false
  small : Bool := false
  deriving DecidableEq, Repr

/-- `digits[i]` -/
def digitChar (small : Bool) (i : ℕ) : UInt8 :=
  if i < 10 then UInt8.ofNat (48 + i) else UInt8.ofNat ((if small then 97 else 65) + (i - 10))

/-- `while (num != 0) tmp[i++] = digits[do_div(num, base)];`, of which `rounds` rounds are left;
the last digit comes first. -/
def tmpDigits (small : Bool) (base : ℕ) : (rounds num : ℕ) → List UInt8
  | 0, _ => []
  | rounds + 1, num =>
      if num = 0 then []
      else digitChar small (num % base) :: tmpDigits small base rounds (num / base)

/-- The characters in `tmp`. -/
def tmpOf (small : Bool) (base num : ℕ) : List UInt8 :=
  if num = 0 then [chr '0'] else tmpDigits small base 32 num

/-- The sign character, and the number that is printed behind it. -/
def signOf (num : ℤ) (type : FmtFlags) : Option UInt8 × ℕ :=
  if type.sign ∧ num < 0 then (some (chr '-'), unsigned (-num))
  else
    (if type.plus then some (chr '+') else if type.space then some (chr ' ') else none,
      unsigned num)

/-- What is left of `size` behind the sign and the prefix. -/
def sizeLeft (size : ℤ) (base : ℕ) (sign : Option UInt8) (type : FmtFlags) : ℤ :=
  let size := if sign.isSome then size - 1 else size
  if type.special then
    if base = 16 then size - 2 else if base = 8 then size - 1 else size
  else size

/-- The prefix under `SPECIAL`. -/
def prefixOf (base : ℕ) (type : FmtFlags) : List UInt8 :=
  if type.special then
    if base = 8 then [chr '0']
    else if base = 16 then [chr '0', digitChar type.small 33]
    else []
  else []

/-- `number`: the characters from `str` on. -/
def number (num : ℤ) (base : ℕ) (size precision : ℤ) (type : FmtFlags) : Option (List UInt8) :=
  let zeropad := type.zeropad && !type.left
  if base < 2 ∨ base > 36 then none
  else
    let c := if zeropad then chr '0' else chr ' '
    let (sign, num) := signOf num type
    let size := sizeLeft size base sign type
    let tmp := tmpOf type.small base num
    let i : ℤ := tmp.length
    let precision := if i > precision then i else precision
    let size := wrap32 (size - precision)
    let (str, size) := if !zeropad && !type.left then padPost (chr ' ') 0 size [] else ([], size)
    let str := str ++ sign.toList ++ prefixOf base type
    let (str, size) := if !type.left then padPost c 0 size str else (str, size)
    let (str, _) := padPost (chr '0') i precision str
    let str := str ++ tmp.reverse
    let (str, _) := padPost (chr ' ') 0 size str
    some str

/-! ## The format -/

/-- Where `vsprintf` is: the pointer `fmt`, the bytes of the format it has read, the arguments
left, the memory behind pointers, and what was written from `buf` on. -/
structure Printing where
  pos : ℕ
  reads : List ℕ
  args : List ℤ
  mem : ℕ → UInt8
  str : List UInt8

/-- The programs of this file: they can read the format. -/
abbrev F (α : Type) : Type := Prog (ℕ → UInt8) Printing α

/-- `*fmt` -/
def fmtChar : F UInt8 := do
  Prog.update fun s => { s with reads := s.pos :: s.reads }
  Prog.ask fun fmt s => fmt s.pos

/-- `++fmt` -/
def fmtNext : F Unit := Prog.update fun s => { s with pos := s.pos + 1 }

/-- `--fmt` -/
def fmtBack : F Unit := Prog.update fun s => { s with pos := s.pos - 1 }

/-- Write characters at `str`. -/
def emit (text : List UInt8) : F Unit := Prog.update fun s => { s with str := s.str ++ text }

/-- `va_arg` -/
def vaArg : F ℤ := do
  let s ← Prog.read
  match s.args with
  | [] => Prog.halt (.fault "no argument")
  | w :: args => do
    Prog.update fun s => { s with args }
    pure w

/-- `skip_atoi` -/
def skipAtoi : F ℤ :=
  Prog.iterate (fun i => do
    let c ← fmtChar
    if isDigit c then do
      fmtNext
      pure (.inl (wrap32 (i * 10 + c.toNat - 48)))
    else
      pure (.inr i)) 0

/-- The flags of a directive, from its `%` on. -/
def readFlags : F FmtFlags :=
  Prog.iterate (fun flags => do
    fmtNext
    let c ← fmtChar
    if c = chr '-' then pure (.inl { flags with left := true })
    else if c = chr '+' then pure (.inl { flags with plus := true })
    else if c = chr ' ' then pure (.inl { flags with space := true })
    else if c = chr '#' then pure (.inl { flags with special := true })
    else if c = chr '0' then pure (.inl { flags with zeropad := true })
    else pure (.inr flags)) {}

/-- The field width: behind `*` the pointer stays where it is. -/
def readWidth (flags : FmtFlags) : F (FmtFlags × ℤ) := do
  let c ← fmtChar
  if isDigit c then do
    let width ← skipAtoi
    pure (flags, width)
  else if c = chr '*' then do
    let width ← vaArg
    if width < 0 then pure ({ flags with left := true }, wrap32 (-width)) else pure (flags, width)
  else
    pure (flags, -1)

/-- What stands behind the `.` of a precision. -/
def readPrecisionValue : F ℤ := do
  let c ← fmtChar
  if isDigit c then skipAtoi
  else if c = chr '*' then do
    fmtNext
    vaArg
  else
    pure (-1)

/-- The precision. -/
def readPrecision : F ℤ := do
  let c ← fmtChar
  if c = chr '.' then do
    fmtNext
    let precision ← readPrecisionValue
    pure (if precision < 0 then 0 else precision)
  else
    pure (-1)

/-- The conversion qualifier, which is skipped. -/
def readQualifier : F Unit := do
  let c ← fmtChar
  if c = chr 'h' ∨ c = chr 'l' ∨ c = chr 'L' then fmtNext else pure ()

/-- `strlen` -/
def strlen (s : ℕ) : F ℕ :=
  Prog.iterate (fun len => do
    let t ← Prog.read
    if t.mem (s + len) = 0 then pure (.inr len) else pure (.inl (len + 1))) 0

/-! ## Conversions -/

/-- `%c` -/
def convertChar (flags : FmtFlags) (width : ℤ) : F Unit := do
  let (pad, width) := if !flags.left then padPre width [] else ([], width)
  emit pad
  let c ← vaArg
  emit [UInt8.ofNat (unsigned c)]
  emit (padPre width []).1

/-- `%s` -/
def convertString (flags : FmtFlags) (width precision : ℤ) : F Unit := do
  let w ← vaArg
  let len ← strlen (unsigned w)
  let len := if 0 ≤ precision ∧ precision < len then precision else len
  let t ← Prog.read
  let (pad, width) := if !flags.left then padPost (chr ' ') len width [] else ([], width)
  emit (pad ++ (List.range len.toNat).map fun i => t.mem (unsigned w + i))
  emit (padPost (chr ' ') len width []).1

/-- The conversions that call `number`. -/
def convertNumber (base : ℕ) (width precision : ℤ) (flags : FmtFlags) : F Unit := do
  let num ← vaArg
  match number (wrap32 num) base width precision flags with
  | none => Prog.halt (.fault "number returned NULL")
  | some text => emit text

/-- `%n` stores the number of characters so far. -/
def storeCount : F Unit := do
  let w ← vaArg
  Prog.update fun s =>
    { s with
      mem := fun a =>
        if unsigned w ≤ a ∧ a < unsigned w + 4 then
          UInt8.ofNat (s.str.length / 256 ^ (a - unsigned w))
        else s.mem a }

/-- A character that is no conversion is written behind a `%`, unless it is one; at the end of
the format the pointer goes back. -/
def convertOther (c : UInt8) : F Unit := do
  if c ≠ chr '%' then emit [chr '%'] else pure ()
  if c ≠ 0 then emit [c] else fmtBack

/-- The conversion of a directive. -/
def convert (flags : FmtFlags) (width precision : ℤ) : F Unit := do
  let c ← fmtChar
  if c = chr 'c' then convertChar flags width
  else if c = chr 's' then convertString flags width precision
  else if c = chr 'o' then convertNumber 8 width precision flags
  else if c = chr 'p' then
    if width = -1 then convertNumber 16 8 precision { flags with zeropad := true }
    else convertNumber 16 width precision flags
  else if c = chr 'x' then convertNumber 16 width precision { flags with small := true }
  else if c = chr 'X' then convertNumber 16 width precision flags
  else if c = chr 'd' ∨ c = chr 'i' then
    convertNumber 10 width precision { flags with sign := true }
  else if c = chr 'u' then convertNumber 10 width precision flags
  else if c = chr 'n' then storeCount
  else convertOther c

/-- A directive, from its `%` on. -/
def directive : F Unit := do
  let flags ← readFlags
  let (flags, width) ← readWidth flags
  let precision ← readPrecision
  readQualifier
  convert flags width precision

/-- A round of the loop over the format. -/
def formatRound : F (Unit ⊕ Unit) := do
  let c ← fmtChar
  if c = 0 then
    pure (.inr ())
  else if c ≠ chr '%' then do
    emit [c]
    fmtNext
    pure (.inl ())
  else do
    directive
    fmtNext
    pure (.inl ())

/-- `vsprintf`: the number of characters written in front of the `NUL`. -/
def vsprintf : F ℕ := do
  Prog.iterate (fun _ => formatRound) ()
  let s ← Prog.read
  let len := s.str.length
  emit [0]
  pure len

end EgGS
