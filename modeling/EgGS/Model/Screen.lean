import EgGS.Lib.Memory
import Mathlib.Data.Nat.Bitwise

/-!
# The screen (`scrn.c`, and `memcpy` and `memsetw` of `util.c`)

The text memory has 80 columns and 25 rows of cells, each a character and its attribute.  It is
byte memory here, addressed from `textmemptr` on: `memcpy` moves it byte by byte.
-/

namespace EgGS

open Lib

/-! ## `util.c` -/

/-- `memcpy` -/
def memcpy (dest src count : ℕ) (m : Memory UInt8) : Memory UInt8 := m.copyUp dest src count

/-- A store to an `unsigned short`. -/
def putShort (dest val : ℕ) (m : Memory UInt8) : Memory UInt8 :=
  (m.put dest (UInt8.ofNat val)).put (dest + 1) (UInt8.ofNat (val / 256))

/-- `memsetw` -/
def memsetw (dest val : ℕ) : ℕ → Memory UInt8 → Memory UInt8
  | 0, m => m
  | count + 1, m => memsetw (dest + 2) val count (putShort dest val m)

/-! ## `scrn.c` -/

/-- The static variables of `scrn.c`, the text memory, and the index of the hardware cursor. -/
structure Console where
  text : Memory UInt8
  attrib : ℕ
  csrX : ℕ
  csrY : ℕ
  cursor : ℕ

namespace Console

/-- A space in the colours that are set, as an `unsigned short`. -/
def blank (c : Console) : ℕ := (0x20 ||| (c.attrib <<< 8)) % 65536

/-- `scroll`; the numbers of rows are unsigned. -/
def scroll (c : Console) : Console :=
  if c.csrY ≥ 25 then
    let temp := c.csrY - 25 + 1
    let rest := (4294967296 + 25 - temp) % 4294967296
    let text := memcpy 0 (temp * 80 * 2) (rest * 80 * 2) c.text
    { c with text := memsetw (rest * 80 * 2) c.blank 80 text, csrY := 25 - 1 }
  else c

/-- `move_csr`: the two bytes of the index go to the controller. -/
def moveCsr (c : Console) : Console :=
  let temp := c.csrY * 80 + c.csrX
  { c with cursor := temp / 256 % 256 * 256 + temp % 256 }

/-- The loop of `cls` over the rows. -/
def clearRows (val : ℕ) : (i left : ℕ) → Memory UInt8 → Memory UInt8
  | _, 0, m => m
  | i, left + 1, m => clearRows val (i + 1) left (memsetw (i * 80 * 2) val 80 m)

/-- `cls` -/
def cls (c : Console) : Console :=
  moveCsr { c with text := clearRows c.blank 0 25 c.text, csrX := 0, csrY := 0 }

/-- The first half of `putch`: what the character `ch` does. -/
def place (ch : UInt8) (c : Console) : Console :=
  if ch = 0x08 then
    if c.csrX ≠ 0 then { c with csrX := c.csrX - 1 } else c
  else if ch = 0x09 then
    { c with csrX := (c.csrX + 8) / 8 * 8 }
  else if ch = 0x0D then
    { c with csrX := 0 }
  else if ch = 0x0A then
    { c with csrX := 0, csrY := c.csrY + 1 }
  else if ch ≥ 0x20 then
    { c with
      text := putShort ((c.csrY * 80 + c.csrX) * 2)
        ((ch.toNat ||| (c.attrib <<< 8)) % 65536) c.text
      csrX := c.csrX + 1 }
  else c

/-- The line break at the right edge. -/
def wrap (c : Console) : Console :=
  if c.csrX ≥ 80 then { c with csrX := 0, csrY := c.csrY + 1 } else c

/-- `putch` -/
def putch (ch : UInt8) (c : Console) : Console := ((c.place ch).wrap.scroll).moveCsr

/-- `puts`, for the bytes of a string up to its `NUL`. -/
def puts : List UInt8 → Console → Console
  | [], c => c
  | ch :: text, c => if ch = 0 then c else puts text (c.putch ch)

/-- `settextcolor` -/
def settextcolor (forecolor backcolor : UInt8) (c : Console) : Console :=
  { c with attrib := (backcolor.toNat <<< 4) ||| (forecolor.toNat &&& 0x0F) }

/-- `init_video`, behind the assignment of `textmemptr`. -/
def initVideo (c : Console) : Console := c.cls

end Console

end EgGS
