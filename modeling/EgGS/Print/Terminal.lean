import EgGS.Model.Screen

/-!
# The screen shows the end of a terminal

`Terminal` is what the screen stands for: 80 columns and as many rows as there are, of
characters without colours, which never scrolls.  `Shows` relates the two: the 25 rows of the
text memory are the last rows of the terminal, down to the cursor's if that is below the first
25.

* `putch_shows`: every character keeps this, whether it scrolls the screen or not.
* `puts_refines`: so does every string.
-/

namespace EgGS

open Lib

variable {m : Memory UInt8} {i j val count lo hi : ℕ} {ch : UInt8} {text : List UInt8}

/-! ## Cells of the text memory -/

/-- Cell `i` of the text memory. -/
def shortAt (m : Memory UInt8) (i : ℕ) : ℕ :=
  (m.cells (i * 2)).toNat + 256 * (m.cells (i * 2 + 1)).toNat

theorem shortAt_congr {m' : Memory UInt8} (hlow : m'.cells (j * 2) = m.cells (i * 2))
    (hhigh : m'.cells (j * 2 + 1) = m.cells (i * 2 + 1)) : shortAt m' j = shortAt m i := by
  rw [shortAt, shortAt, hlow, hhigh]

theorem shortAt_putShort_self (i val : ℕ) (m : Memory UInt8) :
    shortAt (putShort (i * 2) val m) i = val % 65536 := by
  rw [shortAt, putShort, Memory.put_cells_self, Memory.put_cells_ne (by omega),
    Memory.put_cells_self, UInt8.toNat_ofNat', UInt8.toNat_ofNat']
  omega

theorem shortAt_putShort_ne (h : j ≠ i) : shortAt (putShort (i * 2) val m) j = shortAt m j := by
  apply shortAt_congr <;>
    rw [putShort, Memory.put_cells_ne (by omega), Memory.put_cells_ne (by omega)]

theorem shortAt_memsetw (i val count : ℕ) (m : Memory UInt8) (j : ℕ) :
    shortAt (memsetw (i * 2) val count m) j =
      if i ≤ j ∧ j < i + count then val % 65536 else shortAt m j := by
  induction count generalizing i m with
  | zero => rw [memsetw, if_neg (by omega)]
  | succ count ih =>
      have hnext : i * 2 + 2 = (i + 1) * 2 := by omega
      rw [memsetw, hnext, ih]
      by_cases hij : j = i
      · subst hij
        rw [if_neg (by omega), if_pos (by omega), shortAt_putShort_self]
      · rw [shortAt_putShort_ne hij]
        by_cases hin : i ≤ j ∧ j < i + (count + 1)
        · rw [if_pos (by omega), if_pos hin]
        · rw [if_neg (by omega), if_neg hin]

/-- Moving cells to the start of the memory. -/
theorem shortAt_memcpy (src count : ℕ) (m : Memory UInt8) (j : ℕ) :
    shortAt (memcpy 0 (src * 2) (count * 2) m) j =
      if j < count then shortAt m (j + src) else shortAt m j := by
  have hcells : ∀ i, (Memory.copyUp 0 (src * 2) (count * 2) m).cells i =
      if 0 ≤ i ∧ i < 0 + count * 2 then m.cells (i - 0 + src * 2) else m.cells i :=
    Memory.copyUp_cells (Nat.zero_le _)
  split
  · apply shortAt_congr <;> rw [memcpy, hcells, if_pos (by omega)] <;> congr 1 <;> omega
  · apply shortAt_congr <;> rw [memcpy, hcells, if_neg (by omega)]

theorem storedIn_putShort (h : m.StoredIn lo hi) (hlo : lo ≤ i) (hhi : i + 1 < hi) (val : ℕ) :
    (putShort i val m).StoredIn lo hi := (h.put hlo (by omega) _).put (by omega) hhi _

theorem storedIn_memsetw (h : m.StoredIn lo hi) (hlo : lo ≤ i) (hhi : i + 2 * count ≤ hi) :
    (memsetw i val count m).StoredIn lo hi := by
  induction count generalizing i m with
  | zero => exact h
  | succ count ih => exact ih (storedIn_putShort h hlo (by omega) val) (by omega) (by omega)

/-! ## The terminal -/

/-- A terminal of 80 columns: the characters by row and column, and the cursor. -/
structure Terminal where
  row : ℕ → ℕ → UInt8
  x : ℕ
  y : ℕ

namespace Terminal

/-- An empty terminal. -/
def empty : Terminal where
  row _ _ := 0x20
  x := 0
  y := 0

/-- Write a character at the cursor. -/
def write (t : Terminal) (ch : UInt8) : Terminal :=
  { t with row := Function.update t.row t.y (Function.update (t.row t.y) t.x ch), x := t.x + 1 }

/-- What a character does: backspace, tab, carriage return, newline and the printable ones. -/
def place (t : Terminal) (ch : UInt8) : Terminal :=
  if ch = 8 then { t with x := t.x - 1 }
  else if ch = 9 then { t with x := 8 * (t.x / 8 + 1) }
  else if ch = 13 then { t with x := 0 }
  else if ch = 10 then { t with x := 0, y := t.y + 1 }
  else if 32 ≤ ch then t.write ch
  else t

/-- Behind column 80 the next row starts. -/
def wrap (t : Terminal) : Terminal := if 80 ≤ t.x then { t with x := 0, y := t.y + 1 } else t

/-- The terminal reads a character. -/
def type (t : Terminal) (ch : UInt8) : Terminal := (t.place ch).wrap

/-- The terminal reads a string. -/
def run (text : List UInt8) : Terminal := text.foldl type empty

/-- The first of the last 25 rows. -/
def top (t : Terminal) : ℕ := t.y - 24

end Terminal

/-! ## What the screen shows -/

/-- A character in a colour, as a cell of the text memory. -/
def cellOf (colour : ℕ) (ch : UInt8) : ℕ := (ch.toNat ||| (colour <<< 8)) % 65536

/-- The screen shows the rows of the terminal from `top` on.  The cursor may be one row below
it, but if rows have been scrolled away it is not above the last row. -/
structure Drawn (colour top : ℕ) (t : Terminal) (c : Console) : Prop where
  attrib : c.attrib = colour
  x : c.csrX = t.x
  y : c.csrY + top = t.y
  full : 0 < top → 24 ≤ c.csrY
  cells : ∀ row < 25, ∀ col < 80,
    shortAt c.text (row * 80 + col) = cellOf colour (t.row (top + row) col)
  beyond : ∀ row, top + 25 ≤ row → ∀ col < 80, t.row row col = 0x20
  stores : c.text.StoredIn 0 4000

/-- The screen shows the last 25 rows of the terminal, and the cursor is the terminal's. -/
structure Shows (colour : ℕ) (t : Terminal) (c : Console) : Prop where
  cells : ∀ row < 25, ∀ col < 80,
    shortAt c.text (row * 80 + col) = cellOf colour (t.row (t.top + row) col)
  x : c.csrX = t.x
  y : c.csrY + t.top = t.y
  column : c.csrX < 80
  line : c.csrY < 25
  cursor : c.cursor = c.csrY * 80 + c.csrX
  stores : c.text.StoredIn 0 4000

variable {colour top : ℕ} {t : Terminal} {c : Console}

/-- The cursor moves inside its row or to a row below. -/
theorem Drawn.move {x y y' : ℕ} (h : Drawn colour top t c) (hy : c.csrY ≤ y) (hy' : y + top = y') :
    Drawn colour top { t with x, y := y' } { c with csrX := x, csrY := y } where
  attrib := h.attrib
  x := rfl
  y := hy'
  full htop := (h.full htop).trans hy
  cells := h.cells
  beyond := h.beyond
  stores := h.stores

theorem Drawn.write (h : Drawn colour top t c) (hx : c.csrX < 80) (hy : c.csrY < 25) :
    Drawn colour top (t.write ch)
      { c with
        text := putShort ((c.csrY * 80 + c.csrX) * 2)
          ((ch.toNat ||| (c.attrib <<< 8)) % 65536) c.text
        csrX := c.csrX + 1 } where
  attrib := h.attrib
  x := congrArg (· + 1) h.x
  y := h.y
  full := h.full
  cells row hrow col hcol := by
    have hxt := h.x
    have hyt := h.y
    by_cases hcell : row = c.csrY ∧ col = c.csrX
    · obtain ⟨rfl, rfl⟩ := hcell
      dsimp only
      rw [shortAt_putShort_self, h.attrib, Nat.mod_mod]
      have hrowt : top + c.csrY = t.y := by omega
      simp only [Terminal.write, hrowt, ← h.x, Function.update_self, cellOf]
    · dsimp only
      rw [shortAt_putShort_ne (by omega), h.cells row hrow col hcol]
      congr 1
      by_cases hrowt : top + row = t.y
      · have hcolt : col ≠ t.x := by omega
        simp [Terminal.write, hrowt, hcolt]
      · simp [Terminal.write, hrowt]
  beyond row hrow col hcol := by
    have hyt := h.y
    have hne : row ≠ t.y := by omega
    simp only [Terminal.write, Function.update_of_ne hne]
    exact h.beyond row hrow col hcol
  stores := storedIn_putShort h.stores (by omega) (by omega) _

/-- The cursor is inside the screen or just behind its right edge, or below it at its left
edge. -/
def Console.AtEdge (c : Console) : Prop :=
  c.csrX ≤ 80 ∧ c.csrY ≤ 25 ∧ (c.csrX = 80 → c.csrY < 25)

/-- **A character.** -/
theorem Drawn.place (h : Drawn colour top t c) (hx : c.csrX < 80) (hy : c.csrY < 25) (ch : UInt8) :
    Drawn colour top (t.place ch) (c.place ch) ∧ (c.place ch).AtEdge := by
  have hxt := h.x
  unfold Console.place Terminal.place Console.AtEdge
  by_cases hback : ch = 8
  · rw [if_pos hback, if_pos hback]
    by_cases hzero : c.csrX ≠ 0
    · rw [if_pos hzero, ← hxt]
      exact ⟨h.move le_rfl h.y, by dsimp only; omega⟩
    · have hsame : t.x - 1 = t.x := by omega
      rw [if_neg hzero, hsame]
      exact ⟨h, by omega⟩
  rw [if_neg hback, if_neg hback]
  by_cases htab : ch = 9
  · have hstop : (c.csrX + 8) / 8 * 8 = 8 * (t.x / 8 + 1) := by omega
    rw [if_pos htab, if_pos htab, hstop]
    exact ⟨h.move le_rfl h.y, by dsimp only; omega⟩
  rw [if_neg htab, if_neg htab]
  by_cases hreturn : ch = 13
  · rw [if_pos hreturn, if_pos hreturn]
    exact ⟨h.move le_rfl h.y, by dsimp only; omega⟩
  rw [if_neg hreturn, if_neg hreturn]
  by_cases hnewline : ch = 10
  · have hnext : c.csrY + 1 + top = t.y + 1 := by
      have hyt := h.y
      omega
    rw [if_pos hnewline, if_pos hnewline]
    exact ⟨h.move (Nat.le_succ _) hnext, by dsimp only; omega⟩
  rw [if_neg hnewline, if_neg hnewline]
  by_cases hprint : 32 ≤ ch
  · rw [if_pos hprint, if_pos hprint]
    exact ⟨h.write hx hy, by dsimp only; omega⟩
  · rw [if_neg hprint, if_neg hprint]
    exact ⟨h, by omega⟩

theorem Drawn.wrap (h : Drawn colour top t c) (hedge : c.AtEdge) :
    Drawn colour top t.wrap c.wrap ∧ c.wrap.csrX < 80 ∧ c.wrap.csrY ≤ 25 := by
  obtain ⟨hx, hy, hlast⟩ := hedge
  have hxt := h.x
  unfold Console.wrap Terminal.wrap
  by_cases hwrap : 80 ≤ c.csrX
  · have hnext : c.csrY + 1 + top = t.y + 1 := by
      have hyt := h.y
      omega
    rw [if_pos hwrap, if_pos (hxt ▸ hwrap)]
    exact ⟨h.move (Nat.le_succ _) hnext, by dsimp only; omega⟩
  · rw [if_neg hwrap, if_neg (hxt ▸ hwrap)]
    exact ⟨h, by omega⟩

theorem shortAt_blank (c : Console) : c.blank % 65536 = cellOf c.attrib 0x20 := Nat.mod_mod ..

/-- The last step of `scroll`: the rows move up by one, and the last row is blank. -/
theorem scroll_last (hlast : c.csrY = 25) : c.scroll =
    { c with text := memsetw (1920 * 2) c.blank 80 (memcpy 0 (80 * 2) (1920 * 2) c.text)
             csrY := 24 } := by
  simp [Console.scroll, hlast]

theorem Drawn.scroll_cells (h : Drawn colour top t c) (hlast : c.csrY = 25) {row col : ℕ}
    (hrow : row < 25) (hcol : col < 80) :
    shortAt c.scroll.text (row * 80 + col) = cellOf colour (t.row (top + 1 + row) col) := by
  rw [scroll_last hlast]
  dsimp only
  rw [shortAt_memsetw, shortAt_memcpy]
  by_cases hnew : row = 24
  · -- the row behind the last one that was shown
    rw [if_pos (by omega), shortAt_blank, h.attrib, h.beyond _ (by omega) _ hcol]
  · rw [if_neg (by omega), if_pos (by omega)]
    have hsrc : row * 80 + col + 80 = (row + 1) * 80 + col := by omega
    have hrowt : top + 1 + row = top + (row + 1) := by omega
    rw [hsrc, hrowt]
    exact h.cells (row + 1) (by omega) col hcol

/-- **Scrolling** shows the terminal from the next row on. -/
theorem Drawn.scroll (h : Drawn colour top t c) (hy : c.csrY ≤ 25) :
    ∃ top', Drawn colour top' t c.scroll ∧ c.scroll.csrX = c.csrX ∧ c.scroll.csrY < 25 := by
  have hyt := h.y
  by_cases hlast : c.csrY = 25
  · refine ⟨top + 1, ?_, by rw [scroll_last hlast],
      by rw [scroll_last hlast]; exact Nat.lt_succ_self 24⟩
    refine ⟨?_, ?_, ?_, fun _ => ?_, fun row hrow col hcol => h.scroll_cells hlast hrow hcol,
      fun row hrow => h.beyond row (by omega), ?_⟩
    · rw [scroll_last hlast]
      exact h.attrib
    · rw [scroll_last hlast]
      exact h.x
    · rw [scroll_last hlast]
      dsimp only
      omega
    · rw [scroll_last hlast]
    · rw [scroll_last hlast]
      exact storedIn_memsetw (h.stores.copyUp (by omega) (by omega)) (by omega) (by omega)
  · have hscroll : c.scroll = c := by
      rw [Console.scroll, if_neg (by omega)]
    rw [hscroll]
    exact ⟨top, h, rfl, by omega⟩

/-- The screen shows the terminal from some row on, the cursor is inside it, and the hardware
cursor is there too. -/
structure OnScreen (colour : ℕ) (t : Terminal) (c : Console) : Prop where
  drawn : ∃ top, Drawn colour top t c
  column : c.csrX < 80
  line : c.csrY < 25
  cursor : c.cursor = c.csrY * 80 + c.csrX

theorem Drawn.moveCsr (h : Drawn colour top t c) (hx : c.csrX < 80) (hy : c.csrY < 25) :
    OnScreen colour t c.moveCsr where
  drawn := ⟨top, h.attrib, h.x, h.y, h.full, h.cells, h.beyond, h.stores⟩
  column := hx
  line := hy
  cursor := by
    simp only [Console.moveCsr]
    omega

/-- With the cursor inside the screen, the rows are the last 25. -/
theorem OnScreen.shows (h : OnScreen colour t c) : Shows colour t c := by
  obtain ⟨top, hdrawn⟩ := h.drawn
  have htop : t.top = top := by
    have hyt := hdrawn.y
    have hfull := hdrawn.full
    have hline := h.line
    rw [Terminal.top]
    omega
  exact ⟨htop ▸ hdrawn.cells, hdrawn.x, htop ▸ hdrawn.y, h.column, h.line, h.cursor, hdrawn.stores⟩

/-- **`putch`.** -/
theorem OnScreen.putch (h : OnScreen colour t c) (ch : UInt8) :
    OnScreen colour (t.type ch) (c.putch ch) := by
  obtain ⟨top, hdrawn⟩ := h.drawn
  obtain ⟨hplaced, hedge⟩ := hdrawn.place h.column h.line ch
  obtain ⟨hwrapped, hx, hy⟩ := hplaced.wrap hedge
  obtain ⟨top', hscrolled, hx', hy'⟩ := hwrapped.scroll hy
  exact hscrolled.moveCsr (hx'.trans_lt hx) hy'

/-! ## Strings -/

theorem OnScreen.puts (h : OnScreen colour t c) (htext : ∀ ch ∈ text, ch ≠ 0) :
    OnScreen colour (text.foldl Terminal.type t) (c.puts text) := by
  induction text generalizing t c with
  | nil => exact h
  | cons ch text ih =>
      rw [Console.puts, if_neg (htext ch (List.mem_cons_self ..))]
      exact ih (h.putch ch) fun ch' hch' => htext ch' (List.mem_cons_of_mem _ hch')

theorem puts_append {rest : List UInt8} (htext : ∀ ch ∈ text, ch ≠ 0) :
    c.puts (text ++ rest) = (c.puts text).puts rest := by
  induction text generalizing c with
  | nil => rfl
  | cons ch text ih =>
      have hch := htext ch (List.mem_cons_self ..)
      rw [List.cons_append, Console.puts, if_neg hch, Console.puts, if_neg hch]
      exact ih fun ch' hch' => htext ch' (List.mem_cons_of_mem _ hch')

theorem clearRows_cells (val i left : ℕ) (m : Memory UInt8) (j : ℕ) :
    shortAt (Console.clearRows val i left m) j =
      if i * 80 ≤ j ∧ j < (i + left) * 80 then val % 65536 else shortAt m j := by
  induction left generalizing i m with
  | zero => rw [Console.clearRows, if_neg (by omega)]
  | succ left ih =>
      rw [Console.clearRows, ih, shortAt_memsetw]
      by_cases hrow : i * 80 ≤ j ∧ j < i * 80 + 80
      · rw [if_neg (by omega), if_pos hrow, if_pos (by omega)]
      · by_cases hin : i * 80 ≤ j ∧ j < (i + (left + 1)) * 80
        · rw [if_pos (by omega), if_pos hin]
        · rw [if_neg (by omega), if_neg hrow, if_neg hin]

theorem storedIn_clearRows {left : ℕ} (h : m.StoredIn 0 4000) (hfits : i + left ≤ 25) :
    (Console.clearRows val i left m).StoredIn 0 4000 := by
  induction left generalizing i m with
  | zero => exact h
  | succ left ih => exact ih (storedIn_memsetw h (by omega) (by omega)) (by omega)

/-- **`cls`** shows an empty terminal. -/
theorem cls_onScreen (hstores : c.text.stores = []) : OnScreen c.attrib .empty c.cls := by
  refine @Drawn.moveCsr _ 0 _ _ ⟨rfl, rfl, rfl, fun h => absurd h (by simp), ?_, fun _ _ _ _ => rfl,
    storedIn_clearRows ?_ (by omega)⟩ (Nat.succ_pos 79) (Nat.succ_pos 24)
  · intro row hrow col hcol
    dsimp only
    rw [clearRows_cells, if_pos (by omega), shortAt_blank]
    rfl
  · intro i hi
    rw [hstores] at hi
    exact absurd hi (by simp)

/-- **The console.**  From `cls` on, whatever string is put on the screen and whatever its
colours are: after every character the screen shows the last 25 rows of the terminal that has
read as much, with the terminal's cursor, and no store was outside the text memory. -/
theorem puts_refines (hstores : c.text.stores = []) (htext : ∀ ch ∈ text, ch ≠ 0) :
    ∀ read rest, text = read ++ rest →
      c.cls.puts text = (c.cls.puts read).puts rest ∧
        Shows c.attrib (.run read) (c.cls.puts read) := by
  rintro read rest rfl
  have hread : ∀ ch ∈ read, ch ≠ 0 := fun ch hch => htext ch (List.mem_append_left _ hch)
  exact ⟨puts_append hread, ((cls_onScreen hstores).puts hread).shows⟩

/-- A screen of garbage. -/
def garbage : Console := ⟨⟨fun i => UInt8.ofNat i, []⟩, 0x1F, 3, 70, 0⟩

/-- A tab, a newline and a letter, behind the newline. -/
theorem puts_refines_tab :
    garbage.cls.puts [0x09, 0x0A, 0x41] = (garbage.cls.puts [0x09, 0x0A]).puts [0x41] ∧
      Shows 0x1F (.run [0x09, 0x0A]) (garbage.cls.puts [0x09, 0x0A]) :=
  puts_refines (c := garbage) rfl (by decide +kernel) [0x09, 0x0A] [0x41] rfl

end EgGS
