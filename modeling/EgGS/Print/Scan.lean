import EgGS.Print.Format

/-!
# Formats of any shape

A format need not be well formed: it can end inside a directive, behind its `%`, its flags, its
width, its `.`, its precision or its qualifier.  Which arguments it takes is said by the phase of
the scan at each character.  The scan stays in front of the `NUL` that ends the format, because it
only moves over a character that it has found not to be the `NUL`.

* `vsprintf_safe`: with the arguments that its format takes, `vsprintf` returns, has read nothing
  behind the end of the format, and has written a text of the length it returns, and a `NUL`.
-/

namespace EgGS

open Lib Prog

/-! ## The arguments of a format -/

instance : DecidablePred isFlag := fun c =>
  inferInstanceAs (Decidable (c = chr '-' ∨ c = chr '+' ∨ c = chr ' ' ∨ c = chr '#' ∨ c = chr '0'))

/-- What an argument must be. -/
inductive Need where
  | int
  /-- The address of a string. -/
  | string
  /-- The address of an `int`, which is written. -/
  | cell
  deriving DecidableEq

/-- What the scan has passed. -/
inductive Phase where
  | text
  /-- A `%` and flags. -/
  | flags
  /-- Digits of a width. -/
  | width
  /-- The `.` of a precision. -/
  | precision
  /-- Digits of a precision. -/
  | digits
  /-- All but a qualifier and the conversion. -/
  | qualifier
  /-- All but the conversion. -/
  | conversion
  deriving DecidableEq

namespace Phase

/-- The argument of a conversion. -/
def conversionNeed (c : UInt8) : Option Need :=
  if c = chr 's' then some .string
  else if c = chr 'n' then some .cell
  else if c ∈ [chr 'c', chr 'o', chr 'p', chr 'x', chr 'X', chr 'd', chr 'i', chr 'u'] then
    some .int
  else none

/-- A character where a qualifier or a conversion can stand. -/
def qualifierStep (c : UInt8) : Option Need × Phase :=
  if c = chr 'h' ∨ c = chr 'l' ∨ c = chr 'L' then (none, conversion) else (conversionNeed c, text)

/-- A character where a width can go on. -/
def widthStep (c : UInt8) : Option Need × Phase :=
  if isDigit c then (none, width)
  else if c = chr '.' then (none, precision)
  else qualifierStep c

/-- The argument that a character takes, and the phase behind it.  A `*` in place of a width takes
an argument, and is a conversion of its own. -/
def step : Phase → UInt8 → Option Need × Phase
  | text, c => (none, if c = chr '%' then flags else text)
  | flags, c =>
      if isFlag c then (none, flags)
      else if c = chr '*' then (some .int, text)
      else widthStep c
  | width, c => widthStep c
  | precision, c =>
      if isDigit c then (none, digits)
      else if c = chr '*' then (some .int, qualifier)
      else qualifierStep c
  | digits, c => if isDigit c then (none, digits) else qualifierStep c
  | qualifier, c => qualifierStep c
  | conversion, c => (conversionNeed c, text)

end Phase

/-- The bytes of the `int` that `%n` writes. -/
def countCell (w : ℤ) : Set ℕ := {a | unsigned w ≤ a ∧ a < unsigned w + 4}

/-- There is an argument for all that the rest of the format takes; strings are ended by a `NUL`,
whatever was stored by a `%n` before. -/
def Supplied : Phase → List UInt8 → List ℤ → (ℕ → UInt8) → Prop
  | _, [], _, _ => True
  | ph, c :: cs, args, mem =>
      match ph.step c with
      | (none, next) => Supplied next cs args mem
      | (some .int, next) => ∃ w rest, args = w :: rest ∧ Supplied next cs rest mem
      | (some .string, next) =>
          ∃ w rest, args = w :: rest ∧ (∃ l, StringAt mem (unsigned w) l) ∧
            Supplied next cs rest mem
      | (some .cell, next) =>
          ∃ w rest, args = w :: rest ∧
            ∀ mem', Set.EqOn mem' mem (countCell w)ᶜ → Supplied next cs rest mem'

/-- The two phases do the same at the next character. -/
theorem Supplied.change {ph ph' : Phase} {cs : List UInt8} {args : List ℤ} {mem : ℕ → UInt8}
    (h : Supplied ph cs args mem) (hstep : ∀ c ∈ cs.head?, ph.step c = ph'.step c) :
    Supplied ph' cs args mem := by
  cases cs with
  | nil => trivial
  | cons c cs =>
      rw [Supplied] at h ⊢
      rwa [← hstep c rfl]

/-! ## The scan -/

/-- The scan is in `ph` at the pointer, from `low` on, and in front of the `NUL` at `last`. -/
structure ScanAt (fmt : ℕ → UInt8) (last low : ℕ) (ph : Phase) (s : Printing) : Prop where
  rest : ∃ cs, StringAt fmt s.pos cs ∧ s.pos + cs.length = last ∧ Supplied ph cs s.args s.mem
  low : low ≤ s.pos
  reads : ∀ i ∈ s.reads, i ≤ last

section Scan

variable {fmt : ℕ → UInt8} {last low : ℕ} {ph ph' : Phase} {s : Printing} {α : Type}

/-- The rest of a string behind its first character. -/
theorem StringAt.tail {m : ℕ → UInt8} {a : ℕ} {c : UInt8} {l : List UInt8}
    (h : StringAt m a (c :: l)) : StringAt m (a + 1) l := by
  refine ⟨h.bytes.2, ?_, fun hin => h.nonzero (List.mem_cons_of_mem _ hin)⟩
  have hzero := h.zero
  rwa [List.length_cons, show a + (l.length + 1) = a + 1 + l.length by omega] at hzero

/-- A string of which the first character is not `NUL` has one. -/
theorem StringAt.cons_of_ne {m : ℕ → UInt8} {a : ℕ} {l : List UInt8} (h : StringAt m a l)
    (hne : m a ≠ 0) : ∃ l', l = m a :: l' := by
  cases l with
  | nil => exact absurd h.zero hne
  | cons c l' => exact ⟨l', by rw [h.bytes.1]⟩

namespace ScanAt

theorem pos_le (h : ScanAt fmt last low ph s) : s.pos ≤ last := by
  obtain ⟨cs, -, hlast, -⟩ := h.rest
  omega

/-- Reading the character at the pointer. -/
theorem read (h : ScanAt fmt last low ph s) :
    ScanAt fmt last low ph { s with reads := s.pos :: s.reads } := by
  refine ⟨h.rest, h.low, fun i hi => ?_⟩
  rcases List.mem_cons.mp hi with rfl | hi
  · exact h.pos_le
  · exact h.reads i hi

theorem emit (h : ScanAt fmt last low ph s) (str : List UInt8) :
    ScanAt fmt last low ph { s with str } := ⟨h.rest, h.low, h.reads⟩

/-- At the `NUL` any phase will do. -/
theorem of_zero (h : ScanAt fmt last low ph s) (hzero : fmt s.pos = 0) :
    ScanAt fmt last low ph' s := by
  obtain ⟨cs, hcs, hlast, -⟩ := h.rest
  refine ⟨⟨cs, hcs, hlast, ?_⟩, h.low, h.reads⟩
  cases cs with
  | nil => trivial
  | cons c cs => exact absurd (hcs.bytes.1.symm.trans hzero) fun h => hcs.nonzero (by simp [h])

/-- Two phases that do the same at the pointer. -/
theorem change (h : ScanAt fmt last low ph s) (hstep : ph.step (fmt s.pos) = ph'.step (fmt s.pos)) :
    ScanAt fmt last low ph' s := by
  obtain ⟨cs, hcs, hlast, hargs⟩ := h.rest
  refine ⟨⟨cs, hcs, hlast, hargs.change fun c hc => ?_⟩, h.low, h.reads⟩
  cases cs with
  | nil => simp at hc
  | cons c' cs =>
      obtain rfl : c' = c := by simpa using hc
      rwa [hcs.bytes.1] at hstep

/-- Behind a character that takes no argument. -/
theorem next (ph' : Phase) (h : ScanAt fmt last low ph s) (hne : fmt s.pos ≠ 0)
    (hstep : ph.step (fmt s.pos) = (none, ph')) :
    ScanAt fmt last low ph' { s with pos := s.pos + 1 } := by
  obtain ⟨cs, hcs, hlast, hargs⟩ := h.rest
  obtain ⟨cs, rfl⟩ := hcs.cons_of_ne hne
  rw [Supplied, hstep] at hargs
  rw [List.length_cons] at hlast
  exact ⟨⟨cs, hcs.tail, by dsimp only; omega, hargs⟩, h.low.trans (Nat.le_succ _), h.reads⟩

/-- The argument that the character at the pointer takes, and the scan behind it. -/
theorem int (ph' : Phase) (h : ScanAt fmt last low ph s) (hne : fmt s.pos ≠ 0)
    (hstep : ph.step (fmt s.pos) = (some .int, ph')) :
    ∃ w rest, s.args = w :: rest ∧
      ScanAt fmt last low ph' { s with pos := s.pos + 1, args := rest } := by
  obtain ⟨cs, hcs, hlast, hargs⟩ := h.rest
  obtain ⟨cs, rfl⟩ := hcs.cons_of_ne hne
  rw [Supplied, hstep] at hargs
  rw [List.length_cons] at hlast
  obtain ⟨w, rest, hw, hrest⟩ := hargs
  exact ⟨w, rest, hw, ⟨cs, hcs.tail, by dsimp only; omega, hrest⟩, h.low.trans (Nat.le_succ _),
    h.reads⟩

theorem string (ph' : Phase) (h : ScanAt fmt last low ph s) (hne : fmt s.pos ≠ 0)
    (hstep : ph.step (fmt s.pos) = (some .string, ph')) :
    ∃ w rest, s.args = w :: rest ∧ (∃ l, StringAt s.mem (unsigned w) l) ∧
      ScanAt fmt last low ph' { s with pos := s.pos + 1, args := rest } := by
  obtain ⟨cs, hcs, hlast, hargs⟩ := h.rest
  obtain ⟨cs, rfl⟩ := hcs.cons_of_ne hne
  rw [Supplied, hstep] at hargs
  rw [List.length_cons] at hlast
  obtain ⟨w, rest, hw, hstring, hrest⟩ := hargs
  exact ⟨w, rest, hw, hstring, ⟨cs, hcs.tail, by dsimp only; omega, hrest⟩,
    h.low.trans (Nat.le_succ _), h.reads⟩

theorem cell (ph' : Phase) (h : ScanAt fmt last low ph s) (hne : fmt s.pos ≠ 0)
    (hstep : ph.step (fmt s.pos) = (some .cell, ph')) :
    ∃ w rest, s.args = w :: rest ∧ ∀ mem', Set.EqOn mem' s.mem (countCell w)ᶜ →
      ScanAt fmt last low ph' { s with pos := s.pos + 1, args := rest, mem := mem' } := by
  obtain ⟨cs, hcs, hlast, hargs⟩ := h.rest
  obtain ⟨cs, rfl⟩ := hcs.cons_of_ne hne
  rw [Supplied, hstep] at hargs
  rw [List.length_cons] at hlast
  obtain ⟨w, rest, hw, hrest⟩ := hargs
  exact ⟨w, rest, hw, fun mem' hmem => ⟨⟨cs, hcs.tail, by dsimp only; omega, hrest mem' hmem⟩,
    h.low.trans (Nat.le_succ _), h.reads⟩⟩

/-- A `*` in place of a width takes its argument, and the scan stays where it is. -/
theorem star (h : ScanAt fmt last low .flags s) (hstar : fmt s.pos = chr '*') :
    ∃ w rest, s.args = w :: rest ∧ ScanAt fmt last low .width { s with args := rest } := by
  obtain ⟨cs, hcs, hlast, hargs⟩ := h.rest
  obtain ⟨cs, rfl⟩ := hcs.cons_of_ne (by rw [hstar]; decide)
  have hflags : Phase.step .flags (fmt s.pos) = (some .int, .text) := by
    rw [hstar]
    decide
  have hwidth : Phase.step .width (fmt s.pos) = (none, .text) := by
    rw [hstar]
    decide
  rw [Supplied, hflags] at hargs
  obtain ⟨w, rest, hw, hrest⟩ := hargs
  refine ⟨w, rest, hw, ⟨_, hcs, hlast, ?_⟩, h.low, h.reads⟩
  rw [Supplied, hwidth]
  exact hrest

end ScanAt

/-! ## Reading a directive -/

theorem readChar {f : UInt8 → F α} {Q : α → Printing → Prop}
    (h : Does (f (fmt s.pos)) fmt { s with reads := s.pos :: s.reads } Q) :
    Does (fmtChar >>= f) fmt s Q := h

theorem moveOn {f : Unit → F α} {Q : α → Printing → Prop}
    (h : Does (f ()) fmt { s with pos := s.pos + 1 } Q) : Does (fmtNext >>= f) fmt s Q := h

theorem takeArg {f : ℤ → F α} {Q : α → Printing → Prop} {w : ℤ} {rest : List ℤ}
    (hargs : s.args = w :: rest) (h : Does (f w) fmt { s with args := rest } Q) :
    Does (vaArg >>= f) fmt s Q := by
  obtain ⟨pos, reads, args, mem, str⟩ := s
  dsimp only at hargs
  subst hargs
  exact h

theorem vaArg_does {Q : ℤ → Printing → Prop} {w : ℤ} {rest : List ℤ} (hargs : s.args = w :: rest)
    (h : Q w { s with args := rest }) : Does vaArg fmt s Q := by
  obtain ⟨pos, reads, args, mem, str⟩ := s
  dsimp only at hargs
  subst hargs
  exact .pure h

theorem digit_ne_zero {c : UInt8} (h : isDigit c = true) : c ≠ 0 := by
  rintro rfl
  exact absurd h (by decide)

theorem isFlag.ne_zero {c : UInt8} (h : isFlag c) : c ≠ 0 := by
  rintro rfl
  exact absurd h (by decide)

/-- Flags are read up to the first character that is none. -/
theorem readFlags_scan : ∀ {left : ℕ} {s : Printing} (flags : FmtFlags), last - s.pos ≤ left →
    ScanAt fmt last low .flags { s with pos := s.pos + 1 } →
    LoopDoes (fun flags => do
      fmtNext
      let c ← fmtChar
      if c = chr '-' then pure (.inl { flags with left := true })
      else if c = chr '+' then pure (.inl { flags with plus := true })
      else if c = chr ' ' then pure (.inl { flags with space := true })
      else if c = chr '#' then pure (.inl { flags with special := true })
      else if c = chr '0' then pure (.inl { flags with zeropad := true })
      else pure (.inr flags)) fmt flags s fun _ t =>
        ScanAt fmt last low .flags t ∧ ¬ isFlag (fmt t.pos) := by
  intro left
  induction left with
  | zero =>
      intro s flags hleft h
      have hle := h.pos_le
      dsimp only at hle
      omega
  | succ left ih =>
      intro s flags hleft h
      have hread := h.read
      by_cases hflag : isFlag (fmt (s.pos + 1))
      · -- another flag: the pointer moves over it
        have hgo : ∀ flags', LoopDoes _ fmt flags' _ _ := fun flags' =>
          ih flags' (s := ⟨s.pos + 1, (s.pos + 1) :: s.reads, s.args, s.mem, s.str⟩)
            (by dsimp only; omega)
            (hread.next .flags hflag.ne_zero (if_pos hflag))
        refine .step (moveOn (readChar ?_))
        dsimp only
        refine .ite (fun _ => .pure ⟨_, rfl, hgo _⟩) fun hminus => ?_
        refine .ite (fun _ => .pure ⟨_, rfl, hgo _⟩) fun hplus => ?_
        refine .ite (fun _ => .pure ⟨_, rfl, hgo _⟩) fun hspace => ?_
        refine .ite (fun _ => .pure ⟨_, rfl, hgo _⟩) fun hhash => ?_
        refine .ite (fun _ => .pure ⟨_, rfl, hgo _⟩) fun hzero => ?_
        simp [isFlag, hminus, hplus, hspace, hhash, hzero] at hflag
      · have hnot := hflag
        simp only [isFlag, not_or] at hnot
        -- no flag: the loop ends at this character
        obtain ⟨hminus, hplus, hspace, hhash, hzero⟩ := hnot
        refine .done (moveOn (readChar ?_))
        dsimp only
        rw [if_neg hminus, if_neg hplus, if_neg hspace, if_neg hhash, if_neg hzero]
        exact .pure ⟨_, rfl, hread, hflag⟩

/-- Digits are read up to the first character that is none. -/
theorem skipAtoi_scan (ph : Phase) (hph : ∀ c, isDigit c = true → ph.step c = (none, ph)) :
    ∀ {left : ℕ} {s : Printing} (i : ℤ), last - s.pos ≤ left → ScanAt fmt last low ph s →
    LoopDoes (fun i => do
      let c ← fmtChar
      if isDigit c then do
        fmtNext
        pure (.inl (wrap32 (i * 10 + c.toNat - 48)))
      else
        pure (.inr i)) fmt i s fun _ t =>
          ScanAt fmt last low ph t ∧ isDigit (fmt t.pos) = false := by
  have hstop : ∀ {s : Printing} (i : ℤ), ScanAt fmt last low ph s → isDigit (fmt s.pos) = false →
      LoopDoes (fun i => do
        let c ← fmtChar
        if isDigit c then do
          fmtNext
          pure (.inl (wrap32 (i * 10 + c.toNat - 48)))
        else
          pure (.inr i)) fmt i s fun _ t =>
            ScanAt fmt last low ph t ∧ isDigit (fmt t.pos) = false := by
    intro s i h hdigit
    refine .done (readChar ?_)
    rw [hdigit, if_neg (by decide)]
    exact .pure ⟨_, rfl, h.read, hdigit⟩
  intro left
  induction left with
  | zero =>
      intro s i hleft h
      refine hstop i h ?_
      obtain ⟨cs, hcs, hlast, -⟩ := h.rest
      have hnil : cs.length = 0 := by omega
      have hzero := hcs.zero
      rw [hnil, Nat.add_zero] at hzero
      rw [hzero]
      decide
  | succ left ih =>
      intro s i hleft h
      cases hdigit : isDigit (fmt s.pos) with
      | false => exact hstop i h hdigit
      | true =>
          have hmove := h.read.next ph (digit_ne_zero hdigit) (hph _ hdigit)
          refine .step (readChar ?_)
          rw [hdigit, if_pos rfl]
          exact moveOn (.pure ⟨_, rfl, ih _ (by dsimp only; omega) hmove⟩)

theorem readWidth_scan {flags : FmtFlags} (h : ScanAt fmt last low .flags s)
    (hflag : ¬ isFlag (fmt s.pos)) :
    Does (readWidth flags) fmt s fun _ t =>
      ScanAt fmt last low .width t ∧ isDigit (fmt t.pos) = false := by
  unfold readWidth
  refine readChar ?_
  by_cases hstar : fmt s.pos = chr '*'
  · -- the pointer stays at the `*`, which is then no digit and no `.`
    have hdigit : isDigit (fmt s.pos) = false := by
      rw [hstar]
      decide
    obtain ⟨w, rest, hargs, hrest⟩ := h.read.star hstar
    rw [if_neg (by simp [hdigit]), if_pos hstar]
    exact takeArg hargs (.ite (fun _ => .pure ⟨hrest, hdigit⟩) fun _ => .pure ⟨hrest, hdigit⟩)
  · have hwidth : ScanAt fmt last low .width s :=
      h.change (by rw [Phase.step, if_neg hflag, if_neg hstar]; rfl)
    cases hdigit : isDigit (fmt s.pos) with
    | true =>
        rw [if_pos rfl]
        have hdo := (skipAtoi_scan .width (fun c hc => if_pos hc) 0 le_rfl hwidth.read).does
        exact hdo.bind fun _ t ht => .pure ht
    | false =>
        rw [if_neg (by decide), if_neg hstar]
        exact .pure ⟨hwidth.read, hdigit⟩

/-- What stands behind the `.` of a precision. -/
theorem readPrecisionValue_scan (h : ScanAt fmt last low .precision s) :
    Does readPrecisionValue fmt s fun _ t => ScanAt fmt last low .qualifier t := by
  unfold readPrecisionValue
  refine readChar ?_
  cases hdigit : isDigit (fmt s.pos) with
  | true =>
      rw [if_pos rfl]
      have hdigits : ScanAt fmt last low .digits s := h.change (by simp [Phase.step, hdigit])
      refine ((skipAtoi_scan .digits (fun c hc => if_pos hc) 0 le_rfl
        hdigits.read).does).mono fun _ t ⟨ht, hend⟩ => ht.change ?_
      simp [Phase.step, hend]
  | false =>
      rw [if_neg (by decide)]
      by_cases hstar : fmt s.pos = chr '*'
      · rw [if_pos hstar]
        obtain ⟨w, rest, hargs, hrest⟩ := h.read.int .qualifier (by
          dsimp only
          rw [hstar]
          decide) (by
          dsimp only
          rw [hstar]
          decide)
        exact moveOn (vaArg_does hargs hrest)
      · rw [if_neg hstar]
        exact .pure (h.read.change (by simp [Phase.step, hdigit, hstar]))

theorem readPrecision_scan (h : ScanAt fmt last low .width s) (hend : isDigit (fmt s.pos) = false) :
    Does readPrecision fmt s fun _ t => ScanAt fmt last low .qualifier t := by
  unfold readPrecision
  refine readChar ?_
  by_cases hdot : fmt s.pos = chr '.'
  · rw [if_pos hdot]
    have hmove := h.read.next .precision (by
      dsimp only
      rw [hdot]
      decide) (by
      dsimp only
      rw [hdot]
      decide)
    exact moveOn ((readPrecisionValue_scan hmove).bind fun _ t ht => .pure ht)
  · rw [if_neg hdot]
    exact .pure (h.read.change (by simp [Phase.step, Phase.widthStep, hend, hdot]))

theorem readQualifier_scan (h : ScanAt fmt last low .qualifier s) :
    Does readQualifier fmt s fun _ t => ScanAt fmt last low .conversion t := by
  unfold readQualifier
  refine readChar (.ite (fun hqualifier => ?_) fun hnone => ?_)
  · refine .update (h.read.next .conversion ?_ (if_pos hqualifier))
    dsimp only
    rcases hqualifier with hc | hc | hc <;> rw [hc] <;> decide
  · exact .pure (h.read.change (by simp [Phase.step, Phase.qualifierStep, hnone]))

/-! ## Conversions -/

/-- Behind a directive the loop moves on, to the next character or to the `NUL`. -/
def Past (fmt : ℕ → UInt8) (last low : ℕ) (t : Printing) : Prop :=
  ScanAt fmt last low .text { t with pos := t.pos + 1 }

theorem emits {f : Unit → F α} {Q : α → Printing → Prop} {text : List UInt8}
    (h : Does (f ()) fmt { s with str := s.str ++ text } Q) : Does (emit text >>= f) fmt s Q := h

theorem convertChar_scan {flags : FmtFlags} {width : ℤ} {w : ℤ} {rest : List ℤ}
    (hargs : s.args = w :: rest)
    (hrest : ScanAt fmt last low .text { s with pos := s.pos + 1, args := rest }) :
    Does (convertChar flags width) fmt s fun _ t => Past fmt last low t := by
  unfold convertChar
  exact emits (takeArg hargs (emits (.update (hrest.emit _))))

/-- `strlen` changes nothing. -/
theorem strlen_same (a : ℕ) : Ensures (strlen a) fmt s fun _ t => t = s := by
  refine Ensures.iterate (I := fun _ t => t = s) ?_ rfl
  rintro len _ rfl
  exact .bind_read (.ite (fun _ => .pure rfl) fun _ => .pure rfl)

theorem strlen_scan {a : ℕ} {l : List UInt8} (hl : StringAt s.mem a l) :
    Does (strlen a) fmt s fun _ t => t = s := by
  have hlen : Leaves (strlen a) fmt s l.length s.pos s.args s.str := strlen_leaves hl
  exact hlen.returns.does (strlen_same a)

theorem convertString_scan {flags : FmtFlags} {width precision : ℤ} {w : ℤ} {rest : List ℤ}
    {l : List UInt8} (hargs : s.args = w :: rest) (hl : StringAt s.mem (unsigned w) l)
    (hrest : ScanAt fmt last low .text { s with pos := s.pos + 1, args := rest }) :
    Does (convertString flags width precision) fmt s fun _ t => Past fmt last low t := by
  unfold convertString
  have hlen : Does (strlen (unsigned w)) fmt { s with args := rest } fun _ t =>
      t = { s with args := rest } := strlen_scan hl
  refine takeArg hargs (hlen.bind fun len t ht => ?_)
  subst ht
  exact .bind_read (emits (.update (hrest.emit _)))

theorem number_isSome {base : ℕ} (hbase : 2 ≤ base ∧ base ≤ 36) (num size precision : ℤ)
    (type : FmtFlags) : ∃ text, number num base size precision type = some text := by
  unfold number
  rw [if_neg (by omega)]
  exact ⟨_, rfl⟩

theorem convertNumber_scan {flags : FmtFlags} {width precision : ℤ} {base : ℕ} {w : ℤ}
    {rest : List ℤ} (hbase : 2 ≤ base ∧ base ≤ 36) (hargs : s.args = w :: rest)
    (hrest : ScanAt fmt last low .text { s with pos := s.pos + 1, args := rest }) :
    Does (convertNumber base width precision flags) fmt s fun _ t => Past fmt last low t := by
  unfold convertNumber
  obtain ⟨text, htext⟩ := number_isSome hbase (wrap32 w) width precision flags
  refine takeArg hargs ?_
  rw [htext]
  exact .update (hrest.emit _)

theorem storeCount_scan {w : ℤ} {rest : List ℤ} (hargs : s.args = w :: rest)
    (hrest : ∀ mem', Set.EqOn mem' s.mem (countCell w)ᶜ →
      ScanAt fmt last low .text { s with pos := s.pos + 1, args := rest, mem := mem' }) :
    Does storeCount fmt s fun _ t => Past fmt last low t := by
  unfold storeCount
  refine takeArg hargs (.update (hrest _ fun a ha => if_neg ha))

/-- A character that is no conversion takes no argument; at the `NUL` the pointer goes back. -/
theorem convertOther_scan (hlow : 0 < low) (h : ScanAt fmt last low .conversion s)
    (hnone : Phase.conversionNeed (fmt s.pos) = none) :
    Does (convertOther (fmt s.pos)) fmt s fun _ t => Past fmt last low t := by
  unfold convertOther
  have hpos := h.low
  have htail : ∀ str, Does (if fmt s.pos ≠ 0 then emit [fmt s.pos] else fmtBack) fmt
      { s with str } fun _ t => Past fmt last low t := by
    intro str
    refine .ite (fun hne => .update ?_) fun hzero => .update ?_
    · have hmove : ScanAt fmt last low .text { s with pos := s.pos + 1 } :=
        h.next .text hne (by rw [Phase.step, hnone])
      exact hmove.emit _
    · have hback : s.pos - 1 + 1 = s.pos := by omega
      unfold Past
      dsimp only
      rw [hback]
      exact (h.of_zero (not_not.mp hzero)).emit str
  exact .ite (fun _ => emits (htail _)) fun _ => htail s.str

/-- The conversion of a directive. -/
theorem convert_scan {flags : FmtFlags} {width precision : ℤ} (hlow : 0 < low)
    (h : ScanAt fmt last low .conversion s) :
    Does (convert flags width precision) fmt s fun _ t => Past fmt last low t := by
  have hread := h.read
  -- the conversions that take a number
  have hint : fmt s.pos ∈ [chr 'c', chr 'o', chr 'p', chr 'x', chr 'X', chr 'd', chr 'i', chr 'u'] →
      ∃ w rest, s.args = w :: rest ∧ ScanAt fmt last low .text
        { s with pos := s.pos + 1, reads := s.pos :: s.reads, args := rest } := by
    intro hin
    refine hread.int .text ?_ ?_
    · dsimp only
      intro hzero
      rw [hzero] at hin
      exact absurd hin (by decide)
    · have hall : ∀ c ∈ [chr 'c', chr 'o', chr 'p', chr 'x', chr 'X', chr 'd', chr 'i', chr 'u'],
          Phase.step .conversion c = (some .int, .text) := by decide +kernel
      exact hall _ hin
  have hnumber : ∀ (base : ℕ) (width precision : ℤ) (flags : FmtFlags), 2 ≤ base ∧ base ≤ 36 →
      fmt s.pos ∈ [chr 'c', chr 'o', chr 'p', chr 'x', chr 'X', chr 'd', chr 'i', chr 'u'] →
      Does (convertNumber base width precision flags) fmt { s with reads := s.pos :: s.reads }
        fun _ t => Past fmt last low t := by
    intro base width precision flags hbase hin
    obtain ⟨w, rest, hargs, hrest⟩ := hint hin
    exact convertNumber_scan hbase hargs hrest
  unfold convert
  refine readChar ?_
  refine .ite (fun hc => ?_) fun hc => ?_
  · obtain ⟨w, rest, hargs, hrest⟩ := hint (by simp [hc])
    exact convertChar_scan hargs hrest
  refine .ite (fun hs => ?_) fun hs => ?_
  · obtain ⟨w, rest, hargs, ⟨l, hl⟩, hrest⟩ := hread.string .text
      (by dsimp only; rw [hs]; decide) (by dsimp only; rw [hs]; decide)
    exact convertString_scan hargs hl hrest
  refine .ite (fun ho => hnumber _ _ _ _ (by omega) (by simp [ho])) fun ho => ?_
  refine .ite (fun hp => .ite (fun _ => hnumber _ _ _ _ (by omega) (by simp [hp]))
    fun _ => hnumber _ _ _ _ (by omega) (by simp [hp])) fun hp => ?_
  refine .ite (fun hx => hnumber _ _ _ _ (by omega) (by simp [hx])) fun hx => ?_
  refine .ite (fun hX => hnumber _ _ _ _ (by omega) (by simp [hX])) fun hX => ?_
  refine .ite (fun hd => hnumber _ _ _ _ (by omega) (by rcases hd with hd | hd <;> simp [hd]))
    fun hd => ?_
  refine .ite (fun hu => hnumber _ _ _ _ (by omega) (by simp [hu])) fun hu => ?_
  refine .ite (fun hn => ?_) fun hn => ?_
  · obtain ⟨w, rest, hargs, hrest⟩ := hread.cell .text
      (by dsimp only; rw [hn]; decide) (by dsimp only; rw [hn]; decide)
    exact storeCount_scan hargs hrest
  · obtain ⟨hd, hi⟩ := not_or.mp hd
    exact convertOther_scan hlow hread
      (by simp [Phase.conversionNeed, hc, hs, ho, hp, hx, hX, hd, hi, hu, hn])

/-! ## The whole format -/

/-- A directive, of whatever shape. -/
theorem directive_scan (h : ScanAt fmt last 0 .text s) (hpercent : fmt s.pos = chr '%') :
    Does directive fmt s fun _ t => Past fmt last (s.pos + 1) t := by
  have hne : fmt s.pos ≠ 0 := by
    rw [hpercent]
    decide
  have hmove := h.next .flags hne (by rw [hpercent]; decide)
  have hstart : ScanAt fmt last (s.pos + 1) .flags { s with pos := s.pos + 1 } :=
    ⟨hmove.rest, le_rfl, hmove.reads⟩
  unfold directive
  refine (readFlags_scan {} le_rfl hstart).does.bind fun flags t ⟨ht, hflag⟩ => ?_
  refine (readWidth_scan ht hflag).bind fun width t ⟨ht, hdigit⟩ => ?_
  refine (readPrecision_scan ht hdigit).bind fun precision t ht => ?_
  refine (readQualifier_scan ht).bind fun _ t ht => ?_
  exact convert_scan (Nat.succ_pos _) ht

/-- The loop over the format ends in front of the `NUL`. -/
theorem formatRounds_scan : ∀ {left : ℕ} {s : Printing}, last - s.pos ≤ left →
    ScanAt fmt last 0 .text s →
    LoopDoes (fun _ => formatRound) fmt () s fun _ t => ScanAt fmt last 0 .text t := by
  have hstop : ∀ {s : Printing}, ScanAt fmt last 0 .text s → fmt s.pos = 0 →
      LoopDoes (fun _ => formatRound) fmt () s fun _ t => ScanAt fmt last 0 .text t := by
    intro s h hzero
    refine .done ?_
    unfold formatRound
    refine readChar ?_
    rw [if_pos hzero]
    exact .pure ⟨(), rfl, h.read⟩
  intro left
  induction left with
  | zero =>
      intro s hleft h
      refine hstop h ?_
      obtain ⟨cs, hcs, hlast, -⟩ := h.rest
      have hnil : cs.length = 0 := by omega
      have hzero := hcs.zero
      rwa [hnil, Nat.add_zero] at hzero
  | succ left ih =>
      intro s hleft h
      by_cases hzero : fmt s.pos = 0
      · exact hstop h hzero
      · refine .step ?_
        unfold formatRound
        refine readChar ?_
        rw [if_neg hzero]
        have hread := h.read
        refine .ite (fun hplain => ?_) fun hpercent => ?_
        · have hmove := hread.next .text hzero (by simp [Phase.step, hplain])
          exact emits (moveOn (.pure ⟨(), rfl, ih (by dsimp only; omega) (hmove.emit _)⟩))
        · refine (directive_scan hread (not_not.mp hpercent)).bind fun _ t ht => ?_
          have hlow : s.pos + 1 ≤ t.pos + 1 := ht.low
          refine moveOn (.pure ⟨(), rfl, ih (by dsimp only; omega) ?_⟩)
          exact ⟨ht.rest, Nat.zero_le _, ht.reads⟩

end Scan

/-- **A format of any shape is safe**: with the arguments that it takes, `vsprintf` returns, it has
read no byte behind the `NUL` that ends the format, and it has written as many characters as it
says, and a `NUL`. -/
theorem vsprintf_safe {fmt mem : ℕ → UInt8} {format : List UInt8} {args : List ℤ}
    (hformat : StringAt fmt 0 format) (hargs : Supplied .text format args mem) :
    Does vsprintf fmt ⟨0, [], args, mem, []⟩ fun len t =>
      (∀ i ∈ t.reads, i ≤ format.length) ∧ ∃ out, t.str = out ++ [0] ∧ len = out.length := by
  have hstart : ScanAt fmt format.length 0 .text ⟨0, [], args, mem, []⟩ := by
    refine ⟨⟨format, hformat, Nat.zero_add _, hargs⟩, le_rfl, fun i hi => ?_⟩
    simp at hi
  unfold vsprintf
  refine (formatRounds_scan le_rfl hstart).does.bind fun _ t ht => .bind_read ?_
  exact .bind_update (.pure ⟨ht.reads, t.str, rfl, rfl⟩)

/-- The memory that holds a format from address zero on. -/
def formatMemory (format : List UInt8) (a : ℕ) : UInt8 := format.getD a 0

theorem formatMemory_string {format : List UInt8} (h : 0 ∉ format) :
    StringAt (formatMemory format) 0 format := by
  refine ⟨.of_get fun i hi => ?_, ?_, h⟩
  · simp [formatMemory, hi]
  · simp [formatMemory]

/-- `%d%-5.`, which ends behind the `.` of a precision. -/
def truncated : List UInt8 := [chr '%', chr 'd', chr '%', chr '-', chr '5', chr '.']

theorem truncated_supplied (mem : ℕ → UInt8) : Supplied .text truncated [7] mem := by
  have hpercent : Phase.step .text (chr '%') = (none, .flags) := by decide
  have hd : Phase.step .flags (chr 'd') = (some .int, .text) := by decide
  have hminus : Phase.step .flags (chr '-') = (none, .flags) := by decide
  have hfive : Phase.step .flags (chr '5') = (none, .width) := by decide
  have hdot : Phase.step .width (chr '.') = (none, .precision) := by decide
  simp only [truncated, Supplied, hpercent, hd, hminus, hfive, hdot]
  exact ⟨7, [], rfl, trivial⟩

/-- A format that ends behind a number and half a directive. -/
theorem vsprintf_safe_truncated :
    Does vsprintf (formatMemory truncated) ⟨0, [], [7], fun _ => 0, []⟩ fun len t =>
      (∀ i ∈ t.reads, i ≤ truncated.length) ∧ ∃ out, t.str = out ++ [0] ∧ len = out.length :=
  vsprintf_safe (formatMemory_string (by decide)) (truncated_supplied _)

end EgGS
