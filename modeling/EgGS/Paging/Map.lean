import EgGS.Model.Page

/-!
# The page map

A page is found through its slot of the directory and its index in the table of that slot.  The
code keeps only the index when it looks into the window of the tables, and so works on the table
of slot 0 for all pages.  What `page_set` does to another page follows from that.

* `pageSet_maps_iff`: `page_set` maps its page and leaves another page as it was, exactly when
  slot 0 has a table and that table already agrees with what the two pages need.
-/

namespace EgGS

open Lib

/-! ## Indices -/

theorem present_iff (entry : UInt32) : present entry ↔ entry.toNat.testBit 0 := by
  have hone : (entry &&& pagePresent).toNat = entry.toNat % 2 := by
    rw [UInt32.toNat_and, show pagePresent.toNat = 1 from rfl, Nat.and_one_is_mod]
  rw [present, bne_iff_ne, ne_eq, ← UInt32.toNat_inj, hone, Nat.testBit_zero, decide_eq_true_eq]
  change ¬ entry.toNat % 2 = 0 ↔ _
  omega

theorem present_or {entry : UInt32} (h : present entry) (entry' : UInt32) :
    present (entry' ||| entry) := by
  rw [present_iff] at h ⊢
  rw [UInt32.toNat_or, Nat.testBit_or, h, Bool.or_true]

/-- The flags of an entry say whether it is present. -/
theorem present_flags (entry : UInt32) : present (entry &&& pageFlagMask) ↔ present entry := by
  rw [present_iff, present_iff, UInt32.toNat_and, Nat.testBit_and,
    show pageFlagMask.toNat.testBit 0 = true from rfl, Bool.and_true]

theorem dirIdx_eq (vaddr : UInt32) : dirIdx vaddr = vaddr.toNat / 4096 / 1024 := by
  unfold dirIdx
  rw [UInt32.toNat_shiftRight, show (22 : UInt32).toNat % 32 = 22 from rfl,
    Nat.shiftRight_eq_div_pow, Nat.div_div_eq_div_mul]

theorem tableIdx_eq (vaddr : UInt32) : tableIdx vaddr = vaddr.toNat / 4096 % 1024 := by
  unfold tableIdx
  rw [UInt32.toNat_shiftRight, UInt32.toNat_and, show (12 : UInt32).toNat % 32 = 12 from rfl,
    Nat.shiftRight_and_distrib, show pageTableMask.toNat >>> 12 = 2 ^ 10 - 1 from rfl,
    Nat.and_two_pow_sub_one_eq_mod, Nat.shiftRight_eq_div_pow]

/-- The page of an address. -/
theorem pageMask_page (vaddr : UInt32) :
    (vaddr &&& pageMask).toNat / 4096 = vaddr.toNat / 4096 := by
  have hlt : vaddr.toNat / 4096 < 2 ^ 20 := by
    have hv := vaddr.toNat_lt
    omega
  have hshift : ∀ n : ℕ, n / 4096 = n >>> 12 := fun n => by rw [Nat.shiftRight_eq_div_pow]
  rw [UInt32.toNat_and, hshift, Nat.shiftRight_and_distrib,
    show pageMask.toNat >>> 12 = 2 ^ 20 - 1 from rfl, Nat.and_two_pow_sub_one_eq_mod, ← hshift,
    Nat.mod_eq_of_lt hlt]

@[simp] theorem dirIdx_mask (vaddr : UInt32) : dirIdx (vaddr &&& pageMask) = dirIdx vaddr := by
  rw [dirIdx_eq, dirIdx_eq, pageMask_page]

@[simp] theorem tableIdx_mask (vaddr : UInt32) :
    tableIdx (vaddr &&& pageMask) = tableIdx vaddr := by
  rw [tableIdx_eq, tableIdx_eq, pageMask_page]

theorem tableIdx_lt (vaddr : UInt32) : tableIdx vaddr < 1024 := by
  rw [tableIdx_eq]
  exact Nat.mod_lt _ (by omega)

/-- Two addresses lie in one page when they have the same slot and the same index. -/
theorem same_page {v w : UInt32} (hdir : dirIdx v = dirIdx w) (htable : tableIdx v = tableIdx w) :
    v.toNat / 4096 = w.toNat / 4096 := by
  rw [dirIdx_eq, dirIdx_eq] at hdir
  rw [tableIdx_eq, tableIdx_eq] at htable
  omega

/-! ## What the code does -/

/-- The index of a page, which is all the code keeps of it, names a word of the table of slot 0. -/
theorem tableIdx_word (vaddr : UInt32) :
    tableIdx vaddr / 1024 = 0 ∧ tableIdx vaddr % 1024 = tableIdx vaddr := by
  have hlt := tableIdx_lt vaddr
  omega

theorem pageGet_eq (s : Paging) (vaddr : UInt32) :
    pageGet s vaddr =
      if present (s.dir (dirIdx vaddr)) then
        if present (s.dir 0) then
          .ok (if present (s.table 0 (tableIdx vaddr)) then s.table 0 (tableIdx vaddr) else 0)
        else .error (.fault "page fault")
      else .ok 0 := by
  obtain ⟨hslot, hindex⟩ := tableIdx_word vaddr
  have hword : s.getWord (tableIdx vaddr) = if present (s.dir 0) then
      .ok (s.table 0 (tableIdx vaddr)) else .error (.fault "page fault") := by
    simp [Paging.getWord, hslot, hindex]
  unfold pageGet
  simp only [dirIdx_mask, tableIdx_mask, hword]
  by_cases hdir : present (s.dir (dirIdx vaddr))
  · rw [if_pos hdir, if_pos hdir]
    by_cases hzero : present (s.dir 0)
    · rw [if_pos hzero, if_pos hzero]
      by_cases hentry : present (s.table 0 (tableIdx vaddr))
      · simp [hentry, bind, Except.bind]
      · simp [hentry, bind, Except.bind, pure, Except.pure]
    · rw [if_neg hzero, if_neg hzero]
      rfl
  · rw [if_neg hdir, if_neg hdir]
    rfl

/-- The state in front of the write of the entry: with the table of slot 0 cleared if a table had
to be made. -/
def Paging.touched (s : Paging) (frame : Frame) (slot : ℕ) (flags : UInt32) : Paging :=
  if present (s.dir slot) then s
  else
    { dir := Function.update s.dir slot (frame.addr ||| flags)
      table := Function.update (Function.update s.table slot frame.words) 0 fun _ => 0 }

theorem touched_present {s : Paging} {frame : Frame} {slot : ℕ} {flags : UInt32}
    (hflags : present flags) (d : ℕ) :
    present ((s.touched frame slot flags).dir d) ↔ d = slot ∨ present (s.dir d) := by
  unfold Paging.touched
  by_cases hslot : present (s.dir slot)
  · rw [if_pos hslot]
    refine ⟨.inr, fun h => h.elim (fun heq => heq ▸ hslot) id⟩
  · rw [if_neg hslot]
    dsimp only
    by_cases hd : d = slot
    · subst hd
      simp [present_or hflags]
    · simp [hd]

theorem pageTableTouch_eq {s : Paging} {frame : Frame} {vaddr flags : UInt32}
    (hflags : present flags) :
    pageTableTouch frame s vaddr flags =
      if present (s.dir (dirIdx vaddr)) ∨ present (s.dir 0) ∨ dirIdx vaddr = 0 then
        .ok (s.touched frame (dirIdx vaddr) (flags &&& pageFlagMask))
      else .error (.fault "page fault") := by
  obtain ⟨hslot, -⟩ := tableIdx_word vaddr
  unfold pageTableTouch Paging.touched
  simp only [dirIdx_mask, tableIdx_mask, Paging.clearPage, hslot]
  by_cases hdir : present (s.dir (dirIdx vaddr))
  · simp [hdir]
    rfl
  · have hzero : present ((s.install (dirIdx vaddr) frame (flags &&& pageFlagMask)).dir 0) ↔
        present (s.dir 0) ∨ dirIdx vaddr = 0 := by
      unfold Paging.install
      by_cases hd : dirIdx vaddr = 0
      · simp [hd, present_or ((present_flags flags).mpr hflags)]
      · simp [Ne.symm hd, hd]
    simp only [hdir, Bool.not_false, ↓reduceIte, Bool.false_eq_true, false_or, hzero]
    rfl

/-- `page_set` writes its entry into the table of slot 0. -/
theorem pageSet_eq {s : Paging} {frame : Frame} {vaddr value : UInt32} (hvalue : present value) :
    pageSet frame s vaddr value =
      if present (s.dir 0) ∨ dirIdx vaddr = 0 then
        .ok
          { s.touched frame (dirIdx vaddr) (value &&& pageFlagMask) with
            table := Function.update
              (s.touched frame (dirIdx vaddr) (value &&& pageFlagMask)).table 0
              (Function.update ((s.touched frame (dirIdx vaddr) (value &&& pageFlagMask)).table 0)
                (tableIdx vaddr) value) }
      else .error (.fault "page fault") := by
  obtain ⟨hslot, hindex⟩ := tableIdx_word vaddr
  have hflags := (present_flags value).mpr hvalue
  have hmask : value &&& pageFlagMask &&& pageFlagMask = value &&& pageFlagMask := by
    rw [UInt32.and_assoc, UInt32.and_self]
  unfold pageSet
  simp only [pageTableTouch_eq hflags, dirIdx_mask, tableIdx_mask, hmask]
  have hpresent : present ((s.touched frame (dirIdx vaddr) (value &&& pageFlagMask)).dir 0) ↔
      present (s.dir 0) ∨ dirIdx vaddr = 0 := by
    rw [touched_present hflags, or_comm, @eq_comm _ 0 (dirIdx vaddr)]
  have hset : (s.touched frame (dirIdx vaddr) (value &&& pageFlagMask)).setWord
      (tableIdx vaddr) value =
      if present (s.dir 0) ∨ dirIdx vaddr = 0 then
        .ok
          { s.touched frame (dirIdx vaddr) (value &&& pageFlagMask) with
            table := Function.update
              (s.touched frame (dirIdx vaddr) (value &&& pageFlagMask)).table 0
              (Function.update ((s.touched frame (dirIdx vaddr) (value &&& pageFlagMask)).table 0)
                (tableIdx vaddr) value) }
      else .error (.fault "page fault") := by
    simp [Paging.setWord, hslot, hindex, hpresent]
  by_cases hzero : present (s.dir 0) ∨ dirIdx vaddr = 0
  · rw [if_pos (.inr hzero), if_pos hzero]
    rw [if_pos hzero] at hset
    exact hset
  · rw [if_neg hzero]
    rw [if_neg hzero] at hset
    -- slot 0 is not there: the store faults, whether or not the touch had to make a table
    by_cases hdir : present (s.dir (dirIdx vaddr))
    · rw [if_pos (.inl hdir)]
      exact hset
    · rw [if_neg (not_or.mpr ⟨hdir, hzero⟩)]
      rfl

/-! ## Mapping a page -/

/-- `page_set` returns, `page_get` finds the new entry of the page `v`, and finds at `w` what it
found before. -/
def MapsPage (frame : Frame) (s : Paging) (v w value : UInt32) : Prop :=
  ∃ s', pageSet frame s v value = .ok s' ∧ pageGet s' v = .ok value ∧ pageGet s' w = pageGet s w

/-- Slot 0 has a table, or gets it now.  Where `w` is in another slot that has a table, the entry
that `page_get` finds at its index in the table of slot 0 is not changed: it is the new entry
already, or it is another one, and is not cleared or was not present. -/
def SharesTable (s : Paging) (v w value : UInt32) : Prop :=
  (present (s.dir 0) ∨ dirIdx v = 0) ∧
    (dirIdx w = dirIdx v ∨ ¬ present (s.dir (dirIdx w)) ∨
      present (s.dir 0) ∧
        if tableIdx w = tableIdx v then s.table 0 (tableIdx v) = value
        else present (s.dir (dirIdx v)) ∨ ¬ present (s.table 0 (tableIdx w)))

/-- The table of slot 0 behind `page_set`. -/
theorem touched_table {s : Paging} {frame : Frame} {slot : ℕ} {flags : UInt32} (j : ℕ) :
    (s.touched frame slot flags).table 0 j = if present (s.dir slot) then s.table 0 j else 0 := by
  unfold Paging.touched
  by_cases hslot : present (s.dir slot)
  · rw [if_pos hslot, if_pos hslot]
  · rw [if_neg hslot, if_neg hslot]
    simp

/-- What `page_get` finds behind `page_set`. -/
theorem pageGet_pageSet {s s' : Paging} {frame : Frame} {v value : UInt32} (hvalue : present value)
    (hset : pageSet frame s v value = .ok s') (w : UInt32) :
    pageGet s' w =
      if dirIdx w = dirIdx v ∨ present (s.dir (dirIdx w)) then
        if tableIdx w = tableIdx v then .ok value
        else if present (s.dir (dirIdx v)) ∧ present (s.table 0 (tableIdx w)) then
          .ok (s.table 0 (tableIdx w))
        else .ok 0
      else .ok 0 := by
  have hflags := (present_flags value).mpr hvalue
  rw [pageSet_eq hvalue] at hset
  by_cases hzero : present (s.dir 0) ∨ dirIdx v = 0
  · rw [if_pos hzero] at hset
    obtain rfl := Except.ok.inj hset
    have hdir : ∀ d, present ((s.touched frame (dirIdx v) (value &&& pageFlagMask)).dir d) ↔
        d = dirIdx v ∨ present (s.dir d) := touched_present hflags
    have hslot : present ((s.touched frame (dirIdx v) (value &&& pageFlagMask)).dir 0) :=
      (hdir 0).mpr (hzero.symm.imp Eq.symm id)
    rw [pageGet_eq]
    simp only [hdir, hslot, if_true, Function.update_self]
    by_cases hw : dirIdx w = dirIdx v ∨ present (s.dir (dirIdx w))
    · rw [if_pos hw, if_pos hw]
      by_cases hindex : tableIdx w = tableIdx v
      · rw [hindex, Function.update_self, if_pos hvalue, if_pos rfl]
      · rw [Function.update_of_ne hindex, if_neg hindex, touched_table]
        by_cases hv : present (s.dir (dirIdx v))
        · by_cases hentry : present (s.table 0 (tableIdx w))
          · simp [hv, hentry]
          · simp [hv, hentry]
        · simp [hv]
    · rw [if_neg hw, if_neg hw]
  · rw [if_neg hzero] at hset
    cases hset

theorem ne_zero_of_present {entry : UInt32} (h : present entry) : entry ≠ 0 := by
  rintro rfl
  exact absurd h (by decide)

/-- `page_set` returns exactly when slot 0 has a table, or gets it now. -/
theorem pageSet_returns_iff {frame : Frame} {s : Paging} {v value : UInt32}
    (hvalue : present value) :
    (∃ s', pageSet frame s v value = .ok s') ↔ present (s.dir 0) ∨ dirIdx v = 0 := by
  rw [pageSet_eq hvalue]
  by_cases hzero : present (s.dir 0) ∨ dirIdx v = 0
  · rw [if_pos hzero]
    exact ⟨fun _ => hzero, fun _ => ⟨_, rfl⟩⟩
  · rw [if_neg hzero]
    refine ⟨?_, fun h => absurd h hzero⟩
    rintro ⟨s', h⟩
    cases h

/-- What `page_set` does to another page. -/
theorem pageGet_same_iff {frame : Frame} {s s' : Paging} {v w value : UInt32}
    (hvalue : present value) (hindices : dirIdx w = dirIdx v → tableIdx w ≠ tableIdx v)
    (hset : pageSet frame s v value = .ok s') :
    pageGet s' w = pageGet s w ↔
      dirIdx w = dirIdx v ∨ ¬ present (s.dir (dirIdx w)) ∨
        present (s.dir 0) ∧
          if tableIdx w = tableIdx v then s.table 0 (tableIdx v) = value
          else present (s.dir (dirIdx v)) ∨ ¬ present (s.table 0 (tableIdx w)) := by
  have hzero := (pageSet_returns_iff hvalue).mp ⟨s', hset⟩
  rw [pageGet_pageSet hvalue hset, pageGet_eq]
  by_cases hdir : dirIdx w = dirIdx v
  · -- the page of `w` is in the same slot: a new table is empty there
    have hindex := hindices hdir
    have hslot : present (s.dir (dirIdx v)) → present (s.dir 0) := fun h =>
      hzero.elim id fun hv => hv ▸ h
    rw [if_pos (.inl hdir), if_neg hindex, hdir]
    refine ⟨fun _ => .inl rfl, fun _ => ?_⟩
    by_cases hv : present (s.dir (dirIdx v))
    · by_cases hentry : present (s.table 0 (tableIdx w))
      · simp [hv, hentry, hslot hv]
      · simp [hv, hentry, hslot hv]
    · simp [hv]
  · -- another slot of the directory: what is read there goes through the table of slot 0
    by_cases hw : present (s.dir (dirIdx w))
    · rw [if_pos (.inr hw), if_pos hw]
      by_cases hfirst : present (s.dir 0)
      · rw [if_pos hfirst]
        -- the entry that was written, or another one of the same table
        by_cases hindex : tableIdx w = tableIdx v
        · rw [if_pos hindex, if_pos hindex, hindex]
          by_cases hentry : present (s.table 0 (tableIdx v))
          · simp [hdir, hw, hfirst, hentry, eq_comm]
          · have hne : s.table 0 (tableIdx v) ≠ value := fun h => hentry (h ▸ hvalue)
            simp [hdir, hw, hfirst, hentry, hne, ne_zero_of_present hvalue]
        · rw [if_neg hindex, if_neg hindex]
          by_cases hv : present (s.dir (dirIdx v))
          · by_cases hentry : present (s.table 0 (tableIdx w))
            · simp [hv, hentry, hfirst]
            · simp [hv, hentry, hfirst]
          · by_cases hentry : present (s.table 0 (tableIdx w))
            · simp [hv, hentry, hfirst, hdir, hw, (ne_zero_of_present hentry).symm]
            · simp [hv, hentry, hfirst]
      · rw [if_neg hfirst]
        simp only [hdir, hw, hfirst]
        split_ifs <;> simp
    · rw [if_neg (not_or.mpr ⟨hdir, hw⟩), if_neg hw]
      exact ⟨fun _ => .inr (.inl hw), fun _ => rfl⟩

/-- **Mapping a page**: the page is mapped and another one is left as it was, exactly when the
table of slot 0, which the code uses for both, agrees with that. -/
theorem pageSet_maps_iff {frame : Frame} {s : Paging} {v w value : UInt32} (hvalue : present value)
    (hpages : v.toNat / 4096 ≠ w.toNat / 4096) :
    MapsPage frame s v w value ↔ SharesTable s v w value := by
  have hindices : dirIdx w = dirIdx v → tableIdx w ≠ tableIdx v := fun hdir htable =>
    hpages (same_page hdir htable).symm
  constructor
  · rintro ⟨s', hset, -, hget⟩
    exact ⟨(pageSet_returns_iff hvalue).mp ⟨s', hset⟩,
      (pageGet_same_iff hvalue hindices hset).mp hget⟩
  · rintro ⟨hzero, hshares⟩
    obtain ⟨s', hset⟩ := (pageSet_returns_iff hvalue).mpr hzero
    refine ⟨s', hset, ?_, (pageGet_same_iff hvalue hindices hset).mpr hshares⟩
    rw [pageGet_pageSet hvalue hset, if_pos (.inl rfl), if_pos rfl]

/-- The page map of `start.s`: slot 0 maps the first 1024 pages to themselves, and the last slot
holds the directory. -/
def startPaging : Paging where
  dir := fun slot => if slot = 0 then 0x00102003 else if slot = 1023 then 0x00101003 else 0
  table := fun _ j => UInt32.ofNat (j * 4096 + 3)

/-- A frame with nothing but zeros. -/
def zeroFrame : Frame := ⟨0x00200000, fun _ => 0⟩

/-- Mapping a page of slot 0 to itself again. -/
theorem pageSet_maps_iff_start :
    present 0x00005003 ∧ (0x00005000 : UInt32).toNat / 4096 ≠ (0x00007000 : UInt32).toNat / 4096 ∧
      (MapsPage zeroFrame startPaging 0x00005000 0x00007000 0x00005003 ↔
        SharesTable startPaging 0x00005000 0x00007000 0x00005003) :=
  ⟨by decide, by decide, pageSet_maps_iff (by decide) (by decide)⟩

/-- Mapping the first page of slot 1 makes a table for it, and unmaps the pages of slot 0. -/
theorem pageSet_unmaps :
    (pageGet startPaging 0x00001000).toOption = some 0x00001003 ∧
      ((pageSet zeroFrame startPaging 0x00400000 0x00400003).bind
        (pageGet · 0x00001000)).toOption = some 0 ∧
      ¬ MapsPage zeroFrame startPaging 0x00400000 0x00001000 0x00400003 := by
  have hbefore : (pageGet startPaging 0x00001000).toOption = some 0x00001003 := by decide
  have hbehind : ((pageSet zeroFrame startPaging 0x00400000 0x00400003).bind
      (pageGet · 0x00001000)).toOption = some 0 := by decide
  refine ⟨hbefore, hbehind, ?_⟩
  rintro ⟨s', hset, -, hget⟩
  rw [hset, Except.bind, hget, hbefore] at hbehind
  exact absurd hbehind (by decide)

end EgGS
