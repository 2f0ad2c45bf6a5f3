import EgGS.Fs.Interrupts
import EgGS.Lib.Bits

/-!
# Numbers from the bitmaps

The zone bitmap and the inode bitmap of a mounted device are strings of bits in the buffers
that `s_zmap` and `s_imap` hold.  `Sys.bitmap` is such a string, with no bit where a buffer
is missing.  The scan of `add_zone_bitmap` and `add_inode_bitmap` settles on its first zero.

Bit `m` of the zone bitmap stands for zone `m - 1 + s_firstdatazone`.  `add_zone_bitmap`
compares this with `s_nzones` by `>` where `free_zone_bitmap` compares by `>=`: the zone
behind the last one is handed out when its bit is the first zero, and cannot be given back.

* `zone_allocator`: this, and zone 0, is all that is wrong with zone numbers.
* `inode_allocator`: inode numbers are allocated and freed as they should be.
-/

namespace EgGS

open Lib Prog

variable {n : ℕ} {env : Env n} {k : ℕ} {s s' t : Sys n} {dev : ℕ} {sb : Fin nrSuper}
variable {data : Block} {i j m blocks : ℕ} {map : Fin mapSlots → Option (Fin n)} {bh : Fin n}

/-! ## The bits of a block -/

theorem Block.setBit_bit (hi : i < 8192) (hj : j < 8192) :
    (data.setBit j).bit i = (data.bit i || decide (i = j)) := by
  have hbyte : ∀ x, x < 8192 → x / 8 % 1024 = x / 8 := fun x _ => by omega
  have hlow := Nat.mod_lt j (by decide : 0 < 8)
  by_cases hij : i / 8 = j / 8
  · have hmask : decide (j % 8 = i % 8) = decide (i = j) := decide_eq_decide.mpr (by omega)
    simp only [Block.bit, Block.setBit, hbyte j hj, hij, Function.update_self]
    rw [← bitMask, set_testBit _ hlow, hmask]
  · have hne : i ≠ j := fun heq => hij (by rw [heq])
    simp [Block.bit, Block.setBit, hbyte i hi, hbyte j hj, hij, hne]

theorem Block.clearBit_bit (hi : i < 8192) (hj : j < 8192) :
    (data.clearBit j).bit i = (data.bit i && !decide (i = j)) := by
  have hbyte : ∀ x, x < 8192 → x / 8 % 1024 = x / 8 := fun x _ => by omega
  have hlow := Nat.mod_lt j (by decide : 0 < 8)
  have hlow' := Nat.mod_lt i (by decide : 0 < 8)
  by_cases hij : i / 8 = j / 8
  · have hmask : decide (j % 8 = i % 8) = decide (i = j) := decide_eq_decide.mpr (by omega)
    simp only [Block.bit, Block.clearBit, hbyte j hj, hij, Function.update_self]
    rw [← bitMask, clear_testBit _ hlow hlow', hmask]
  · have hne : i ≠ j := fun heq => hij (by rw [heq])
    simp [Block.bit, Block.clearBit, hbyte i hi, hbyte j hj, hij, hne]

/-- `find_first_zero` finds the first zero. -/
theorem findFirstZero_least (h : findFirstZero data < 8192) :
    IsLeast {i | i < 8192 ∧ data.bit i = false} (findFirstZero data) := by
  unfold findFirstZero at h ⊢
  cases hsearch : (List.range 256).findSome? fun w =>
      ((List.range 32).find? fun j => !data.bit (32 * w + j)).map (32 * w + ·) with
  | none => simp [hsearch] at h
  | some b =>
      have hleast := chunks_first (p := fun i => !data.bit i) (by decide) hsearch
      simpa using hleast

theorem findFirstZero_none (h : ¬ findFirstZero data < 8192) (hi : i < 8192) :
    data.bit i = true := by
  unfold findFirstZero at h
  cases hsearch : (List.range 256).findSome? fun w =>
      ((List.range 32).find? fun j => !data.bit (32 * w + j)).map (32 * w + ·) with
  | none => simpa using chunks_none (p := fun i => !data.bit i) (by decide) hsearch i hi
  | some b =>
      have hleast := chunks_first (p := fun i => !data.bit i) (by decide) hsearch
      rw [hsearch] at h
      exact absurd hleast.1.1 h

/-! ## The bits of a map -/

/-- Bit `m` of the bitmap in the buffers of the first `blocks` slots, if there is one. -/
def Sys.bitmap (s : Sys n) (map : Fin mapSlots → Option (Fin n)) (blocks m : ℕ) : Option Bool :=
  if h : m / 8192 < blocks ∧ m / 8192 < mapSlots then
    (map ⟨m / 8192, h.2⟩).map fun bh => (s.buf bh).bData.bit (m % 8192)
  else none

theorem Sys.bitmap_congr (hdata : ∀ b, (s'.buf b).bData = (s.buf b).bData) :
    s'.bitmap map blocks = s.bitmap map blocks := by
  funext m
  simp only [Sys.bitmap, hdata]

/-- Bit `j` in slot `i`. -/
theorem Sys.bitmap_slot (hi : i < mapSlots) (hblocks : i < blocks) (hmap : map ⟨i, hi⟩ = some bh)
    (hj : j < 8192) : s.bitmap map blocks (8192 * i + j) = some ((s.buf bh).bData.bit j) := by
  have hdiv : (8192 * i + j) / 8192 = i := by omega
  have hmod : (8192 * i + j) % 8192 = j := by omega
  have hin : (8192 * i + j) / 8192 < blocks ∧ (8192 * i + j) / 8192 < mapSlots := by
    rw [hdiv]
    exact ⟨hblocks, hi⟩
  rw [Sys.bitmap, dif_pos hin, hmod]
  have hslot : (⟨(8192 * i + j) / 8192, hin.2⟩ : Fin mapSlots) = ⟨i, hi⟩ := Fin.ext hdiv
  rw [hslot, hmap]
  rfl

theorem Sys.bitmap_some {v : Bool} (h : s.bitmap map blocks m = some v) :
    ∃ hi : m / 8192 < mapSlots, m / 8192 < blocks ∧ ∃ bh, map ⟨m / 8192, hi⟩ = some bh ∧
      (s.buf bh).bData.bit (m % 8192) = v := by
  unfold Sys.bitmap at h
  split at h
  · rename_i hin
    obtain ⟨bh, hmap, hbit⟩ := Option.map_eq_some_iff.mp h
    exact ⟨hin.2, hin.1, bh, hmap, hbit⟩
  · exact absurd h (by simp)

/-- One bit in the buffer of one slot is assigned. -/
theorem Sys.bitmap_store {v : Bool} {data' : Block}
    (hown : ∀ i j b, map i = some b → map j = some b → i = j)
    (hi : i < mapSlots) (hblocks : i < blocks) (hmap : map ⟨i, hi⟩ = some bh) (hj : j < 8192)
    (hbit : ∀ x < 8192, data'.bit x = if x = j then v else (s.buf bh).bData.bit x) :
    (store bh data' s).bitmap map blocks =
      Function.update (s.bitmap map blocks) (8192 * i + j) (some v) := by
  funext m
  have hlow := Nat.mod_lt m (by decide : 0 < 8192)
  by_cases hm : m = 8192 * i + j
  · subst hm
    rw [Function.update_self, Sys.bitmap_slot hi hblocks hmap hj]
    simp [store, hbit j hj]
  · rw [Function.update_of_ne hm]
    unfold Sys.bitmap
    split
    · rename_i hin
      cases hslot : map ⟨m / 8192, hin.2⟩ with
      | none => rfl
      | some c =>
          by_cases hc : c = bh
          · subst hc
            have hsame : m / 8192 = i := congrArg Fin.val (hown _ _ c hslot hmap)
            have hne : m % 8192 ≠ j := by omega
            simp [store, hbit _ hlow, hne]
          · simp [store, hc]
    · rfl

/-! ## Scanning a map -/

/-- What the scan of the maps settles on: the first zero, if there is one. -/
inductive Scanned (s : Sys n) (map : Fin mapSlots → Option (Fin n)) (blocks : ℕ) :
    Option (ℕ × Fin n × ℕ) → Prop
  | none : (∀ m, s.bitmap map blocks m ≠ some false) → Scanned s map blocks none
  | some {i j : ℕ} {bh : Fin n} (hi : i < mapSlots) : i < blocks → map ⟨i, hi⟩ = some bh →
      j < 8192 → IsLeast {m | s.bitmap map blocks m = some false} (8192 * i + j) →
      Scanned s map blocks (some (i, bh, j))

/-- No slot before `i` has a zero. -/
def Sys.Full (s : Sys n) (map : Fin mapSlots → Option (Fin n)) (blocks i : ℕ) : Prop :=
  ∀ m < 8192 * i, s.bitmap map blocks m ≠ some false

theorem Sys.Full.next (h : s.Full map blocks i) (hi : i < mapSlots)
    (hslot : ∀ bh, map ⟨i, hi⟩ = some bh → ∀ j < 8192, (s.buf bh).bData.bit j = true) :
    s.Full map blocks (i + 1) := by
  intro m hm hzero
  by_cases hlow : m < 8192 * i
  · exact h m hlow hzero
  · obtain ⟨hi', -, bh, hmap, hbit⟩ := Sys.bitmap_some hzero
    have hdiv : m / 8192 = i := by omega
    have hsame : (⟨m / 8192, hi'⟩ : Fin mapSlots) = ⟨i, hi⟩ := Fin.ext hdiv
    have hset := hslot bh (hsame ▸ hmap) (m % 8192) (Nat.mod_lt m (by decide))
    exact absurd (hset.symm.trans hbit) (by decide)

/-- The scan from slot `i` on, where the slots before it are full. -/
theorem scanMaps_from (env : Env n) (s : Sys n) (map : Fin mapSlots → Option (Fin n))
    (hfits : blocks ≤ mapSlots) : ∀ d i, i + d = blocks → s.Full map blocks i →
    ∃ found, LoopEnds (fun i => do
      let s ← Prog.read
      if i < blocks then
        if h : i < mapSlots then
          match map ⟨i, h⟩ with
          | none => pure (.inl (i + 1))
          | some bh =>
            if findFirstZero (s.buf bh).bData < 8192 then
              pure (.inr (some (i, bh, findFirstZero (s.buf bh).bData)))
            else
              pure (.inl (i + 1))
        else
          Prog.halt (.fault "bitmap slot out of range")
      else
        pure (.inr none)) env i s (.ok found s) ∧ Scanned s map blocks found := by
  intro d
  -- on the number of slots that are left; all bits before slot `i` are set
  induction d with
  | zero =>
      rintro i rfl hfull
      refine ⟨none, .done (.of_eq fun k => by simp), .none fun m hzero => ?_⟩
      obtain ⟨-, hin, -⟩ := Sys.bitmap_some hzero
      exact hfull m (by omega) hzero
  | succ d ih =>
      intro i hi hfull
      have hblocks : i < blocks := by omega
      have hslots : i < mapSlots := by omega
      cases hmap : map ⟨i, hslots⟩ with
      | none =>
          obtain ⟨found, hends, hscan⟩ := ih (i + 1) (by omega)
            (hfull.next hslots fun bh hbh => absurd (hmap.symm.trans hbh) (by simp))
          exact ⟨found, .step (.of_eq fun k => by simp [hblocks, hslots, hmap]) hends, hscan⟩
      | some bh =>
          -- the block has a clear bit, the first of all; otherwise the next slot is looked at
          by_cases hzero : findFirstZero (s.buf bh).bData < 8192
          · have hleast := findFirstZero_least hzero
            refine ⟨some (i, bh, findFirstZero (s.buf bh).bData),
              .done (.of_eq fun k => by simp [hblocks, hslots, hmap, hzero]),
              .some hslots hblocks hmap hzero ⟨?_, fun m hm => ?_⟩⟩
            · rw [Set.mem_ofPred_eq, Sys.bitmap_slot hslots hblocks hmap hzero, hleast.1.2]
            · by_contra hlt
              obtain ⟨hi', -, c, hc, hbit⟩ := Sys.bitmap_some hm
              have hge : ¬ m < 8192 * i := fun hlow => hfull m hlow hm
              have hsame : (⟨m / 8192, hi'⟩ : Fin mapSlots) = ⟨i, hslots⟩ := Fin.ext (by
                show m / 8192 = i
                omega)
              obtain rfl : bh = c := Option.some.inj (hmap.symm.trans (hsame ▸ hc))
              have hle := hleast.2 ⟨Nat.mod_lt m (by decide), hbit⟩
              omega
          · obtain ⟨found, hends, hscan⟩ := ih (i + 1) (by omega)
              (hfull.next hslots fun c hc j hj => by
                obtain rfl : bh = c := Option.some.inj (hmap.symm.trans hc)
                exact findFirstZero_none hzero hj)
            exact ⟨found, .step (.of_eq fun k => by simp [hblocks, hslots, hmap, hzero]) hends,
              hscan⟩

/-- **The scan ends with the first zero.** -/
theorem scanMaps_evals (env : Env n) (s : Sys n) (map : Fin mapSlots → Option (Fin n))
    (hfits : blocks ≤ mapSlots) :
    ∃ found, Evals (scanMaps map blocks) env s found s ∧ Scanned s map blocks found := by
  obtain ⟨found, hends, hscan⟩ :=
    scanMaps_from env s map hfits blocks 0 (Nat.zero_add _) fun m hm => absurd hm (by simp)
  exact ⟨found, hends.evals, hscan⟩

/-! ## Mounted devices -/

/-- The super block `sb` is the one of the device `dev`: nobody has it locked, its bitmaps fit
into their slots, and no buffer is in two slots of one map. -/
structure Mounted (s : Sys n) (dev : ℕ) (sb : Fin nrSuper) : Prop where
  device : dev ≠ 0
  super : FirstSuper s dev sb
  lock : (s.superBlock sb).sLock = false
  imapBlocks : (s.superBlock sb).sImapBlocks ≤ mapSlots
  zmapBlocks : (s.superBlock sb).sZmapBlocks ≤ mapSlots
  imapOwn : ∀ i j b, (s.superBlock sb).sImap i = some b → (s.superBlock sb).sImap j = some b → i = j
  zmapOwn : ∀ i j b, (s.superBlock sb).sZmap i = some b → (s.superBlock sb).sZmap j = some b → i = j
  short : (s.superBlock sb).sNzones < 65536

theorem Mounted.congr (h : Mounted s dev sb) (hsuper : s'.superBlock = s.superBlock) :
    Mounted s' dev sb := by
  obtain ⟨hdev, ⟨hsdev, hfirst⟩, hlock, himap, hzmap, himapOwn, hzmapOwn, hshort⟩ := h
  refine ⟨hdev, ⟨?_, ?_⟩, ?_, ?_, ?_, ?_, ?_, ?_⟩ <;> rw [hsuper] <;> assumption

/-- The super block of a mounted device is found. -/
theorem Mounted.findSuper (h : Mounted s dev sb) :
    Evals (findSuper dev) env s (some sb) (s.setIntr false) :=
  h.super.findSuper_evals h.device h.lock

/-! ## Taking a number and giving it back -/

theorem markBit_evals {message : String} (hclear : (s.buf bh).bData.bit j = false) :
    Evals (markBit bh j message) env s () (store bh ((s.buf bh).bData.setBit j) s) :=
  .of_eq fun _ => by simp [markBit, hclear]

section Map

variable (hown : ∀ i j b, map i = some b → map j = some b → i = j) (hi : i < mapSlots)
  (hblocks : i < blocks) (hmap : map ⟨i, hi⟩ = some bh) (hj : j < 8192)

include hown hblocks hmap hj

theorem Sys.bitmap_mark : (store bh ((s.buf bh).bData.setBit j) s).bitmap map blocks =
    Function.update (s.bitmap map blocks) (8192 * i + j) (some true) := by
  refine Sys.bitmap_store hown hi hblocks hmap hj fun x hx => ?_
  rw [Block.setBit_bit hx hj]
  by_cases hxj : x = j <;> simp [hxj]

theorem Sys.bitmap_unmark : (store bh ((s.buf bh).bData.clearBit j) s).bitmap map blocks =
    Function.update (s.bitmap map blocks) (8192 * i + j) (some false) := by
  refine Sys.bitmap_store hown hi hblocks hmap hj fun x hx => ?_
  rw [Block.clearBit_bit hx hj]
  by_cases hxj : x = j <;> simp [hxj]

end Map

/-- Bit `j` of a block becomes `v`. -/
def Block.putBit (data : Block) (j : ℕ) (v : Bool) : Block :=
  if v then data.setBit j else data.clearBit j

/-- Bit `m` of a map becomes `v`: the super block was found, and the buffer with the bit is
changed. -/
inductive MapWritten (s : Sys n) (map : Fin mapSlots → Option (Fin n)) (m : ℕ) (v : Bool) :
    Sys n → Prop
  | intro {bh : Fin n} (hi : m / 8192 < mapSlots) : map ⟨m / 8192, hi⟩ = some bh →
      MapWritten s map m v (store bh ((s.buf bh).bData.putBit (m % 8192) v) (s.setIntr false))

theorem MapWritten.of_slot {v : Bool} (hi : i < mapSlots) (hmap : map ⟨i, hi⟩ = some bh)
    (hj : j < 8192) : MapWritten s map (8192 * i + j) v
      (store bh ((s.buf bh).bData.putBit j v) (s.setIntr false)) := by
  have hdiv : (8192 * i + j) / 8192 = i := by omega
  have hmod : (8192 * i + j) % 8192 = j := by omega
  have hi' : (8192 * i + j) / 8192 < mapSlots := by omega
  have hslot : (⟨(8192 * i + j) / 8192, hi'⟩ : Fin mapSlots) = ⟨i, hi⟩ := Fin.ext hdiv
  have hwritten : MapWritten s map (8192 * i + j) v _ := .intro hi' (hslot ▸ hmap)
  rwa [hmod] at hwritten

/-! ## Zones -/

/-- The zone bitmap of the super block `sb`. -/
def Sys.zmap (s : Sys n) (sb : Fin nrSuper) : ℕ → Option Bool :=
  s.bitmap (s.superBlock sb).sZmap (s.superBlock sb).sZmapBlocks

/-- `z` is a data zone of the device. -/
def SuperBlock.DataZone (p : SuperBlock n) (z : ℕ) : Prop := p.sFirstdatazone ≤ z ∧ z < p.sNzones

/-- The bit of zone `z` in the zone bitmap. -/
def SuperBlock.zoneBit (p : SuperBlock n) (z : ℕ) : ℕ := z + 1 - p.sFirstdatazone

/-- The zone of bit `m` of the zone bitmap. -/
def SuperBlock.bitZone (p : SuperBlock n) (m : ℕ) : ℕ := m - 1 + p.sFirstdatazone

/-- The first zero of the zone bitmap is bit `m`. -/
def Sys.FreeZoneBit (s : Sys n) (sb : Fin nrSuper) (m : ℕ) : Prop :=
  IsLeast {m | s.zmap sb m = some false} m

/-- Bit `m` of the zone bitmap is set, and nothing else happens to the bitmap. -/
structure ZoneMarked (s : Sys n) (sb : Fin nrSuper) (m : ℕ) (v : Bool) (s' : Sys n) : Prop where
  super : s'.superBlock = s.superBlock
  zmap : s'.zmap sb = Function.update (s.zmap sb) m (some v)

/-- What `add_zone_bitmap` does: it takes the zone of the first zero, unless there is none or
its zone is far behind the last one. -/
inductive ZoneAdded (env : Env n) (dev : ℕ) (sb : Fin nrSuper) (s : Sys n) : ℕ → Sys n → Prop
  | full : (∀ m, s.zmap sb m ≠ some false) → ZoneAdded env dev sb s 0 (s.setIntr false)
  | behind {m : ℕ} : s.FreeZoneBit sb m → (s.superBlock sb).sNzones < (s.superBlock sb).bitZone m →
      ZoneAdded env dev sb s 0 (s.setIntr false)
  | added {m : ℕ} {s' : Sys n} : s.FreeZoneBit sb m →
      (s.superBlock sb).bitZone m ≤ (s.superBlock sb).sNzones → ZoneMarked s sb m true s' →
      ZoneAdded env dev sb s ((s.superBlock sb).bitZone m) s'

/-- Bit 0 is set, so that every zero is the bit of a zone. -/
theorem Sys.FreeZoneBit.pos (h : s.FreeZoneBit sb m) (hzero : s.zmap sb 0 = some true) : 1 ≤ m := by
  rcases Nat.eq_zero_or_pos m with rfl | hpos
  · have hclear : s.zmap sb 0 = some false := h.1
    exact absurd (hzero.symm.trans hclear) (by decide)
  · exact hpos

/-- **`add_zone_bitmap` returns.** -/
theorem Mounted.addZoneBitmap (env : Env n) (h : Mounted s dev sb)
    (hzero : s.zmap sb 0 = some true) :
    ∃ z s', Evals (addZoneBitmap dev) env s z s' ∧ ZoneAdded env dev sb s z s' ∧
      ∀ m, s.FreeZoneBit sb m → (s.superBlock sb).bitZone m ≤ (s.superBlock sb).sNzones →
        MapWritten s (s.superBlock sb).sZmap m true s' := by
  obtain ⟨found, hscan, hscanned⟩ := scanMaps_evals env (s.setIntr false)
    (s.superBlock sb).sZmap h.zmapBlocks
  have hsame : (s.setIntr false).bitmap (s.superBlock sb).sZmap (s.superBlock sb).sZmapBlocks =
      s.zmap sb := Sys.bitmap_congr fun _ => rfl
  -- as in `add_inode_bitmap`, but the zone of the bit is compared with the number of zones
  cases hscanned with
  | none hfull =>
      rw [hsame] at hfull
      exact ⟨0, _, h.findSuper.bind (hscan.bind (.of_eq fun _ => rfl)), .full hfull,
        fun m hm => absurd hm.1 (hfull m)⟩
  | @some i j bh hi hblocks hmap hj hleast =>
      rw [hsame] at hleast
      have hfree : s.FreeZoneBit sb (8192 * i + j) := hleast
      have hpos := hfree.pos hzero
      have hzone : ((j + i * 8192 : ℤ) - 1 + ((s.superBlock sb).sFirstdatazone : ℤ)) =
          ((s.superBlock sb).bitZone (8192 * i + j) : ℕ) := by
        unfold SuperBlock.bitZone
        omega
      -- the bit lies behind the last zone: 0 is returned, and no bit is set
      by_cases hbehind : (s.superBlock sb).sNzones < (s.superBlock sb).bitZone (8192 * i + j)
      · refine ⟨0, _, h.findSuper.bind (hscan.bind (.of_eq fun _ => ?_)), .behind hfree hbehind,
          fun m hm hle => ?_⟩
        swap
        · obtain rfl : 8192 * i + j = m := hfree.unique hm
          omega
        dsimp only
        rw [Sys.setIntr_superBlock, hzone, if_pos (by exact_mod_cast hbehind)]
        rfl
      · have hclear : ((s.setIntr false).buf bh).bData.bit j = false := by
          have hbit : s.zmap sb (8192 * i + j) = some false := hfree.1
          rw [Sys.zmap, Sys.bitmap_slot hi hblocks hmap hj, Option.some.injEq] at hbit
          exact hbit
        have hmark := Sys.bitmap_mark (s := s.setIntr false) h.zmapOwn hi hblocks hmap hj
        rw [hsame] at hmark
        have hshort := h.short
        have hz : unsigned (((s.superBlock sb).bitZone (8192 * i + j) : ℕ) : ℤ) =
            (s.superBlock sb).bitZone (8192 * i + j) := by
          unfold unsigned
          omega
        refine ⟨_, store bh (((s.setIntr false).buf bh).bData.setBit j) (s.setIntr false),
          h.findSuper.bind (hscan.bind ?_), .added hfree (not_lt.mp hbehind) ⟨rfl, hmark⟩,
          fun m hm _ => ?_⟩
        swap
        · obtain rfl : 8192 * i + j = m := hfree.unique hm
          exact .of_slot hi hmap hj
        dsimp only
        rw [Sys.setIntr_superBlock, hzone, hz, if_neg (by exact_mod_cast hbehind)]
        exact (markBit_evals hclear).bind (.of_eq fun _ => rfl)

/-- `free_zone_bitmap` clears the bit of a data zone. -/
theorem Mounted.freeZoneBitmap (env : Env n) {z : ℕ} {v : Bool} (h : Mounted s dev sb)
    (hdata : (s.superBlock sb).DataZone z)
    (hbit : s.zmap sb ((s.superBlock sb).zoneBit z) = some v) :
    ∃ s', Evals (freeZoneBitmap dev z) env s () s' ∧
      ZoneMarked s sb ((s.superBlock sb).zoneBit z) false s' ∧
      MapWritten s (s.superBlock sb).sZmap ((s.superBlock sb).zoneBit z) false s' := by
  obtain ⟨hi, hblocks, bh, hmap, -⟩ := Sys.bitmap_some hbit
  have hlow := Nat.mod_lt ((s.superBlock sb).zoneBit z) (by decide : 0 < 8192)
  have hsame : (s.setIntr false).bitmap (s.superBlock sb).sZmap (s.superBlock sb).sZmapBlocks =
      s.zmap sb := Sys.bitmap_congr fun _ => rfl
  have hunmark := Sys.bitmap_unmark (s := s.setIntr false) h.zmapOwn hi hblocks hmap hlow
  rw [hsame, Nat.div_add_mod] at hunmark
  refine ⟨store bh (((s.setIntr false).buf bh).bData.clearBit
    ((s.superBlock sb).zoneBit z % 8192)) (s.setIntr false), h.findSuper.bind ?_, ⟨rfl, hunmark⟩,
    .intro hi hmap⟩
  have hnumber : z - (s.superBlock sb).sFirstdatazone + 1 = (s.superBlock sb).zoneBit z := by
    have hge := hdata.1
    unfold SuperBlock.zoneBit
    omega
  have hin : ¬ (z < (s.superBlock sb).sFirstdatazone ∨ z ≥ (s.superBlock sb).sNzones) := by
    have hge := hdata.1
    have hlt := hdata.2
    omega
  refine .of_eq fun k => ?_
  simp only [read_bind, Sys.setIntr_superBlock, hnumber, if_neg hin, dif_pos hi, hmap]
  rfl

/-- The zone `z` was free, is the only one that was taken, and can be given back. -/
structure ZoneTaken (env : Env n) (dev : ℕ) (sb : Fin nrSuper) (s : Sys n) (z : ℕ) (s' : Sys n) :
    Prop where
  zone : (s.superBlock sb).DataZone z
  was : s.zmap sb ((s.superBlock sb).zoneBit z) = some false
  now : s'.zmap sb = Function.update (s.zmap sb) ((s.superBlock sb).zoneBit z) (some true)
  back : ∃ t, Evals (freeZoneBitmap dev z) env s' () t ∧ t.zmap sb = s.zmap sb

/-- `add_zone_bitmap` takes a free data zone, and returns 0 and changes nothing exactly if
there is none. -/
def ZoneAllocator (env : Env n) (dev : ℕ) (sb : Fin nrSuper) (s : Sys n) : Prop :=
  ∃ z s', Evals (addZoneBitmap dev) env s z s' ∧ (z ≠ 0 → ZoneTaken env dev sb s z s') ∧
    (z = 0 → s' = s.setIntr false) ∧
    (z = 0 ↔ ∀ y, (s.superBlock sb).DataZone y →
      s.zmap sb ((s.superBlock sb).zoneBit y) ≠ some false)

/-- A zone that was taken inside the range can be given back. -/
theorem ZoneAdded.taken (env : Env n) (h : Mounted s dev sb) (hzero : s.zmap sb 0 = some true)
    (hfree : s.FreeZoneBit sb m) (hmarked : ZoneMarked s sb m true s')
    (hlt : (s.superBlock sb).bitZone m < (s.superBlock sb).sNzones) :
    ZoneTaken env dev sb s ((s.superBlock sb).bitZone m) s' := by
  have hpos := hfree.pos hzero
  have hwas : s.zmap sb m = some false := hfree.1
  have hbit : (s.superBlock sb).zoneBit ((s.superBlock sb).bitZone m) = m := by
    unfold SuperBlock.zoneBit SuperBlock.bitZone
    omega
  have hdata : (s.superBlock sb).DataZone ((s.superBlock sb).bitZone m) :=
    ⟨Nat.le_add_left _ _, hlt⟩
  have hset : s'.zmap sb m = some true := by rw [hmarked.zmap, Function.update_self]
  obtain ⟨t, hrun, hcleared, -⟩ := (h.congr hmarked.super).freeZoneBitmap env
    (z := (s.superBlock sb).bitZone m) (by rwa [hmarked.super]) (by rwa [hmarked.super, hbit])
  have hback : t.zmap sb = s.zmap sb := by
    rw [hcleared.zmap, hmarked.super, hbit, hmarked.zmap, Function.update_idem, ← hwas,
      Function.update_eq_self]
  exact ⟨hdata, by rwa [hbit], by rw [hbit, hmarked.zmap], t, hrun, hback⟩

/-- The allocator takes a data zone whose bit is clear, or none, exactly if the first zero of
the bitmap is not the bit of the zone behind the last one, nor of zone 0. -/
theorem zone_allocator (h : Mounted s dev sb) (hzero : s.zmap sb 0 = some true) :
    ZoneAllocator env dev sb s ↔ ∀ m, s.FreeZoneBit sb m →
      (s.superBlock sb).bitZone m ≠ (s.superBlock sb).sNzones ∧
        (s.superBlock sb).bitZone m ≠ 0 := by
  obtain ⟨z, s', hrun, hadded, -⟩ := h.addZoneBitmap env hzero
  constructor
  · rintro ⟨z', t, hrun', htaken, hsame, -⟩ m hfree
    obtain ⟨rfl, rfl⟩ := hrun.unique hrun'
    cases hadded with
    | full hfull => exact absurd hfree.1 (hfull m)
    | @behind m' hfree' hbehind =>
        obtain rfl : m = m' := hfree.unique hfree'
        omega
    | @added m' _ hfree' hle hmarked =>
        obtain rfl : m = m' := hfree.unique hfree'
        have hne : (s.superBlock sb).bitZone m ≠ 0 := by
          intro hz
          -- with the result 0 no bit may have changed, but this one was set
          have hset : (s.setIntr false).zmap sb m = some true := by
            rw [← hsame hz, hmarked.zmap, Function.update_self]
          have hclear : s.zmap sb m = some false := hfree.1
          exact absurd (hset.symm.trans hclear) (by decide)
        exact ⟨(htaken hne).zone.2.ne, hne⟩
  · intro hgood
    refine ⟨z, s', hrun, ?_⟩
    cases hadded with
    | full hfull =>
        exact ⟨fun hz => absurd rfl hz, fun _ => rfl, fun _ y _ => hfull _, fun _ => rfl⟩
    | @behind m hfree hbehind =>
        -- the first clear bit is behind that of the last zone, so no zone is free
        refine ⟨fun hz => absurd rfl hz, fun _ => rfl, fun _ y hy hclear => ?_, fun _ => rfl⟩
        have hle : m ≤ (s.superBlock sb).zoneBit y := hfree.2 hclear
        have hge := hy.1
        have hlt := hy.2
        unfold SuperBlock.zoneBit at hle
        unfold SuperBlock.bitZone at hbehind
        omega
    | @added m _ hfree hle hmarked =>
        obtain ⟨hlast, hne⟩ := hgood m hfree
        have htaken := ZoneAdded.taken env h hzero hfree hmarked (lt_of_le_of_ne hle hlast)
        exact ⟨fun _ => htaken, fun hz => absurd hz hne, fun hz => absurd hz hne,
          fun hall => absurd htaken.was (hall _ htaken.zone)⟩

/-- All bits are set but bit 2. -/
def secondClear : Block := fun i => if i = 0 then 0xFB else 0xFF

/-- A mounted device whose zones start at 5 and end before `nzones`; of all bits only that of
zone 6 is clear. -/
def nearlyFull (nzones : ℕ) : Sys 1 :=
  ((Sys.load fun _ _ _ => 0).setBuf 0 fun bh =>
  { bh with bData := secondClear }).setSuper 0 fun p =>
    { p with
      sDev := 0x300, sZmapBlocks := 1, sZmap := fun i => if i = 0 then some 0 else none
      sFirstdatazone := 5, sNzones := nzones }

theorem nearlyFull_mounted {nzones : ℕ} (hshort : nzones < 65536) :
    Mounted (nearlyFull nzones) 0x300 0 where
  device := by decide
  super := ⟨rfl, fun p hp => absurd hp (by simp)⟩
  lock := rfl
  imapBlocks := Nat.zero_le _
  zmapBlocks := by simp [nearlyFull, mapSlots]
  imapOwn i j b hi := absurd hi (by simp [nearlyFull, Sys.load])
  zmapOwn i j b hi hj := by
    by_cases h : i = 0 <;> by_cases h' : j = 0 <;> simp_all [nearlyFull]
  short := hshort

theorem nearlyFull_zmap (nzones : ℕ) (hm : m < 8192) :
    (nearlyFull nzones).zmap 0 m = some (secondClear.bit m) := by
  have hslot : ((nearlyFull nzones).superBlock 0).sZmap ⟨0, by decide⟩ = some 0 := rfl
  have hbit := Sys.bitmap_slot (s := nearlyFull nzones) _ Nat.one_pos hslot hm
  rwa [Nat.mul_zero, Nat.zero_add] at hbit

theorem nearlyFull_free (nzones : ℕ) : (nearlyFull nzones).FreeZoneBit 0 2 := by
  refine ⟨nearlyFull_zmap nzones (by decide), fun m hm => ?_⟩
  by_contra hlt
  have hm : (nearlyFull nzones).zmap 0 m = some false := hm
  have hset : ∀ x < 2, (nearlyFull nzones).zmap 0 x = some true := by
    intro x hx
    rw [nearlyFull_zmap nzones (by omega)]
    rcases Nat.lt_succ_iff_lt_or_eq.mp hx with hx | rfl
    · obtain rfl : x = 0 := by omega
      rfl
    · rfl
  exact absurd ((hset m (not_le.mp hlt)).symm.trans hm) (by decide)

/-- The zone behind the last one is handed out. -/
theorem zone_behind_last : (nearlyFull 6).zmap 0 0 = some true ∧
    ¬ ZoneAllocator (Env.diligent 0x50) 0x300 0 (nearlyFull 6) := by
  refine ⟨rfl, ?_⟩
  rintro ⟨z, s', hrun, htaken, -, -⟩
  obtain ⟨z', t, hrun', hadded, -⟩ :=
    (nearlyFull_mounted (by decide : 6 < 65536)).addZoneBitmap (Env.diligent 0x50) rfl
  obtain ⟨rfl, rfl⟩ := hrun.unique hrun'
  cases hadded with
  | full hfull => exact hfull 2 rfl
  | @behind m hfree hbehind =>
      obtain rfl : 2 = m := (nearlyFull_free 6).unique hfree
      exact absurd hbehind (by decide)
  | @added m _ hfree _ _ =>
      obtain rfl : 2 = m := (nearlyFull_free 6).unique hfree
      exact absurd (htaken (by decide)).zone.2 (by decide)

/-- With one zone more, zone 6 is the last one. -/
theorem zone_allocator_last : ZoneAllocator (Env.diligent 0x50) 0x300 0 (nearlyFull 7) := by
  refine (zone_allocator (nearlyFull_mounted (by decide)) rfl).mpr fun m hm => ?_
  obtain rfl : 2 = m := (nearlyFull_free 7).unique hm
  exact ⟨by decide, by decide⟩

/-! ## Inode numbers -/

/-- The inode bitmap of the super block `sb`. -/
def Sys.imap (s : Sys n) (sb : Fin nrSuper) : ℕ → Option Bool :=
  s.bitmap (s.superBlock sb).sImap (s.superBlock sb).sImapBlocks

/-- Bit `m` of the inode bitmap becomes `v`, and nothing else happens to the bitmap; the
buffer with the bit is dirty. -/
structure InodeMarked (s : Sys n) (sb : Fin nrSuper) (m : ℕ) (v : Bool) (s' : Sys n) : Prop where
  super : s'.superBlock = s.superBlock
  imap : s'.imap sb = Function.update (s.imap sb) m (some v)
  dirt : ∃ hi : m / 8192 < mapSlots, ∃ bh, (s.superBlock sb).sImap ⟨m / 8192, hi⟩ = some bh ∧
    (s'.buf bh).bDirt = true

/-- The inode bitmap has a buffer in each of its slots and a bit for each inode. -/
structure Numbered (s : Sys n) (sb : Fin nrSuper) : Prop where
  present : ∀ i : Fin mapSlots, i < (s.superBlock sb).sImapBlocks →
    ((s.superBlock sb).sImap i).isSome = true
  cover : (s.superBlock sb).sNinodes < 8192 * (s.superBlock sb).sImapBlocks

/-- The numbers of inodes whose bits are clear. -/
def Sys.freeInodes (s : Sys n) (sb : Fin nrSuper) : Set ℕ :=
  {m | 1 ≤ m ∧ m ≤ (s.superBlock sb).sNinodes ∧ s.imap sb m = some false}

/-- Every inode has a bit. -/
theorem Numbered.bit (h : Numbered s sb) (hmounted : Mounted s dev sb)
    (hm : m ≤ (s.superBlock sb).sNinodes) : ∃ v, s.imap sb m = some v := by
  have hcover := h.cover
  have hfits := hmounted.imapBlocks
  have hblocks : m / 8192 < (s.superBlock sb).sImapBlocks := by omega
  have hi : m / 8192 < mapSlots := lt_of_lt_of_le hblocks hfits
  obtain ⟨bh, hbh⟩ := Option.isSome_iff_exists.mp (h.present ⟨m / 8192, hi⟩ hblocks)
  have hbit := Sys.bitmap_slot (s := s) hi hblocks hbh (Nat.mod_lt m (by decide : 0 < 8192))
  rw [Nat.div_add_mod] at hbit
  exact ⟨_, hbit⟩

/-- `free_inode_bitmap` clears the bit of an inode. -/
theorem Mounted.freeInodeBitmap (env : Env n) {v : Bool} (h : Mounted s dev sb) (hpos : 1 ≤ m)
    (hm : m ≤ (s.superBlock sb).sNinodes) (hbit : s.imap sb m = some v) :
    ∃ s', Evals (freeInodeBitmap dev m) env s () s' ∧ InodeMarked s sb m false s' ∧
      MapWritten s (s.superBlock sb).sImap m false s' := by
  obtain ⟨hi, hblocks, bh, hmap, -⟩ := Sys.bitmap_some hbit
  have hlow := Nat.mod_lt m (by decide : 0 < 8192)
  have hsame : (s.setIntr false).bitmap (s.superBlock sb).sImap (s.superBlock sb).sImapBlocks =
      s.imap sb := Sys.bitmap_congr fun _ => rfl
  have hunmark := Sys.bitmap_unmark (s := s.setIntr false) h.imapOwn hi hblocks hmap hlow
  rw [hsame, Nat.div_add_mod] at hunmark
  refine ⟨store bh (((s.setIntr false).buf bh).bData.clearBit (m % 8192)) (s.setIntr false),
    h.findSuper.bind ?_, ⟨rfl, hunmark, hi, bh, hmap, by simp [store]⟩, .intro hi hmap⟩
  have hin : ¬ (m < 1 ∨ m > (s.superBlock sb).sNinodes) := by omega
  refine .of_eq fun k => ?_
  simp only [read_bind, Sys.setIntr_superBlock, if_neg hin, dif_pos hi, hmap]
  rfl

/-- What `add_inode_bitmap` does: it takes the first zero, unless that is no inode. -/
inductive InodeAdded (dev : ℕ) (sb : Fin nrSuper) (s : Sys n) : ℕ → Sys n → Prop
  | full : s.freeInodes sb = ∅ → InodeAdded dev sb s 0 (s.setIntr false)
  | added {m : ℕ} {s' : Sys n} : IsLeast (s.freeInodes sb) m → InodeMarked s sb m true s' →
      InodeAdded dev sb s m s'

/-- **`add_inode_bitmap` returns.** -/
theorem Mounted.addInodeBitmap (env : Env n) (h : Mounted s dev sb)
    (hzero : s.imap sb 0 = some true) :
    ∃ m s', Evals (addInodeBitmap dev) env s m s' ∧ InodeAdded dev sb s m s' ∧
      ∀ m, IsLeast (s.freeInodes sb) m → MapWritten s (s.superBlock sb).sImap m true s' := by
  obtain ⟨found, hscan, hscanned⟩ := scanMaps_evals env (s.setIntr false)
    (s.superBlock sb).sImap h.imapBlocks
  have hsame : (s.setIntr false).bitmap (s.superBlock sb).sImap (s.superBlock sb).sImapBlocks =
      s.imap sb := Sys.bitmap_congr fun _ => rfl
  -- the scan of the bitmap finds its least clear bit, if there is one
  cases hscanned with
  | none hfull =>
      rw [hsame] at hfull
      have hempty : s.freeInodes sb = ∅ := Set.eq_empty_of_forall_notMem fun m hm => hfull m hm.2.2
      exact ⟨0, _, h.findSuper.bind (hscan.bind (.of_eq fun _ => rfl)), .full hempty,
        fun m hm => absurd hm.1 (by simp [hempty])⟩
  | @some i j bh hi hblocks hmap hj hleast =>
      rw [hsame] at hleast
      have hclear : s.imap sb (8192 * i + j) = some false := hleast.1
      have hpos : 1 ≤ 8192 * i + j := by
        by_contra hlt
        have hm : 8192 * i + j = 0 := by omega
        rw [hm] at hclear
        exact absurd (hzero.symm.trans hclear) (by decide)
      have hnumber : j + i * 8192 = 8192 * i + j := by omega
      -- the least clear bit may stand for no inode of the device, and then no bit does
      by_cases hbehind : (s.superBlock sb).sNinodes < 8192 * i + j
      · have hempty : s.freeInodes sb = ∅ := by
          refine Set.eq_empty_of_forall_notMem fun m hm => ?_
          have hle : 8192 * i + j ≤ m := hleast.2 hm.2.2
          have hlast := hm.2.1
          omega
        refine ⟨0, _, h.findSuper.bind (hscan.bind (.of_eq fun _ => ?_)), .full hempty,
          fun m hm => absurd hm.1 (by simp [hempty])⟩
        dsimp only
        rw [Sys.setIntr_superBlock, hnumber, if_pos hbehind]
        rfl
      · have hbit : ((s.setIntr false).buf bh).bData.bit j = false := by
          rw [Sys.imap, Sys.bitmap_slot hi hblocks hmap hj, Option.some.injEq] at hclear
          exact hclear
        have hmark := Sys.bitmap_mark (s := s.setIntr false) h.imapOwn hi hblocks hmap hj
        rw [hsame] at hmark
        have hdiv : (8192 * i + j) / 8192 = i := by omega
        have hslot : ∃ hi' : (8192 * i + j) / 8192 < mapSlots,
            (s.superBlock sb).sImap ⟨(8192 * i + j) / 8192, hi'⟩ = some bh := by
          have hi' : (8192 * i + j) / 8192 < mapSlots := by omega
          have heq : (⟨(8192 * i + j) / 8192, hi'⟩ : Fin mapSlots) = ⟨i, hi⟩ := Fin.ext hdiv
          exact ⟨hi', heq ▸ hmap⟩
        obtain ⟨hi', hmap'⟩ := hslot
        have hnext : IsLeast (s.freeInodes sb) (8192 * i + j) :=
          ⟨⟨hpos, not_lt.mp hbehind, hclear⟩, fun m hm => hleast.2 hm.2.2⟩
        refine ⟨8192 * i + j, store bh (((s.setIntr false).buf bh).bData.setBit j)
          (s.setIntr false), h.findSuper.bind (hscan.bind ?_), .added hnext
          ⟨rfl, hmark, hi', bh, hmap', by simp [store]⟩, fun m hm => ?_⟩
        swap
        · obtain rfl : 8192 * i + j = m := hnext.unique hm
          exact .of_slot hi hmap hj
        dsimp only
        rw [Sys.setIntr_superBlock, hnumber, if_neg hbehind]
        exact (markBit_evals hbit).bind (.of_eq fun _ => rfl)

/-- The inode number `m` was taken: it is the least free one, only its bit was set, and the
bitmap is as before when it is freed at once. -/
structure NumberTaken (env : Env n) (dev : ℕ) (sb : Fin nrSuper) (s : Sys n) (m : ℕ)
    (s' : Sys n) : Prop where
  least : IsLeast (s.freeInodes sb) m
  marked : InodeMarked s sb m true s'
  back : ∃ t, Evals (freeInodeBitmap dev m) env s' () t ∧ t.imap sb = s.imap sb

/-- **Inode numbers.**  `add_inode_bitmap` takes the least free number, or returns 0 and
changes nothing exactly if there is none; `free_inode_bitmap` clears the same bit. -/
theorem inode_allocator (h : Mounted s dev sb) (hnumbered : Numbered s sb)
    (hzero : s.imap sb 0 = some true) :
    (∃ m s', Evals (addInodeBitmap dev) env s m s' ∧
      (m ≠ 0 → NumberTaken env dev sb s m s') ∧ (m = 0 → s' = s.setIntr false) ∧
      (m = 0 ↔ s.freeInodes sb = ∅)) ∧
    ∀ m, 1 ≤ m → m ≤ (s.superBlock sb).sNinodes →
      ∃ s', Evals (freeInodeBitmap dev m) env s () s' ∧ InodeMarked s sb m false s' := by
  constructor
  · obtain ⟨m, s', hrun, hadded, -⟩ := h.addInodeBitmap env hzero
    refine ⟨m, s', hrun, ?_⟩
    cases hadded with
    | full hempty => exact ⟨fun hm => absurd rfl hm, fun _ => rfl, iff_of_true rfl hempty⟩
    | added hleast hmarked =>
        have hne : m ≠ 0 := Nat.one_le_iff_ne_zero.mp hleast.1.1
        have hwas : s.imap sb m = some false := hleast.1.2.2
        have hset : s'.imap sb m = some true := by rw [hmarked.imap, Function.update_self]
        obtain ⟨t, hfree, hcleared, -⟩ := (h.congr hmarked.super).freeInodeBitmap env
          hleast.1.1 (by rw [hmarked.super]; exact hleast.1.2.1) hset
        have hback : t.imap sb = s.imap sb := by
          rw [hcleared.imap, hmarked.imap, Function.update_idem, ← hwas, Function.update_eq_self]
        exact ⟨fun _ => ⟨hleast, hmarked, t, hfree, hback⟩, fun hm => absurd hm hne,
          fun hm => absurd hm hne, fun hempty => absurd hleast.1 (by simp [hempty])⟩
  · intro m hpos hm
    obtain ⟨v, hv⟩ := hnumbered.bit h hm
    obtain ⟨s', hfree, hmarked, -⟩ := h.freeInodeBitmap env hpos hm hv
    exact ⟨s', hfree, hmarked⟩

/-- A mounted device with 63 inodes, of which 1, 2 and 4 to 7 are in use. -/
def fewInodes : Sys 1 :=
  ((Sys.load fun _ _ _ => 0).setBuf 0 fun bh =>
    { bh with bData := fun i => if i = 0 then 0xF7 else 0 }).setSuper 0 fun p =>
    { p with
      sDev := 0x300, sImapBlocks := 1, sImap := fun i => if i = 0 then some 0 else none,
      sNinodes := 63 }

/-- Number 3 is free, and number 1 is given back. -/
theorem inode_allocator_few :
    (∃ m s', Evals (addInodeBitmap 0x300) (Env.diligent 0x50) fewInodes m s' ∧
      NumberTaken (Env.diligent 0x50) 0x300 0 fewInodes m s') ∧
    ∃ s', Evals (freeInodeBitmap 0x300 1) (Env.diligent 0x50) fewInodes () s' ∧
      InodeMarked fewInodes 0 1 false s' := by
  have hmounted : Mounted fewInodes 0x300 0 :=
    { device := by decide
      super := ⟨rfl, fun p hp => absurd hp (by simp)⟩
      lock := rfl
      imapBlocks := by simp [fewInodes, mapSlots]
      zmapBlocks := Nat.zero_le _
      imapOwn := fun i j b hi hj => by
        by_cases h : i = 0 <;> by_cases h' : j = 0 <;> simp_all [fewInodes]
      zmapOwn := fun i j b hi => absurd hi (by simp [fewInodes, Sys.load])
      short := by simp [fewInodes, Sys.load] }
  have hnumbered : Numbered fewInodes 0 := by
    refine ⟨fun i hi => ?_, by simp [fewInodes]⟩
    have hzero : i = 0 := Fin.ext (by simpa [fewInodes] using hi)
    subst hzero
    rfl
  -- bit 3 is clear
  have hfree : (3 : ℕ) ∈ fewInodes.freeInodes 0 := ⟨by decide, by decide, by decide +kernel⟩
  obtain ⟨⟨m, s', hrun, htaken, -, hzero⟩, hfrees⟩ := inode_allocator hmounted hnumbered rfl
  refine ⟨⟨m, s', hrun, htaken fun hm => ?_⟩, hfrees 1 (by decide) (by decide)⟩
  exact absurd (hzero.mp hm ▸ hfree) (Set.notMem_empty 3)

end EgGS
