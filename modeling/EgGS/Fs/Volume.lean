import EgGS.Cache.Access
import EgGS.Fs.Bitmaps
import EgGS.Fs.Fuel
import Mathlib.Data.Set.Function
import Mathlib.Data.Set.Lattice
import Mathlib.Order.CompletePartialOrder

/-!
# Bitmaps and the contents of blocks

The buffers of the bitmaps of a mounted device are held and up to date, so the bitmaps are
what the map of the cache has at their blocks.  `add_zone_bitmap`, `free_zone_bitmap` and the
functions of `zone.c` that take and free one block change the map there and at the block
itself.

`Volume` collects what this takes: the buffers of both bitmaps are held, and no data zone is a block
of them.  `Sys.MapHeld.bitmap_eq` is the frame lemma of the bitmaps, for whatever changes the map at
other blocks; `freeZone`, `deleteBlock` and `createBlock` are the calls, each with the one bit and
the one block that it changes.
-/

namespace EgGS

open Lib Prog

variable {n : ℕ} {env : Env n} {k : ℕ} {s s' t : Sys n} {dev block z m : ℕ} {sb : Fin nrSuper}
variable {which : Rw → Prop} {used loose loose' : ℕ × ℕ → Prop} {M M' : Contents}
variable {refs refs' : Refs n} {map : Fin mapSlots → Option (Fin n)} {blocks : ℕ} {b c : Fin n}
variable {v : Bool}

/-! ## Buffers of bitmaps -/

/-- Somebody holds the buffer, and it is up to date. -/
structure Firm (refs : Refs n) (s : Sys n) (b : Fin n) : Prop where
  held : 0 < refs b
  uptodate : (s.buf b).bUptodate = true
  dev : (s.buf b).bDev ≠ 0

theorem Beside.bDev (h : Beside refs s s') (hb : 0 < refs b) : (s'.buf b).bDev = (s.buf b).bDev :=
  congrArg Prod.fst (h.key b hb)

theorem Firm.beside (h : Firm refs s b) (hbeside : Beside refs s s') : Firm refs s' b where
  held := h.held
  uptodate := hbeside.uptodate b h.held h.uptodate
  dev := by
    rw [hbeside.bDev h.held]
    exact h.dev

theorem Firm.mono (h : Firm refs s b) (hle : refs ≤ refs') : Firm refs' s b :=
  ⟨h.held.trans_le (hle b), h.uptodate, h.dev⟩

/-- The blocks that the buffers of a bitmap belong to. -/
def Sys.mapKeys (s : Sys n) (map : Fin mapSlots → Option (Fin n)) : Set (ℕ × ℕ) :=
  {x | ∃ i b, map i = some b ∧ s.key b = x}

/-- The buffers of the bitmap are held and up to date. -/
def Sys.MapHeld (s : Sys n) (refs : Refs n) (map : Fin mapSlots → Option (Fin n)) : Prop :=
  ∀ i b, map i = some b → Firm refs s b

theorem Sys.MapHeld.mapKeys_eq (h : s.MapHeld refs map) (hbeside : Beside refs s s') :
    s'.mapKeys map = s.mapKeys map := by
  ext x
  constructor
  · rintro ⟨i, b, hb, rfl⟩
    exact ⟨i, b, hb, (hbeside.key b (h i b hb).held).symm⟩
  · rintro ⟨i, b, hb, rfl⟩
    exact ⟨i, b, hb, hbeside.key b (h i b hb).held⟩

/-- A bitmap stays the same where the contents of its blocks do. -/
theorem Sys.MapHeld.bitmap_eq (h : s.MapHeld refs map) (hbeside : Beside refs s s')
    (hs : Coherent used loose M s) (hs' : Coherent used loose' M' s')
    (hsame : Set.EqOn M' M (s.mapKeys map)) : s'.bitmap map blocks = s.bitmap map blocks := by
  funext m
  unfold Sys.bitmap
  split
  · rename_i hin
    cases hslot : map ⟨m / 8192, hin.2⟩ with
    | none => rfl
    | some b =>
        have hfirm := h _ b hslot
        have hfirm' := hfirm.beside hbeside
        have hkey := hbeside.key b hfirm.held
        have hdata : (s'.buf b).bData = (s.buf b).bData := by
          rw [hs'.cached b hfirm'.dev hfirm'.uptodate, hs.cached b hfirm.dev hfirm.uptodate, hkey]
          exact hsame ⟨_, b, hslot, rfl⟩
        simp [hdata]
  · rfl

/-- The map when bit `m` of a bitmap has become `v`. -/
def Sys.marked (s : Sys n) (map : Fin mapSlots → Option (Fin n)) (m : ℕ) (v : Bool)
    (M : Contents) : Contents :=
  if h : m / 8192 < mapSlots then
    match map ⟨m / 8192, h⟩ with
    | some b => Function.update M (s.key b) ((M (s.key b)).putBit (m % 8192) v)
    | none => M
  else M

theorem Sys.marked_eqOn (s : Sys n) (map : Fin mapSlots → Option (Fin n)) (m : ℕ) (v : Bool)
    (M : Contents) : Set.EqOn (s.marked map m v M) M (s.mapKeys map)ᶜ := by
  intro x hx
  unfold Sys.marked
  split
  · rename_i hi
    cases hslot : map ⟨m / 8192, hi⟩ with
    | none => rfl
    | some b =>
        refine Function.update_of_ne ?_ _ _
        rintro rfl
        exact hx ⟨_, b, hslot, rfl⟩
  · rfl

/-- A mounted device: the buffers of its bitmaps are held, its data zones lie on the disk, and
the bitmaps lie elsewhere. -/
structure Volume (used : ℕ × ℕ → Prop) (refs : Refs n) (s : Sys n) (dev : ℕ) (sb : Fin nrSuper) :
    Prop where
  mounted : Mounted s dev sb
  zheld : s.MapHeld refs (s.superBlock sb).sZmap
  iheld : s.MapHeld refs (s.superBlock sb).sImap
  zones : ∀ z, (s.superBlock sb).DataZone z → used (dev, z)
  zapart : ∀ z, (s.superBlock sb).DataZone z → (dev, z) ∉ s.mapKeys (s.superBlock sb).sZmap
  iapart : ∀ z, (s.superBlock sb).DataZone z → (dev, z) ∉ s.mapKeys (s.superBlock sb).sImap
  split : Disjoint (s.mapKeys (s.superBlock sb).sZmap) (s.mapKeys (s.superBlock sb).sImap)

theorem Volume.beside (h : Volume used refs s dev sb) (hbeside : Beside refs s s') :
    Volume used refs s' dev sb := by
  have hsuper := hbeside.superBlock
  have hz := h.zheld.mapKeys_eq hbeside
  have hi := h.iheld.mapKeys_eq hbeside
  refine ⟨h.mounted.congr hsuper, ?_, ?_, ?_, ?_, ?_, ?_⟩ <;> rw [hsuper]
  · exact fun i b hb => (h.zheld i b hb).beside hbeside
  · exact fun i b hb => (h.iheld i b hb).beside hbeside
  · exact h.zones
  · exact hz ▸ h.zapart
  · exact hi ▸ h.iapart
  · rw [hz, hi]
    exact h.split

theorem Volume.mono (h : Volume used refs s dev sb) (hle : refs ≤ refs') :
    Volume used refs' s dev sb :=
  ⟨h.mounted, fun i b hb => (h.zheld i b hb).mono hle, fun i b hb => (h.iheld i b hb).mono hle,
    h.zones, h.zapart, h.iapart, h.split⟩

/-- Nobody holds a buffer of the block. -/
def Sys.Unheld (s : Sys n) (refs : Refs n) (dev block : ℕ) : Prop :=
  ∀ b, s.Keyed b dev block → refs b = 0

theorem Sys.Unheld.beside (h : s.Unheld refs dev block) (hbeside : Beside refs s s') :
    s'.Unheld refs dev block := by
  intro b hb
  by_contra hne
  have hkey := hbeside.key b (Nat.pos_of_ne_zero hne)
  have hb' : s'.key b = (dev, block) := (Sys.key_eq _).mpr hb
  exact hne (h b ((Sys.key_eq (dev, block)).mp (hkey.symm.trans hb')))

theorem Sys.Unheld.roomy (h : s.Unheld refs dev block) : s.Roomy refs dev block := by
  intro b hb
  rw [h b hb]
  decide

/-! ## One bit -/

theorem MapWritten.beside (h : MapWritten s map m v s') (hheld : s.MapHeld refs map) :
    Beside refs s s' := by
  cases h with
  | @intro b hi hmap =>
      have hfirm := hheld _ b hmap
      have hbeside : Beside refs (s.setIntr false) _ :=
        (Assigned.store (s.setIntr false) b ((s.buf b).bData.putBit (m % 8192) v)).beside
          fun _ hup => by simpa [store] using hup
      exact ⟨hbeside.inode, hbeside.lastInode, hbeside.superBlock, hbeside.geo, hbeside.key,
        hbeside.uptodate⟩

namespace Mapped

section
variable (henv : env.Works which) (hwhich : which .write)
include henv hwhich

theorem setIntr (h : Mapped which used loose M refs s) (on : Bool) :
    Mapped which used loose M refs (s.setIntr on) := h.submits henv hwhich (setIntr_submits on)

/-- **A bit of a bitmap changes the map at its block.** -/
theorem written (h : Mapped which used loose M refs s) (hheld : s.MapHeld refs map)
    (hw : MapWritten s map m v s') : Mapped which used loose (s.marked map m v M) refs s' := by
  cases hw with
  | @intro b hi hmap =>
      have hfirm := hheld _ b hmap
      have hdata : (s.buf b).bData = M (s.key b) := h.coherent.cached b hfirm.dev hfirm.uptodate
      have hstore := (h.setIntr henv hwhich false).store ((s.buf b).bData.putBit (m % 8192) v)
        hfirm.dev hfirm.uptodate
      have hmarked : s.marked map m v M =
          Function.update M (s.key b) ((s.buf b).bData.putBit (m % 8192) v) := by
        rw [Sys.marked, dif_pos hi, hmap, hdata]
      rw [hmarked]
      exact hstore

/-- **`free_zone_bitmap`** clears the bit of a zone. -/
theorem freeZone (h : Mapped which used loose M refs s) (hv : Volume used refs s dev sb)
    (hz : (s.superBlock sb).DataZone z) (hbit : s.zmap sb ((s.superBlock sb).zoneBit z) = some v) :
    Does (freeZoneBitmap dev z) env s fun _ s' =>
      Mapped which used loose
        (s.marked (s.superBlock sb).sZmap ((s.superBlock sb).zoneBit z) false M) refs s' ∧
      Beside refs s s' ∧
      s'.zmap sb = Function.update (s.zmap sb) ((s.superBlock sb).zoneBit z) (some false) := by
  obtain ⟨s', heval, hmarked, hw⟩ := hv.mounted.freeZoneBitmap env hz hbit
  exact heval.does ⟨h.written henv hwhich hv.zheld hw, hw.beside hv.zheld, hmarked.zmap⟩

/-- **`delete_block`** frees a zone that nobody holds; what it contains is left open. -/
theorem deleteBlock (h : Mapped which used loose M refs s) (hv : Volume used refs s dev sb)
    (hz : (s.superBlock sb).DataZone z) (hbit : s.zmap sb ((s.superBlock sb).zoneBit z) = some v)
    (hfree : s.Unheld refs dev z) (hfirm : ¬ loose (dev, z)) :
    Does (deleteBlock dev z) env s fun _ s' => ∃ M', Mapped which used loose M' refs s' ∧
      Beside refs s s' ∧
      Set.EqOn M' M (insert (dev, z) (s.mapKeys (s.superBlock sb).sZmap))ᶜ ∧
      s'.zmap sb = Function.update (s.zmap sb) ((s.superBlock sb).zoneBit z) (some false) := by
  refine (h.invalidateBuff henv hwhich (hv.zones z hz) hfree hfirm).bind fun _ t ht => ?_
  obtain ⟨value, ht, hbeside⟩ := ht
  have hv' := hv.beside hbeside
  have hsuper := hbeside.superBlock
  have hkeys := hv.zheld.mapKeys_eq hbeside
  -- the block is not one of the bitmap
  have hsame : Set.EqOn (Function.update M (dev, z) value) M
      (s.mapKeys (s.superBlock sb).sZmap) := by
    intro x hx
    refine Function.update_of_ne ?_ _ _
    rintro rfl
    exact hv.zapart z hz hx
  have hzmap : t.zmap sb = s.zmap sb := by
    unfold Sys.zmap
    rw [hsuper]
    exact hv.zheld.bitmap_eq hbeside h.coherent ht.coherent hsame
  have hz' : (t.superBlock sb).DataZone z := by rwa [hsuper]
  have hbit' : t.zmap sb ((t.superBlock sb).zoneBit z) = some v := by rwa [hzmap, hsuper]
  refine (ht.freeZone henv hwhich hv' hz' hbit').mono fun _ u ⟨hu, hbeside', hcleared⟩ => ?_
  rw [hsuper] at hu hcleared
  refine ⟨_, hu, hbeside.trans hbeside', fun x hx => ?_, by rw [hcleared, hzmap]⟩
  rw [Set.mem_compl_iff, Set.mem_insert_iff, not_or] at hx
  rw [t.marked_eqOn _ _ _ _ (hkeys ▸ hx.2)]
  exact Function.update_of_ne hx.1 _ _

/-- Who has the only reference to the buffer of a block took it when nobody held it. -/
theorem sole (h : Mapped which used loose M refs s) (hused : used (dev, block))
    (htaken : Taken env s dev block b s') (hone : (s'.buf b).bCount = 1) :
    s.Unheld refs dev block := by
  have hdev := h.dev_ne_zero hused
  cases htaken with
  | @found t hpath hfound heq =>
      have hcount := (h.submits henv hwhich hpath).counted.count b
      have hbound := h.counted.bound b
      have hup : (s'.buf b).bCount = ((t.buf b).bCount + 1) % 256 := by simp [heq, Sys.countUp]
      have hzero : refs b = 0 := by
        rw [hup, hcount] at hone
        omega
      have hkey : s.Keyed b dev block := (Submits.keyed_iff hpath b).mp hfound.key
      intro c hc
      have hsame : s.key c = s.key b :=
        ((Sys.key_eq (dev, block)).mpr hc).trans ((Sys.key_eq (dev, block)).mpr hkey).symm
      obtain rfl : c = b := h.links.key_unique b c (hkey.1.symm ▸ hdev) hsame
      exact hzero
  | @recycled t k hpath hrec hreuse =>
      intro c hc
      obtain ⟨j, hmissing⟩ := hrec.missing
      have hfound : Evals (findBuff dev block) env t (some c) t :=
        findBuff_evals (h.submits henv hwhich hpath).links hdev (hpath.keyed hc)
      have heq := (hfound.unique ((findBuff_stable dev block).evals hmissing)).1
      exact absurd heq (by simp)

/-- The end of `create_block`: the buffer of the new block gets zeros, and nobody else can have
held it. -/
theorem clearNew (h : Mapped which used loose M refs s) (hused : used (dev, block))
    (hreach : s.Reachable refs dev block) (hfirm : ¬ loose (dev, block)) :
    Ensures (do
      let bh ← EgGS.getBuff dev block
      let s ← Prog.read
      if (s.buf bh).bCount ≠ 1 then
        panic "new block: count is != 1"
      else do
        Prog.update (Sys.zero · bh)
        EgGS.putBuff (some bh)
        pure block) env s fun z s' => z = block ∧ s.Unheld refs dev block ∧
      Mapped which used loose (Function.update M (dev, block) zeroBlock) refs s' ∧
      Beside refs s s' := by
  refine ((getBuff_stable dev block).ensures
    (h.getBuff henv hused hreach)).bind fun b t htaken => .bind_read ?_
  refine .ite (fun _ => .halt _) fun hone => .bind_update ?_
  have hfree := h.sole henv hwhich hused htaken (not_not.mp hone)
  obtain ⟨ht, hbeside, hkey, hlock, -⟩ := h.taken henv hwhich hused hfree.roomy htaken
  have hzero := ht.zero (ht.dev_of_key hused hkey) hlock
  rw [hkey] at hzero
  have hkey' : (t.zero b).key b = (dev, block) := (Sys.key_of_rest (t.zero_rest b) b).trans hkey
  have hbeside' : Beside (refs.add b) t (t.zero b) :=
    (Assigned.zero hlock).beside fun _ _ => by simp [Sys.zero]
  have hput := hzero.putBuff henv hwhich (b := b) (by simp [Refs.add]) (hkey' ▸ hfirm)
  refine ((putBuff_stable (some b)).ensures hput).bind ?_
  rintro _ u ⟨hu, hput⟩
  rw [Refs.sub_add] at hu
  exact .pure ⟨rfl, hfree, hu, hbeside.trans ((hbeside'.trans hput).mono (refs.le_add b))⟩

/-- **`create_block`** gives the block of a free zone 1024 zeros, and changes the bitmap. -/
theorem blockCreated (h : Mapped which used loose M refs s) (hm : Mounted s dev sb)
    (hheld : s.MapHeld refs (s.superBlock sb).sZmap) (hzero : s.zmap sb 0 = some true)
    (hfree : s.FreeZoneBit sb m) (hle : (s.superBlock sb).bitZone m ≤ (s.superBlock sb).sNzones)
    (hused : used (dev, (s.superBlock sb).bitZone m))
    (hreach : s.Reachable refs dev ((s.superBlock sb).bitZone m))
    (hfirm : ¬ loose (dev, (s.superBlock sb).bitZone m)) :
    Ensures (EgGS.createBlock dev) env s fun z s' => z = (s.superBlock sb).bitZone m ∧
      s.Unheld refs dev z ∧
      Mapped which used loose (Function.update (s.marked (s.superBlock sb).sZmap m true M) (dev, z)
        zeroBlock) refs s' ∧
      Beside refs s s' ∧ s'.zmap sb = Function.update (s.zmap sb) m (some true) := by
  obtain ⟨z, t, heval, hadded, hwritten⟩ := hm.addZoneBitmap env hzero
  have hw := hwritten m hfree hle
  -- the bit is clear and its zone is one of the device, so it is the one that is found
  cases hadded with
  | full hfull => exact absurd hfree.1 (hfull m)
  | @behind m' hfree' hlt =>
      obtain rfl : m = m' := hfree.unique hfree'
      exact absurd hlt (not_lt.mpr hle)
  | @added m' t hfree' _ hmarked =>
      obtain rfl : m = m' := hfree.unique hfree'
      have ht := h.written henv hwhich hheld hw
      have hbeside := hw.beside hheld
      have hclear := ht.clearNew henv hwhich hused (hreach.beside hbeside) hfirm
      refine ((addZoneBitmap_stable dev).ensures (heval.does (Q := fun a u =>
        a = (s.superBlock sb).bitZone m ∧ u = t) ⟨rfl, rfl⟩)).bind ?_
      rintro _ t ⟨rfl, rfl⟩
      refine hclear.mono ?_
      rintro _ u ⟨rfl, hunheld, hu, hbeside'⟩
      have hsuper := hbeside.superBlock
      have hboth := hbeside.trans hbeside'
      have hunheld' : s.Unheld refs dev ((s.superBlock sb).bitZone m) := by
        intro b hb
        rcases Nat.eq_zero_or_pos (refs b) with hb0 | hpos
        · exact hb0
        · have hkey : s.key b = (dev, (s.superBlock sb).bitZone m) := (Sys.key_eq _).mpr hb
          exact hunheld b ((Sys.key_eq _).mp ((hbeside.key b hpos).trans hkey))
      refine ⟨rfl, hunheld', hu, hboth, ?_⟩
      -- the new block is not one of the bitmap, whose buffers are held
      have hkeys := hheld.mapKeys_eq hbeside
      have htheld : t.MapHeld refs (t.superBlock sb).sZmap := by
        rw [hsuper]
        exact fun i b hb => (hheld i b hb).beside hbeside
      have hsame : Set.EqOn (Function.update (s.marked (s.superBlock sb).sZmap m true M)
          (dev, (s.superBlock sb).bitZone m) zeroBlock) (s.marked (s.superBlock sb).sZmap m true M)
          (t.mapKeys (t.superBlock sb).sZmap) := by
        intro x hx
        rw [hsuper, hkeys] at hx
        refine Function.update_of_ne ?_ _ _
        rintro rfl
        obtain ⟨i, b, hmap, hkey⟩ := hx
        exact (hheld i b hmap).held.ne' (hunheld' b ((Sys.key_eq _).mp hkey))
      have hzmap : u.zmap sb = t.zmap sb := by
        unfold Sys.zmap
        rw [hbeside'.superBlock]
        exact htheld.bitmap_eq hbeside' ht.coherent hu.coherent hsame
      rw [hzmap, hmarked.zmap]

/-- **`create_block`** takes the zone of the first zero, and its block contains zeros. -/
theorem createBlock (h : Mapped which used loose M refs s) (hv : Volume used refs s dev sb)
    (hzero : s.zmap sb 0 = some true) (hfree : s.FreeZoneBit sb m)
    (hz : (s.superBlock sb).DataZone ((s.superBlock sb).bitZone m))
    (hreach : s.Reachable refs dev ((s.superBlock sb).bitZone m))
    (hfirm : ¬ loose (dev, (s.superBlock sb).bitZone m)) :
    Ensures (EgGS.createBlock dev) env s fun z s' => z = (s.superBlock sb).bitZone m ∧
      s.Unheld refs dev z ∧
      Mapped which used loose (Function.update (s.marked (s.superBlock sb).sZmap m true M) (dev, z)
        zeroBlock) refs s' ∧
      Beside refs s s' ∧ s'.zmap sb = Function.update (s.zmap sb) m (some true) :=
  h.blockCreated henv hwhich hv.mounted hv.zheld hzero hfree hz.2.le (hv.zones _ hz) hreach hfirm

end

end Mapped

end EgGS
