import EgGS.Fs.Volume
import EgGS.Fs.Locks

/-!
# The inode table

The inodes of a device lie 32 to a block behind its bitmaps, from number 1 on.
`sync_inode_to_buff` stores the first 32 bytes of an entry of `inode_list` in the slot of its
inode, and `read_inode_from_buff` loads them from there.

A slot is 16 words of a block: `dInode_setDInode` reads back what was stored, and
`dInode_setDInode_ne` says that the other 31 slots stay.  `SuperBlock.slot_injective` gives every
number a slot of its own.  With `readInodeFromBuff` and `syncInodeToBuff`, which say what the two
functions do to the map of the cache, the round trip is a fact about that map.

* `inode_table_round_trip`: what is read back is what was stored, and every other inode of the
  table stays as it was.
-/

namespace EgGS

open Lib Prog

variable {n : ℕ} {env : Env n} {k : ℕ} {s s' t u : Sys n} {dev block : ℕ} {sb : Fin nrSuper}
variable {which : Rw → Prop} {used loose : ℕ × ℕ → Prop} {M : Contents} {refs : Refs n}
variable {i j : Fin nrInode} {b : Fin n}

/-! ## A slot of a block -/

section Slots

variable {data : Block} {d : DInode} {slot slot' : ℕ}

theorem DInode.short_lt (d : DInode) (i : ℕ) : d.short i < 65536 := by
  match i with
  | 0 => exact d.iMode.toNat_lt
  | 1 => exact d.iUid.toNat_lt
  | 2 => exact Nat.mod_lt _ (by omega)
  | 3 =>
      have hsize := d.iSize.toNat_lt
      simp only [DInode.short]
      omega
  | 4 => exact Nat.mod_lt _ (by omega)
  | 5 =>
      have htime := d.iTime.toNat_lt
      simp only [DInode.short]
      omega
  | 6 =>
      have hgid := d.iGid.toNat_lt
      have hlinks := d.iNlinks.toNat_lt
      simp only [DInode.short]
      omega
  | z + 7 =>
      simp only [DInode.short]
      split
      · exact (d.iZone _).toNat_lt
      · omega

/-- The words of the slot are those of the inode that was stored. -/
theorem word_setDInode (data : Block) (d : DInode) (hslot : slot < 32) {i : ℕ} (hi : i < 16) :
    (data.setDInode slot d).word (16 * slot + i) = UInt16.ofNat (d.short i) := by
  have hlow : 2 * (16 * slot + i) % 1024 / 32 = slot := by omega
  have hhigh : (2 * (16 * slot + i) + 1) % 1024 / 32 = slot := by omega
  have hlow' : 2 * (16 * slot + i) % 1024 % 32 / 2 = i := by omega
  have hhigh' : (2 * (16 * slot + i) + 1) % 1024 % 32 / 2 = i := by omega
  have hparity : 2 * (16 * slot + i) % 1024 % 2 = 0 := by omega
  have hparity' : (2 * (16 * slot + i) + 1) % 1024 % 2 = 1 := by omega
  have hshort := d.short_lt i
  simp only [Block.word, Block.setDInode, hlow, hhigh, hlow', hhigh', hparity, hparity', ↓reduceIte,
    Nat.pow_zero, Nat.div_one, Nat.pow_one, UInt8.toNat_ofNat']
  congr 1
  omega

/-- The words of the other slots stay. -/
theorem word_setDInode_ne (data : Block) (d : DInode) (hne : slot' ≠ slot) (hslot : slot' < 32)
    {i : ℕ}
    (hi : i < 16) : (data.setDInode slot d).word (16 * slot' + i) = data.word (16 * slot' + i) := by
  have hlow : 2 * (16 * slot' + i) % 1024 / 32 ≠ slot := by omega
  have hhigh : (2 * (16 * slot' + i) + 1) % 1024 / 32 ≠ slot := by omega
  simp only [Block.word, Block.setDInode, if_neg hlow, if_neg hhigh]

/-- **An inode that is stored in a slot is loaded from it.** -/
theorem dInode_setDInode (data : Block) (d : DInode) (hslot : slot < 32) :
    (data.setDInode slot d).dInode slot = d := by
  have hword : ∀ i < 16, ((data.setDInode slot d).word (16 * slot + i)).toNat = d.short i := by
    intro i hi
    rw [word_setDInode data d hslot hi, UInt16.toNat_ofNat', Nat.mod_eq_of_lt (d.short_lt i)]
  obtain ⟨mode, uid, size, time, gid, links, zone⟩ := d
  simp only [Block.dInode, DInode.mk.injEq]
  have hmode := hword 0 (by omega)
  have huid := hword 1 (by omega)
  have hsize := hword 2 (by omega)
  have hsize' := hword 3 (by omega)
  have htime := hword 4 (by omega)
  have htime' := hword 5 (by omega)
  have hgid := hword 6 (by omega)
  -- `i_gid` and `i_nlinks` are the two bytes of word 6
  refine ⟨?_, ?_, ?_, ?_, ?_, ?_, ?_⟩
  · rw [hmode]
    exact UInt16.ofNat_toNat
  · rw [huid]
    exact UInt16.ofNat_toNat
  · rw [hsize, hsize']
    simp only [DInode.short, Nat.mod_add_div]
    exact UInt32.ofNat_toNat
  · rw [htime, htime']
    simp only [DInode.short, Nat.mod_add_div]
    exact UInt32.ofNat_toNat
  · rw [hgid]
    apply UInt8.toNat.inj
    have hlt := gid.toNat_lt
    simp only [DInode.short, UInt8.toNat_ofNat']
    omega
  · rw [hgid]
    apply UInt8.toNat.inj
    have hlt := gid.toNat_lt
    have hlt' := links.toNat_lt
    simp only [DInode.short, UInt8.toNat_ofNat']
    omega
  · funext z
    rw [hword (z + 7) (by omega)]
    simp only [DInode.short, z.isLt, ↓reduceDIte]
    exact UInt16.ofNat_toNat

/-- **The inodes in the other slots stay.** -/
theorem dInode_setDInode_ne (data : Block) (d : DInode) (hne : slot' ≠ slot) (hslot : slot' < 32) :
    (data.setDInode slot d).dInode slot' = data.dInode slot' := by
  have hword : ∀ i < 16,
      (data.setDInode slot d).word (16 * slot' + i) = data.word (16 * slot' + i) :=
    fun i hi => word_setDInode_ne data d hne hslot hi
  have hzone : ∀ z : Fin 9, (data.setDInode slot d).word (16 * slot' + (z + 7)) =
      data.word (16 * slot' + (z + 7)) := fun z => hword _ (by omega)
  simp only [Block.dInode, hword 0 (by omega), hword 1 (by omega), hword 2 (by omega),
    hword 3 (by omega), hword 4 (by omega), hword 5 (by omega), hword 6 (by omega), hzone]

end Slots

/-! ## The block and the slot of an inode -/

section Numbers

variable {p : SuperBlock n} {a num : ℕ}

/-- The number of blocks of the inode table. -/
def SuperBlock.tableBlocks (p : SuperBlock n) : ℕ := (p.sNinodes + 31) / 32

theorem inodeSlot_lt (num : ℕ) : inodeSlot num < 32 := Nat.mod_lt _ (by decide)

theorem inodeSlot_eq (hnum : 1 ≤ num ∧ num < 65536) : inodeSlot num = (num - 1) % 32 := by
  unfold inodeSlot unsigned inodesPerBlock
  omega

theorem SuperBlock.inodeBlock_eq (himap : p.sImapBlocks ≤ mapSlots)
    (hzmap : p.sZmapBlocks ≤ mapSlots) (hnum : 1 ≤ num ∧ num < 65536) :
    p.inodeBlock num = 2 + p.sImapBlocks + p.sZmapBlocks + (num - 1) / 32 := by
  unfold mapSlots at himap hzmap
  unfold SuperBlock.inodeBlock unsigned inodesPerBlock
  omega

/-- **The inode table** lies behind the bitmaps. -/
theorem SuperBlock.inodeBlock_mem (himap : p.sImapBlocks ≤ mapSlots)
    (hzmap : p.sZmapBlocks ≤ mapSlots)
    (hshort : p.sNinodes < 65536) (hnum : 1 ≤ num ∧ num ≤ p.sNinodes) :
    2 + p.sImapBlocks + p.sZmapBlocks ≤ p.inodeBlock num ∧
      p.inodeBlock num < 2 + p.sImapBlocks + p.sZmapBlocks + p.tableBlocks := by
  rw [SuperBlock.inodeBlock_eq himap hzmap ⟨hnum.1, by omega⟩, SuperBlock.tableBlocks]
  omega

/-- **Two inodes** of a block have different slots. -/
theorem SuperBlock.slot_injective (himap : p.sImapBlocks ≤ mapSlots)
    (hzmap : p.sZmapBlocks ≤ mapSlots) (ha : 1 ≤ a ∧ a < 65536) (hnum : 1 ≤ num ∧ num < 65536)
    (hblock : p.inodeBlock a = p.inodeBlock num) (hslot : inodeSlot a = inodeSlot num) :
    a = num := by
  rw [SuperBlock.inodeBlock_eq himap hzmap ha, SuperBlock.inodeBlock_eq himap hzmap hnum] at hblock
  rw [inodeSlot_eq ha, inodeSlot_eq hnum] at hslot
  omega

end Numbers

/-! ## Entries of `inode_list` and the cache -/

namespace Mapped

/-- The tables of the file system and the notes of what happened are no part of the cache. -/
theorem rebase (h : Mapped which used loose M refs s) (ht : Touched s s') (hbuf : s'.buf = s.buf)
    (hhash : s'.hashTable = s.hashTable) (hfree : s'.freeList = s.freeList)
    (hen : s'.hdEnabled = s.hdEnabled) : Mapped which used loose M refs s' := by
  have hkey : ∀ c, s'.key c = s.key c := fun c => by rw [Sys.key, Sys.key, hbuf]
  have hdue : ∀ c cmd, s.Due c cmd → s'.Due c cmd := fun c cmd hc =>
    hc.congr ht.geo ((Sys.key_eq _).mp (hkey c)) (by rw [hbuf])
  have hcoherent : Coherent used loose M s' := by
    refine h.coherent.congr hkey (fun c => ⟨by rw [hbuf], fun _ => by rw [hbuf]⟩) ht.disk ht.geo
      fun c hdirt hq => ⟨by rwa [hbuf] at hdirt, mt (ht.queued c .write).mpr hq⟩
  refine h.touched ht hen (fun c hc => hdue c .write (h.flags.dirty c (by rwa [hbuf] at hc)))
    (fun c cmd _ => hdue c cmd) (h.links.congr ⟨fun c => by rw [hbuf], hhash, hfree⟩) hcoherent
    ⟨fun c => by rw [hbuf, h.counted.count], h.counted.bound⟩
      (fun c hc => h.held c (hkey c ▸ hc)) ?_
  intro c hc
  rw [hbuf] at hc ⊢
  exact h.blank c hc

theorem setInode (h : Mapped which used loose M refs s) (i : Fin nrInode) (f : MInode → MInode) :
    Mapped which used loose M refs (s.setInode i f) :=
  h.rebase ⟨rfl, rfl, rfl, rfl, rfl, rfl, fun _ => rfl, fun _ _ => .of_eq rfl, [], rfl, by simp⟩
    rfl rfl rfl rfl

theorem setSuper (h : Mapped which used loose M refs s) (sb : Fin nrSuper)
    (f : SuperBlock n → SuperBlock n) : Mapped which used loose M refs (s.setSuper sb f) :=
  h.rebase ⟨rfl, rfl, rfl, rfl, rfl, rfl, fun _ => rfl, fun _ _ => .of_eq rfl, [], rfl, by simp⟩
    rfl rfl rfl rfl

theorem noteCopied (h : Mapped which used loose M refs s) (dev num : ℕ) (d : DInode) (dev' nr : ℕ) :
    Mapped which used loose M refs (s.note (.copied dev num d dev' nr)) :=
  h.rebase ⟨rfl, rfl, rfl, rfl, rfl, rfl, fun _ => rfl, fun _ _ => .of_eq rfl,
    [.copied dev num d dev' nr], rfl, by simp [Event.Failed]⟩ rfl rfl rfl rfl

/-- **A copy of an inode** changes the block of its buffer. -/
theorem copyInode (h : Mapped which used loose M refs s) (i : Fin nrInode)
    (hdev : (s.buf b).bDev ≠ 0) (hup : (s.buf b).bUptodate = true) :
    Mapped which used loose (Function.update M (s.key b)
      ((s.buf b).bData.setDInode (inodeSlot (s.inode i).iNum) (s.inode i).toDInode)) refs
      (s.copyInode i b) := by
  have hstore := h.store
    ((s.buf b).bData.setDInode (inodeSlot (s.inode i).iNum) (s.inode i).toDInode) hdev hup
  unfold Sys.copyInode
  exact (hstore.noteCopied _ _ _ _ _).setInode i _

end Mapped

/-- An entry is assigned in both states. -/
theorem Beside.setInode (h : Beside refs s s') (i : Fin nrInode) (f : MInode → MInode) :
    Beside refs (s.setInode i f) (s'.setInode i f) where
  inode := by
    funext j
    by_cases hj : j = i <;> simp [hj, h.inode]
  lastInode := h.lastInode
  superBlock := h.superBlock
  geo := h.geo
  key := h.key
  uptodate := h.uptodate

/-- A copy of an inode makes the entry clean. -/
theorem Beside.copyInode (s : Sys n) (i : Fin nrInode) (b : Fin n) :
    Beside refs (s.setInode i fun x => { x with iDirt := false }) (s.copyInode i b) where
  inode := rfl
  lastInode := rfl
  superBlock := rfl
  geo := rfl
  key c _ := Sys.key_of_rest (store_rest b _ s) c
  uptodate c _ hup := by
    have hstore : ((store b ((s.buf b).bData.setDInode (inodeSlot (s.inode i).iNum)
        (s.inode i).toDInode) s).buf c).bUptodate = (s.buf c).bUptodate := by
      by_cases hc : c = b <;> simp [store, hc]
    exact hstore.trans hup

theorem Sys.Readable.setInode (h : s.Readable used loose refs dev block) (i : Fin nrInode)
    (f : MInode → MInode) : (s.setInode i f).Readable used loose refs dev block :=
  ⟨h.used, h.firm, h.room, h.header⟩

/-! ## Reading and writing an inode -/

/-- The inode `num` of a device, as the blocks contain it. -/
def SuperBlock.inodeAt (p : SuperBlock n) (dev : ℕ) (M : Contents) (num : ℕ) : DInode :=
  (M (dev, p.inodeBlock num)).dInode (inodeSlot num)

/-- The contents after an inode was written. -/
def SuperBlock.writeInode (p : SuperBlock n) (dev : ℕ) (M : Contents) (num : ℕ) (d : DInode) :
    Contents :=
  Function.update M (dev, p.inodeBlock num)
    ((M (dev, p.inodeBlock num)).setDInode (inodeSlot num) d)

namespace Mapped

section
variable (henv : env.Works which) (hall : ∀ cmd, which cmd)
include henv hall

/-- **`read_inode_from_buff`** loads the inode, and leaves the other fields but for the lock. -/
theorem readInodeFromBuff (h : Mapped which used loose M refs s) (hm : Mounted s dev sb)
    (hdev : (s.inode i).iDev = dev) (hlock : (s.inode i).iLock = false)
    (hr : s.Readable used loose refs dev ((s.superBlock sb).inodeBlock (s.inode i).iNum)) :
    Does (readInodeFromBuff i) env s fun _ s' => Mapped which used loose M refs s' ∧
      Beside refs (s.setInode i fun x =>
        { x with
          toDInode := (s.superBlock sb).inodeAt dev M (s.inode i).iNum
          iLock := false }) s' := by
  subst hdev
  have hwhich := hall .write
  unfold EgGS.readInodeFromBuff
  refine ((lockInode_evals hlock).does (Q := fun _ t => t = s.setIntr true) rfl).bind ?_
  rintro _ _ rfl
  refine .bind_read ?_
  have hm' : Mounted (s.setIntr true) (s.inode i).iDev sb := hm.congr rfl
  refine (hm'.findSuper.does (Q := fun a t => a = some sb ∧ t = (s.setIntr true).setIntr false)
    ⟨rfl, rfl⟩).bind ?_
  rintro _ _ ⟨rfl, rfl⟩
  have h₁ := (h.setIntr henv hwhich true).setIntr henv hwhich false
  have hbeside₁ : Beside refs s ((s.setIntr true).setIntr false) :=
    ⟨rfl, rfl, rfl, rfl, fun _ _ => rfl, fun _ _ => id⟩
  refine .bind_read ((h₁.readBuff henv hwhich hr.used hr.room hr.header).bind ?_)
  rintro (_ | b) u hread
  · exact absurd hall hread.2.2
  obtain ⟨hold, hbeside, -⟩ := hread
  have hdata := hold.data hr.used
  have hpos : 0 < (refs.add b) b := by simp [Refs.add]
  have hfirm : ¬ loose (u.key b) := hold.key ▸ hr.firm
  refine .bind_update (((hold.mapped.setInode i _).putBuff henv hwhich hpos hfirm).bind ?_)
  rintro _ v ⟨hv, hput⟩
  rw [Refs.sub_add] at hv
  refine .update ⟨hv.setInode i _, ?_⟩
  have hframe := (((hbeside₁.trans hbeside).setInode i _).trans
    (hput.mono (refs.le_add b))).setInode i
    fun x => { x with iLock := false }
  rw [Sys.setInode_setInode] at hframe
  refine (Sys.setInode_congr ?_) ▸ hframe
  simp only [Function.comp_apply, hdata]
  rfl

/-- **`sync_inode_to_buff`** stores a dirty inode, and nothing else. -/
theorem syncInodeToBuff (h : Mapped which used loose M refs s) (hm : Mounted s dev sb)
    (hdev : (s.inode i).iDev = dev) (hlock : (s.inode i).iLock = false)
    (hdirt : (s.inode i).iDirt = true)
    (hr : s.Readable used loose refs dev ((s.superBlock sb).inodeBlock (s.inode i).iNum)) :
    Does (syncInodeToBuff i) env s fun _ s' =>
      Mapped which used loose
        ((s.superBlock sb).writeInode dev M (s.inode i).iNum (s.inode i).toDInode) refs s' ∧
      Beside refs (s.setInode i fun x => { x with iDirt := false, iLock := false }) s' := by
  subst hdev
  have hwhich := hall .write
  unfold EgGS.syncInodeToBuff
  refine ((lockInode_evals hlock).does (Q := fun _ t => t = s.setIntr true) rfl).bind ?_
  rintro _ _ rfl
  refine .bind_read (.ite (fun hclean => ?_) fun _ => ?_)
  · exact absurd (hclean.resolve_left (by simp [hdirt])) hm.device
  have hm' : Mounted (s.setIntr true) (s.inode i).iDev sb := hm.congr rfl
  refine (hm'.findSuper.does (Q := fun a t => a = some sb ∧ t = (s.setIntr true).setIntr false)
    ⟨rfl, rfl⟩).bind ?_
  rintro _ _ ⟨rfl, rfl⟩
  have h₁ := (h.setIntr henv hwhich true).setIntr henv hwhich false
  have hbeside₁ : Beside refs s ((s.setIntr true).setIntr false) :=
    ⟨rfl, rfl, rfl, rfl, fun _ _ => rfl, fun _ _ => id⟩
  refine .bind_read ((h₁.readBuff henv hwhich hr.used hr.room hr.header).bind ?_)
  rintro (_ | b) u hread
  · exact absurd hall hread.2.2
  obtain ⟨hold, hbeside, -⟩ := hread
  -- the block of the table as it is, with the entry of this inode put into it
  have hdata := hold.data hr.used
  have hpos : 0 < (refs.add b) b := by simp [Refs.add]
  have hfirm : ¬ loose (u.key b) := hold.key ▸ hr.firm
  have hinode : u.inode i = s.inode i := congrFun hbeside.inode i
  have hdata' : (u.buf b).bData.setDInode (inodeSlot (u.inode i).iNum) (u.inode i).toDInode =
      (M ((s.inode i).iDev, (s.superBlock sb).inodeBlock (s.inode i).iNum)).setDInode
        (inodeSlot (s.inode i).iNum) (s.inode i).toDInode := by rw [hdata, hinode]
  have hcopied := hold.mapped.copyInode i (hold.dev_ne_zero hr.used) hold.uptodate
  rw [hold.key, hdata'] at hcopied
  have hkey : (u.copyInode i b).key b = u.key b :=
    Sys.key_of_rest (store_rest b _ u) b
  refine .bind_update ((hcopied.putBuff henv hwhich hpos (hkey ▸ hfirm)).bind ?_)
  rintro _ v ⟨hv, hput⟩
  rw [Refs.sub_add] at hv
  refine .update ⟨hv.setInode i _, ?_⟩
  have hframe := (((hbeside₁.trans hbeside).setInode i _).trans
    ((Beside.copyInode u i b).trans (hput.mono (refs.le_add b)))).setInode i fun x =>
    { x with iLock := false }
  rw [Sys.setInode_setInode] at hframe
  exact hframe

end

end Mapped

/-! ## The round trip -/

/-- The block is one of the inode table. -/
def SuperBlock.TableBlock (p : SuperBlock n) (block : ℕ) : Prop :=
  2 + p.sImapBlocks + p.sZmapBlocks ≤ block ∧
    block < 2 + p.sImapBlocks + p.sZmapBlocks + p.tableBlocks

/-- Of the contents only inode `a` of the table has changed, to `d`. -/
structure InodeStored (p : SuperBlock n) (dev a : ℕ) (d : DInode) (M M' : Contents) : Prop where
  stored : p.inodeAt dev M' a = d
  others : ∀ num, 1 ≤ num → num ≤ p.sNinodes → num ≠ a → p.inodeAt dev M' num = p.inodeAt dev M num
  outside : ∀ x, ¬ (x.1 = dev ∧ p.TableBlock x.2) → M' x = M x

section RoundTrip

variable {a num : ℕ}

theorem SuperBlock.inodeAt_writeInode (p : SuperBlock n) (dev a : ℕ) (d : DInode) (M : Contents) :
    p.inodeAt dev (p.writeInode dev M a d) a = d := by
  rw [SuperBlock.inodeAt, SuperBlock.writeInode, Function.update_self]
  exact dInode_setDInode _ d (inodeSlot_lt a)

/-- An inode is written. -/
theorem Mounted.inodeStored (hm : Mounted s dev sb) (hshort : (s.superBlock sb).sNinodes < 65536)
    (ha : 1 ≤ a ∧ a ≤ (s.superBlock sb).sNinodes) (d : DInode) :
    InodeStored (s.superBlock sb) dev a d M ((s.superBlock sb).writeInode dev M a d) where
  stored := SuperBlock.inodeAt_writeInode _ dev a d M
  others num hpos hle hne := by
    rw [SuperBlock.inodeAt, SuperBlock.inodeAt, SuperBlock.writeInode]
    by_cases hblock : (s.superBlock sb).inodeBlock num = (s.superBlock sb).inodeBlock a
    · have hslot : inodeSlot num ≠ inodeSlot a := fun heq =>
        hne (SuperBlock.slot_injective hm.imapBlocks hm.zmapBlocks ⟨hpos, by omega⟩
          ⟨ha.1, by omega⟩ hblock heq)
      rw [hblock, Function.update_self]
      exact dInode_setDInode_ne _ d hslot (inodeSlot_lt num)
    · rw [Function.update_of_ne fun heq => hblock (congrArg Prod.snd heq)]
  outside x hx := by
    refine Function.update_of_ne (fun heq => hx ?_) _ _
    subst heq
    exact ⟨rfl, SuperBlock.inodeBlock_mem hm.imapBlocks hm.zmapBlocks hshort ha⟩

/-- **The inode table.**  After a dirty inode `a` was written, reading it restores its fields,
whatever the entry contains by then; reading another inode of the table gives what it gave
before.  A read changes no other field but the lock.  The blocks of the table lie behind the
bitmaps, and nothing else changes. -/
theorem inode_table_round_trip (henv : env.Works which) (hall : ∀ cmd, which cmd)
    (h : Mapped which used loose M refs s) (hm : Mounted s dev sb)
    (hshort : (s.superBlock sb).sNinodes < 65536)
    (ha : 1 ≤ a ∧ a ≤ (s.superBlock sb).sNinodes)
    (hnum : 1 ≤ num ∧ num ≤ (s.superBlock sb).sNinodes)
    (hra : s.Readable used loose refs dev ((s.superBlock sb).inodeBlock a))
    (hrnum : s.Readable used loose refs dev ((s.superBlock sb).inodeBlock num))
    (hi : (s.inode i).iDev = dev ∧ (s.inode i).iNum = a) (hdirt : (s.inode i).iDirt = true)
    (hj : (s.inode j).iDev = dev ∧ (s.inode j).iNum = num)
    (hlock : (s.inode i).iLock = false) (hlock' : (s.inode j).iLock = false) :
    (∀ m, 1 ≤ m → m ≤ (s.superBlock sb).sNinodes →
      (s.superBlock sb).TableBlock ((s.superBlock sb).inodeBlock m)) ∧
    ∃ before M', InodeStored (s.superBlock sb) dev a (s.inode i).toDInode M M' ∧
      Does (readInodeFromBuff j) env s (fun _ u => Mapped which used loose M refs u ∧
        u.inode = (s.setInode j fun x => { x with toDInode := before, iLock := false }).inode) ∧
      Does (syncInodeToBuff i) env s (fun _ t => Mapped which used loose M' refs t ∧
        t.inode = (s.setInode i fun x => { x with iDirt := false, iLock := false }).inode ∧
        ∀ d, Does (readInodeFromBuff j) env (t.setInode j fun x => { x with toDInode := d })
          fun _ u => Mapped which used loose M' refs u ∧ u.inode = (t.setInode j fun x =>
            { x with
              toDInode := if num = a then (s.inode i).toDInode else before
              iLock := false }).inode) := by
  obtain ⟨hidev, rfl⟩ := hi
  obtain ⟨hjdev, rfl⟩ := hj
  have hstored := hm.inodeStored (M := M) hshort ha (s.inode i).toDInode
  refine ⟨fun m hpos hle => SuperBlock.inodeBlock_mem hm.imapBlocks hm.zmapBlocks hshort
    ⟨hpos, hle⟩, (s.superBlock sb).inodeAt dev M (s.inode j).iNum, _, hstored, ?_, ?_⟩
  · refine (h.readInodeFromBuff henv hall hm hjdev hlock' hrnum).mono ?_
    rintro _ u ⟨hu, hbeside⟩
    exact ⟨hu, hbeside.inode⟩
  refine (h.syncInodeToBuff henv hall hm hidev hlock hdirt hra).mono ?_
  rintro _ t ⟨ht, hbeside⟩
  refine ⟨ht, hbeside.inode, fun d => ?_⟩
  have hm' : Mounted (t.setInode j fun x => { x with toDInode := d }) dev sb :=
    hm.congr hbeside.superBlock
  have hsuper : t.superBlock sb = s.superBlock sb := congrFun hbeside.superBlock sb
  -- the entry `j` keeps its device, its number and its lock
  have hsame : (t.inode j).iDev = dev ∧ (t.inode j).iNum = (s.inode j).iNum ∧
      (t.inode j).iLock = false := by
    rw [hbeside.inode]
    by_cases hji : j = i
    · subst hji
      simp [hidev]
    · simp [hji, hjdev, hlock']
  obtain ⟨htdev, htnum, htlock⟩ := hsame
  have hr : (t.setInode j fun x => { x with toDInode := d }).Readable used loose refs dev
      ((s.superBlock sb).inodeBlock (s.inode j).iNum) :=
    ((hrnum.setInode i _).beside hbeside).setInode j _
  have hread := (ht.setInode j fun x => { x with toDInode := d }).readInodeFromBuff
    (i := j) henv hall hm'
    (by simpa using htdev) (by simpa using htlock) (by simpa [hsuper, htnum] using hr)
  refine hread.mono ?_
  rintro _ u ⟨hu, hframe⟩
  refine ⟨hu, ?_⟩
  rw [hframe.inode, Sys.setInode_setInode]
  have hvalue : (s.superBlock sb).inodeAt dev
      ((s.superBlock sb).writeInode dev M (s.inode i).iNum (s.inode i).toDInode) (s.inode j).iNum =
      if (s.inode j).iNum = (s.inode i).iNum then (s.inode i).toDInode
      else (s.superBlock sb).inodeAt dev M (s.inode j).iNum := by
    by_cases heq : (s.inode j).iNum = (s.inode i).iNum
    · rw [if_pos heq, heq]
      exact hstored.stored
    · rw [if_neg heq]
      exact hstored.others _ hnum.1 hnum.2 heq
  refine congrArg Sys.inode (Sys.setInode_congr ?_)
  rw [← hvalue]
  simp [hsuper, htnum]

end RoundTrip

/-! ## A device with 64 inodes -/

/-- The blocks of the inode table of a device with one block for each bitmap. -/
def tableUsed (x : ℕ × ℕ) : Prop := x = (0x300, 4) ∨ x = (0x300, 5)

/-- A kernel with one header; inodes 1 and 33 of the device `0x300` are in memory, and inode 1
has changed. -/
def twoInodes : Sys 1 :=
  (((initBuff oneHeader).setInode 0 fun x =>
  { x with iDev := 0x300, iNum := 1, iDirt := true }).setInode 1
    fun x => { x with iDev := 0x300, iNum := 33 }).setSuper 0
    fun p => { p with sDev := 0x300, sImapBlocks := 1, sZmapBlocks := 1, sNinodes := 64 }

theorem smallDrive_tableUsed : smallDrive.Tiled tableUsed where
  dev := by
    rintro x (rfl | rfl) <;> decide
  inside := by
    rintro x (rfl | rfl) <;> (unfold Geometry.Inside; decide)
  apart := by
    rintro x y (rfl | rfl) (rfl | rfl) hne <;>
      first
      | exact absurd rfl hne
      | unfold Geometry.Disjoint; decide

theorem twoInodes_mapped :
    ∃ M, Mapped (fun _ => True) tableUsed (fun _ => False) M (fun _ => 0) twoInodes := by
  have hmajor : ∀ x, tableUsed x → major x.1 = 3 := by
    rintro x (rfl | rfl) <;> decide
  have hinit : Mapped (fun _ => True) tableUsed (fun _ => False) _ (fun _ => 0)
    (initBuff oneHeader) :=
    Mapped.init oneHeader_quiet smallDrive_drives rfl smallDrive_tableUsed hmajor
  exact ⟨_, ((hinit.setInode 0 _).setInode 1 _).setSuper 0 _⟩

theorem twoInodes_mounted : Mounted twoInodes 0x300 0 where
  device := by decide
  super := ⟨rfl, by decide⟩
  lock := rfl
  imapBlocks := by decide
  zmapBlocks := by decide
  imapOwn := by decide
  zmapOwn := by decide
  short := by decide

theorem twoInodes_readable {block : ℕ} (hblock : tableUsed (0x300, block)) :
    twoInodes.Readable tableUsed (fun _ => False) (fun _ => 0) 0x300 block :=
  ⟨hblock, not_false, fun _ _ => by decide, .inr ⟨0, rfl⟩⟩

/-- Inode 1 is written and read again, and inode 33 is read before and after that. -/
theorem inode_table_round_trip_two :
    Does (syncInodeToBuff 0) (Env.diligent 0x50) twoInodes (fun _ t =>
      ∀ d, Does (readInodeFromBuff 0) (Env.diligent 0x50)
      (t.setInode 0 fun x => { x with toDInode := d })
        fun _ u => (u.inode 0).toDInode = (twoInodes.inode 0).toDInode) ∧
    ∃ before, Does (readInodeFromBuff 1) (Env.diligent 0x50) twoInodes (fun _ u =>
        (u.inode 1).toDInode = before) ∧
      Does (syncInodeToBuff 0) (Env.diligent 0x50) twoInodes (fun _ t =>
        ∀ d, Does (readInodeFromBuff 1) (Env.diligent 0x50)
        (t.setInode 1 fun x => { x with toDInode := d })
          fun _ u => (u.inode 1).toDInode = before) := by
  obtain ⟨M, hmapped⟩ := twoInodes_mapped
  have hone : 1 ≤ 1 ∧ 1 ≤ (twoInodes.superBlock 0).sNinodes := by decide
  have hnum : 1 ≤ 33 ∧ 33 ≤ (twoInodes.superBlock 0).sNinodes := by decide
  constructor
  · obtain ⟨-, before, M', -, -, hsync⟩ :=
      inode_table_round_trip (i := 0) (j := 0) (diligent_works_all _) (fun _ => trivial) hmapped
        twoInodes_mounted (by decide) hone hone (twoInodes_readable (.inl rfl))
        (twoInodes_readable (.inl rfl)) ⟨rfl, rfl⟩ rfl ⟨rfl, rfl⟩ rfl rfl
    refine hsync.mono fun _ t ht d => (ht.2.2 d).mono ?_
    rintro _ u ⟨-, hu⟩
    rw [hu, Sys.setInode_inode, Function.update_self]
    rfl
  · obtain ⟨-, before, M', -, hread, hsync⟩ :=
      inode_table_round_trip (i := 0) (j := 1) (diligent_works_all _) (fun _ => trivial) hmapped
        twoInodes_mounted (by decide) hone hnum (twoInodes_readable (.inl rfl))
        (twoInodes_readable (.inr rfl)) ⟨rfl, rfl⟩ rfl ⟨rfl, rfl⟩ rfl rfl
    refine ⟨before, hread.mono ?_, hsync.mono fun _ t ht d => (ht.2.2 d).mono ?_⟩
    · rintro _ u ⟨-, hu⟩
      rw [hu, Sys.setInode_inode, Function.update_self]
    · rintro _ u ⟨-, hu⟩
      rw [hu, Sys.setInode_inode, Function.update_self]
      rfl

end EgGS
