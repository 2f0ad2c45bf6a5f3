import EgGS.Fs.InodeCache
import EgGS.Fs.Locate

/-!
# Looking a name up

A directory is a file of entries, and what the blocks of its tree contain says which entry
`retain_inode_by_name` finds: the first that begins with the name.

`scanEntries` keeps the buffer of one block, and turns to the next block at every 32nd entry.  The
loop is taken apart into what it does with one entry (`Holds.look`), from one block to the next
(`Mapped.nextBlock`) and in one round (`Mapped.scanRound`); `Mapped.lookupName` is the whole scan,
for a directory whose blocks all have zones.  What is looked for, `DInode.findEntry`, is defined on
the contents of the blocks alone.

* `directory_lookup`: it hands out the inode of that entry, and changes nothing but the entry of
  `inode_list`.
-/

namespace EgGS

open Lib Prog

variable {n : ℕ} {env : Env n} {k : ℕ} {s t u : Sys n} {dev x nr block : ℕ} {sb : Fin nrSuper}
variable {which : Rw → Prop} {used loose : ℕ × ℕ → Prop} {M M₁ M₂ : Contents} {refs : Refs n}
variable {inode i : Fin nrInode} {b : Fin n} {V : ℕ → DInode} {d : DInode}
variable {name : ℕ → UInt8} {namelen entries e j m : ℕ}

/-! ## The entries of a directory -/

/-- The block with entry `i` of a directory. -/
def DInode.entryBlock (d : DInode) (M : Contents) (dev i : ℕ) : Block :=
  M (dev, d.blockZone M dev (i / dirEntriesPerBlock))

/-- The inode number of entry `i` of a directory. -/
def DInode.entryNum (d : DInode) (M : Contents) (dev i : ℕ) : ℕ :=
  (d.entryBlock M dev i).entryInode (i % dirEntriesPerBlock)

/-- Entry `i` of a directory begins with the name. -/
def DInode.entryMatch (d : DInode) (M : Contents) (dev : ℕ) (name : ℕ → UInt8) (namelen i : ℕ) :
    Bool :=
  matchName namelen name ((d.entryBlock M dev i).entryName (i % dirEntriesPerBlock))

/-- The first entry of a directory that begins with the name. -/
def DInode.findEntry (d : DInode) (M : Contents) (dev : ℕ) (name : ℕ → UInt8)
    (namelen entries : ℕ) :
    Option ℕ :=
  (List.range entries).find? (d.entryMatch M dev name namelen)

/-- The first `entries` entries of a directory are there without a hole: their blocks have zones,
and what its tree names can be read. -/
structure Unbroken (used loose : ℕ × ℕ → Prop) (M : Contents) (refs : Refs n) (s : Sys n) (dev : ℕ)
    (d : DInode) (entries : ℕ) : Prop where
  zone : ∀ j, dirEntriesPerBlock * j < entries → d.blockZone M dev j ≠ 0
  bound : entries ≤ dirEntriesPerBlock * maxBlocks
  read : ∀ p, d.zoneAt M dev p ≠ 0 → s.Readable used loose refs dev (d.zoneAt M dev p)

theorem Unbroken.beside (h : Unbroken used loose M refs s dev d entries)
    (hbeside : Beside refs s t) :
    Unbroken used loose M refs t dev d entries :=
  ⟨h.zone, h.bound, fun p hp => (h.read p hp).beside hbeside⟩

/-! ## From block to block -/

section

variable (henv : env.Works which) (hall : ∀ cmd, which cmd)
include henv hall

/-- **`put_buff`** of a buffer that is held leaves its contents where they are. -/
theorem Holds.put (h : Holds which used loose M refs dev block b s) (hused : used (dev, block))
    (hfirm : ¬ loose (dev, block)) : Does (putBuff (some b)) env s fun _ t =>
      Mapped which used loose M refs t ∧ Beside refs s t ∧ (t.buf b).bData = M (dev, block) := by
  have hpos : 0 < (refs.add b) b := by simp [Refs.add]
  refine (h.mapped.waitOnBuff henv b).bind ?_
  rintro _ t ⟨hpath, -⟩
  refine .bind_read ?_
  have ht := h.mapped.submits henv (hall .write) hpath
  have hbeside : Beside (refs.add b) s t := h.mapped.beside henv (hall .write) hpath
  have hkey : t.key b = (dev, block) := (hbeside.key b hpos).trans h.key
  have hdata : (t.buf b).bData = M (dev, block) := by
    rw [ht.coherent.cached b (ht.dev_of_key hused hkey) (hbeside.uptodate b hpos h.uptodate), hkey]
  have hcount : (t.buf b).bCount ≠ 0 := by
    rw [ht.counted.count]
    exact hpos.ne'
  refine .ite (fun hzero => absurd hzero hcount) fun _ => .update ⟨?_, ?_, ?_⟩
  · rw [← Refs.sub_add refs b]
    exact ht.down hpos (hkey ▸ hfirm)
  · exact (hbeside.mono (refs.le_add b)).trans (.countDown t b)
  · simpa [Sys.countDown] using hdata

/-- The next block of a directory is looked for, and read. -/
theorem Mapped.nextBlock (hold : Holds which used loose M refs dev x b s) (hused : used (dev, x))
    (hfirm : ¬ loose (dev, x)) (hd : (s.inode inode).toDInode = d)
    (hdev : (s.inode inode).iDev = dev)
    (hlist : Unbroken used loose M refs s dev d entries) (hj : dirEntriesPerBlock * j < entries) :
    Does (nextBlock inode j false b) env s fun found t => ∃ c, found = some (some c) ∧
      Holds which used loose M refs dev (d.blockZone M dev j) c t ∧ Beside refs s t := by
  have hblock : j < maxBlocks := by
    have := hlist.bound
    unfold dirEntriesPerBlock at *
    omega
  have hne := hlist.zone j hj
  refine (hold.put henv hall hused hfirm).bind ?_
  rintro _ t ⟨ht, hbeside, -⟩
  have hlist' := hlist.beside hbeside
  have hinode : t.inode inode = s.inode inode := congrFun hbeside.inode inode
  have hdev' : (t.inode inode).iDev = dev := hinode ▸ hdev
  have hlocate := ht.locate henv hall hblock hdev' fun q _ hq => by
    rw [hinode, hd] at hq ⊢
    exact hlist'.read q hq
  refine hlocate.bind ?_
  rintro _ u ⟨rfl, hu, hbeside'⟩
  rw [hinode, hd]
  have hr := (hlist'.beside hbeside').read (blockPos j) hne
  have hdev' : (u.inode inode).iDev = dev := by rw [hbeside'.inode, hinode, hdev]
  refine .ite (fun h0 => absurd h0 hne) fun _ => .bind_read ?_
  rw [hdev']
  refine (hu.readBuff henv (hall .write) hr.used hr.room hr.header).bind ?_
  rintro (_ | c) v hread
  · exact absurd hall hread.2.2
  · exact .pure ⟨c, rfl, hread.1, (hbeside.trans hbeside').trans hread.2.1⟩

omit henv hall in
/-- An entry of a block that is held is compared. -/
theorem Holds.look (h : Holds which used loose M refs dev (d.blockZone M dev j) b s)
    (hused : used (dev, d.blockZone M dev j)) (he : e < dirEntriesPerBlock) :
    Does ((nameScan name namelen entries).look (dirEntriesPerBlock * j + e) e b) env s fun x t =>
      s = t ∧
      x = if d.entryMatch M dev name namelen (dirEntriesPerBlock * j + e) then .inr
      (some b, some (b, e))
        else .inl (dirEntriesPerBlock * j + e + 1, e + 1, some b) := by
  have hdiv : (dirEntriesPerBlock * j + e) / dirEntriesPerBlock = j := by
    unfold dirEntriesPerBlock at *
    omega
  have hmod : (dirEntriesPerBlock * j + e) % dirEntriesPerBlock = e := by
    unfold dirEntriesPerBlock at *
    omega
  have hmatch : matchName namelen name ((s.buf b).bData.entryName e) =
      d.entryMatch M dev name namelen (dirEntriesPerBlock * j + e) := by
    rw [DInode.entryMatch, DInode.entryBlock, hdiv, hmod, h.data hused]
  refine .bind_read (.ite (fun hyes => .pure ⟨rfl, ?_⟩) fun hno => .pure ⟨rfl, ?_⟩)
  · rw [if_pos (hmatch.symm.trans hyes)]
  · rw [if_neg fun hyes => hno (hmatch.trans hyes)]

variable (name namelen) in
/-- One round of the loop: the entry is compared, in its block or in the next one. -/
theorem Mapped.lookRound (hd : (s.inode inode).toDInode = d) (hdev : (s.inode inode).iDev = dev)
    (hlist : Unbroken used loose M refs s dev d entries) (he : e ≤ dirEntriesPerBlock)
    (hne : d.blockZone M dev j ≠ 0)
    (hold : Holds which used loose M refs dev (d.blockZone M dev j) b t)
    (hbeside : Beside refs s t) (hmore : dirEntriesPerBlock * j + e < entries) :
    Does ((nameScan name namelen entries).round inode (dirEntriesPerBlock * j + e) e (some b)) env t
      fun x u => ∃ c j' e', dirEntriesPerBlock * j' + e' = dirEntriesPerBlock * j + e ∧
        e' < dirEntriesPerBlock ∧ d.blockZone M dev j' ≠ 0 ∧
        Holds which used loose M refs dev (d.blockZone M dev j') c u ∧ Beside refs s u ∧
        x = if d.entryMatch M dev name namelen (dirEntriesPerBlock * j + e) then .inr
        (some c, some (c, e'))
          else .inl (dirEntriesPerBlock * j + e + 1, e' + 1, some c) := by
  have hr := hlist.read (blockPos j) hne
  refine .ite (fun _ => .ite (fun hge => ?_) fun hlt => ?_) fun hno => absurd hmore
    (by simpa [nameScan] using hno)
  · -- the next block
    obtain rfl : e = dirEntriesPerBlock := le_antisymm he hge
    have hturn : dirEntriesPerBlock * j + dirEntriesPerBlock = dirEntriesPerBlock * (j + 1) :=
      (Nat.mul_succ _ _).symm
    have hdiv : (dirEntriesPerBlock * j + dirEntriesPerBlock) / dirEntriesPerBlock = j + 1 := by
      unfold dirEntriesPerBlock
      omega
    have hzone := hlist.zone (j + 1) (hturn ▸ hmore)
    have hinode : t.inode inode = s.inode inode := congrFun hbeside.inode inode
    rw [hdiv, hturn]
    refine (Mapped.nextBlock henv hall hold hr.used hr.firm (hinode ▸ hd) (hinode ▸ hdev)
      (hlist.beside hbeside) (hturn ▸ hmore)).bind ?_
    rintro _ u ⟨c, rfl, hold', hnext⟩
    refine (hold'.look (e := 0) (hlist.read (blockPos (j + 1)) hzone).used (by decide)).mono ?_
    rintro x _ ⟨rfl, rfl⟩
    exact ⟨c, j + 1, 0, rfl, by decide, hzone, hold', hbeside.trans hnext, rfl⟩
  · refine (hold.look hr.used (not_le.mp hlt)).mono ?_
    rintro x _ ⟨rfl, rfl⟩
    exact ⟨b, j, e, rfl, not_le.mp hlt, hne, hold, hbeside, rfl⟩

variable (name namelen) in
/-- The loop over the entries ends with the first one that begins with the name. -/
theorem Mapped.scanRound (hd : (s.inode inode).toDInode = d) (hdev : (s.inode inode).iDev = dev)
    (hlist : Unbroken used loose M refs s dev d entries) (m : ℕ) :
    ∀ (j e : ℕ) (b : Fin n) (t : Sys n),
    entries ≤ dirEntriesPerBlock * j + e + m → e ≤ dirEntriesPerBlock → d.blockZone M dev j ≠ 0 →
    Holds which used loose M refs dev (d.blockZone M dev j) b t → Beside refs s t →
    (∀ i < dirEntriesPerBlock * j + e, d.entryMatch M dev name namelen i = false) →
    LoopDoes (fun x => (nameScan name namelen entries).round inode x.1 x.2.1 x.2.2) env
      (dirEntriesPerBlock * j + e, e, some b) t fun x u => ∃ c j, x.1 = some c ∧
        d.blockZone M dev j ≠ 0 ∧ Holds which used loose M refs dev (d.blockZone M dev j) c u ∧
        Beside refs s u ∧ (d.findEntry M dev name namelen entries = none → x.2 = none) ∧
        ∀ i, d.findEntry M dev name namelen entries = some i →
          x.2 = some (c, i % dirEntriesPerBlock) ∧ i / dirEntriesPerBlock = j := by
  -- on the number of entries that are left; no entry before this one matches
  induction m with
  | zero =>
      intro j e b t hle _ hne hold hbeside hbefore
      have hnone : d.findEntry M dev name namelen entries = none :=
        List.find?_range_eq_none.mpr fun i hi => by simp [hbefore i (by omega)]
      refine .done (.ite (fun hmore => absurd hmore ?_) fun _ => .pure
        ⟨_, rfl, b, j, rfl, hne, hold, hbeside, ?_, ?_⟩)
      · simp only [nameScan, decide_eq_true_eq]
        omega
      · exact fun _ => rfl
      · exact fun i hi => absurd (hnone.symm.trans hi) (by simp)
  | succ m ih =>
      intro j e b t hle he hne hold hbeside hbefore
      by_cases hmore : dirEntriesPerBlock * j + e < entries
      · have hround := Mapped.lookRound name namelen henv hall hd hdev hlist he hne hold
          hbeside hmore
        -- this entry matches and is the first one that does, or the scan goes on behind it
        cases hmatch : d.entryMatch M dev name namelen (dirEntriesPerBlock * j + e) with
        | true =>
            have hsome :
                d.findEntry M dev name namelen entries = some (dirEntriesPerBlock * j + e) :=
              List.find?_range_eq_some.mpr
                ⟨hmatch, List.mem_range.mpr hmore, fun i hi => by simp [hbefore i hi]⟩
            refine .done (hround.mono ?_)
            rintro x u ⟨c, j', e', hsum, he', hne', hold', hbeside', rfl⟩
            rw [if_pos hmatch]
            refine ⟨_, rfl, c, j', rfl, hne', hold', hbeside', ?_, ?_⟩
            · exact fun hnone => absurd (hsome.symm.trans hnone) (by simp)
            · intro i hi
              obtain rfl : dirEntriesPerBlock * j + e = i := by simpa [hsome] using hi
              rw [← hsum]
              unfold dirEntriesPerBlock at *
              exact ⟨by simp only [Option.some.injEq, Prod.mk.injEq, true_and]; omega, by omega⟩
        | false =>
            refine .step (hround.mono ?_)
            rintro x u ⟨c, j', e', hsum, he', hne', hold', hbeside', rfl⟩
            rw [if_neg (by simp [hmatch]), ← hsum]
            refine ⟨_, rfl, ih j' (e' + 1) c u (by omega) he' hne' hold' hbeside' fun i hi => ?_⟩
            rcases Nat.lt_succ_iff_lt_or_eq.mp
              (show i < dirEntriesPerBlock * j + e + 1 by omega) with hlt | rfl
            · exact hbefore i hlt
            · exact hmatch
      · refine .done (.ite (fun hyes => absurd hyes ?_) fun _ => .pure
          ⟨_, rfl, b, j, rfl, hne, hold, hbeside, ?_, ?_⟩)
        · simpa [nameScan] using hmore
        · exact fun _ => rfl
        · intro i hi
          obtain ⟨hyes, hlt, -⟩ := List.find?_range_eq_some.mp hi
          exact absurd (hyes.symm.trans (hbefore i (by have := List.mem_range.mp hlt; omega)))
            (by simp)

/-! ## One name -/

omit henv hall in
theorem scanEntries_rounds (inode : Fin nrInode) (name : ℕ → UInt8) (namelen entries : ℕ)
    (bh : Fin n) :
    scanEntries inode name namelen entries bh =
      Prog.iterate (fun x => (nameScan name namelen entries).round inode x.1 x.2.1 x.2.2)
      (0, 0, some bh) :=
  funext fun _ => funext fun _ => funext fun _ => scanEntries_eq inode name namelen entries bh

/-- **The search in a directory** reads the inode of the first entry that begins with the name. -/
theorem Mapped.lookupName {Q : Fin nrInode × Option (Fin nrInode) → Sys n → Prop}
    (h : Mapped which used loose M refs s) (hd : (s.inode inode).toDInode = d)
    (hdev : (s.inode inode).iDev = dev) (hlist : Unbroken used loose M refs s dev d entries)
    (hnone : d.findEntry M dev name namelen entries = none → ∀ t, Mapped which used loose M refs t →
      Beside refs s t → Q (inode, none) t)
    (hsome : ∀ i, d.findEntry M dev name namelen entries = some i → ∀ t,
    Mapped which used loose M refs t →
      Beside refs s t → Does (readInode dev (d.entryNum M dev i)) env t fun x u => Q
      (inode, some x) u) :
    Does (lookupName inode name namelen entries) env s Q := by
  have hzone : ((s.inode inode).iZone 0).toNat = d.blockZone M dev 0 := by
    rw [← hd]
    rfl
  refine .bind_read (.ite (fun h0 => .pure (hnone ?_ s h (.refl refs s))) fun hne => ?_)
  · -- there is no entry
    have hzero : d.blockZone M dev 0 = 0 := by rw [← hzone, h0]; rfl
    refine List.find?_range_eq_none.mpr fun i hi => absurd (hlist.zone 0 (by omega)) ?_
    exact fun hne => hne hzero
  have hne' : d.blockZone M dev 0 ≠ 0 := fun h0 => hne (UInt16.toNat_inj.mp (hzone.trans h0))
  have hr := hlist.read (blockPos 0) hne'
  rw [hdev, hzone]
  refine (h.readBuff henv (hall .write) hr.used hr.room hr.header).bind ?_
  rintro (_ | b) t hread
  · exact absurd hall hread.2.2
  obtain ⟨hold, hbeside, -⟩ := hread
  have hscan := Mapped.scanRound name namelen henv hall hd hdev hlist entries 0 0 b t
    (by omega) (by decide) hne' hold hbeside fun i hi => absurd hi (by omega)
  have hloop := hscan.does
  rw [Nat.mul_zero, Nat.add_zero, ← scanEntries_rounds] at hloop
  refine hloop.bind ?_
  rintro ⟨buf, found⟩ u ⟨c, j, rfl, hne'', hold', hbeside', hmissing, hfound⟩
  have hr' := hlist.read (blockPos j) hne''
  refine (hold'.put henv hall hr'.used hr'.firm).bind ?_
  rintro _ v ⟨hv, hput, hdata⟩
  have hboth := hbeside'.trans hput
  cases hfind : d.findEntry M dev name namelen entries with
  | none =>
      obtain rfl : found = none := hmissing hfind
      exact .pure (hnone hfind v hv hboth)
  | some i =>
      obtain ⟨heq, rfl⟩ := hfound i hfind
      obtain rfl : found = some (c, i % dirEntriesPerBlock) := heq
      refine .bind_read ?_
      -- the buffer was given back, and still has its contents
      have hdev' : (v.inode inode).iDev = dev := by rw [hboth.inode, hdev]
      have hnum : (v.buf c).bData.entryInode (i % dirEntriesPerBlock) = d.entryNum M dev i := by
        rw [hdata]
        rfl
      rw [hdev', hnum]
      exact (hsome i hfind v hv hboth).bind fun x w hQ => .pure hQ

/-- The root of a device that is not mounted over has no other parent. -/
theorem crossDots_does (h : Mapped which used loose M refs s) (hm : Mounted s dev sb)
    (hdev : (s.inode inode).iDev = dev) (hroot : (s.superBlock sb).sImount = none) :
    Does (crossDots inode name namelen) env s fun x t => inode = x ∧
    Mapped which used loose M refs t ∧
      Beside refs s t := by
  subst hdev
  refine .ite (fun _ => .bind_read (.ite (fun _ => ?_) fun _ => ?_)) fun _ => ?_
  · refine (hm.findSuper.does (Q := fun a t => a = some sb ∧ t = s.setIntr false)
      ⟨rfl, rfl⟩).bind ?_
    rintro _ _ ⟨rfl, rfl⟩
    refine .bind_read ?_
    have hnone : ((s.setIntr false).superBlock sb).sImount = none := hroot
    simp only [hnone]
    exact .pure ⟨rfl, h.setIntr henv (hall .write) false,
      ⟨rfl, rfl, rfl, rfl, fun _ _ => rfl, fun _ _ => id⟩⟩
  · exact .pure ⟨rfl, h, .refl refs s⟩
  · exact .pure ⟨rfl, h, .refl refs s⟩

end

/-- **`retain_inode_by_name`** in a directory without a hole. -/
theorem InodeTable.retainInodeByName (henv : env.Works which) (hall : ∀ cmd, which cmd)
    (h : InodeTable which used M refs s dev sb V) (hi : (s.inode i).Is dev nr)
    (hroot : (s.superBlock sb).sImount = none) (hpos : 0 < namelen)
    (hlist : Unbroken used (fun _ => False) M refs s dev (V nr) ((V nr).iSize.toNat / 32))
    (hnum : ∀ e,
      (V nr).findEntry M dev name (min namelen nameLen) ((V nr).iSize.toNat / 32) = some e →
      (V nr).entryNum M dev e ∈ (s.superBlock sb).numbers ∧
      ((∃ j, (s.inode j).Is dev ((V nr).entryNum M dev e)) ∨ ∃ j, (s.inode j).iCount = 0) ∧
      ∀ j, (s.inode j).Is dev ((V nr).entryNum M dev e) → (s.inode j).iCount < 65535) :
    Does (retainInodeByName i name namelen) env s fun x t =>
      ((V nr).findEntry M dev name (min namelen nameLen) ((V nr).iSize.toNat / 32) = none →
        x = (i, none) ∧ TableStep which used M refs s dev sb V M t ∧ t.inode = s.inode) ∧
      ∀ e, (V nr).findEntry M dev name (min namelen nameLen) ((V nr).iSize.toNat / 32) = some e →
        ∃ j M₁, x = (i, some j) ∧
          InodeRead which used M refs s dev sb V ((V nr).entryNum M dev e) M₁ j t := by
  have hd := h.value hi
  have hcut : ¬ min namelen nameLen = 0 := by
    unfold nameLen
    omega
  refine .bind_read (.ite (fun h0 => absurd h0 hcut) fun _ => ?_)
  rw [hd]
  refine (crossDots_does henv hall h.mapped h.mounted hi.1 hroot).bind ?_
  rintro _ t ⟨rfl, ht, hbeside⟩
  have htd : (t.inode i).toDInode = V nr := by rw [hbeside.inode, hd]
  refine ht.lookupName henv hall htd (hbeside.inode ▸ hi.1) (hlist.beside hbeside)
    (fun hnone u hu hboth => ?_)
    fun e hfound u hu hboth => ?_
  · have hwhole := hbeside.trans hboth
    refine ⟨fun _ => ⟨rfl, ⟨h.beside hu hwhole, .of_beside hwhole, fun _ _ => rfl⟩, hwhole.inode⟩,
      ?_⟩
    -- no entry has the name: nothing but buffers was touched
    exact fun e hfound => absurd (hnone.symm.trans hfound) (by simp)
  · have hwhole := hbeside.trans hboth
    -- the first entry that has the name says which inode is read
    obtain ⟨hin, hfree, hroom⟩ := hnum e hfound
    have hread := (h.beside hu hwhole).readInode henv hall
      (show (V nr).entryNum M dev e ∈ (u.superBlock sb).numbers from hwhole.superBlock ▸ hin)
      (hwhole.inode ▸ hfree) (hwhole.inode ▸ hroom)
    refine hread.mono ?_
    rintro j v ⟨M₁, hread⟩
    refine ⟨fun hnone => absurd (hfound.symm.trans hnone) (by simp), fun e' hfound' => ?_⟩
    obtain rfl : e = e' := by simpa [hfound] using hfound'
    refine ⟨j, M₁, rfl, ?_, hread.entry, ?_, ?_, ?_⟩
    · exact TableStep.trans ⟨h.beside hu hwhole, .of_beside hwhole, fun _ _ => rfl⟩ hread.step
    · exact fun j' hj => (hread.others j' hj).trans (congrFun hwhole.inode j')
    · rw [hread.count, hwhole.inode]
    · exact fun hpos => hwhole.inode ▸ hread.held (hwhole.inode ▸ hpos)

/-- **Looking a name up.**  Let a directory have no hole.  If none of its `i_size / 32` entries
begins with the name, `retain_inode_by_name` returns `NULL`; otherwise it hands out the inode of the
first that does. No inode changes, no other entry of `inode_list`, and no contents but those of the
inode table. -/
theorem directory_lookup (henv : env.Works which) (hall : ∀ cmd, which cmd)
    (h : InodeTable which used M refs s dev sb V) (hi : (s.inode i).Is dev nr)
    (hroot : (s.superBlock sb).sImount = none) (hpos : 0 < namelen)
    (hlist : Unbroken used (fun _ => False) M refs s dev (V nr) ((V nr).iSize.toNat / 32))
    (hnum : ∀ e < (V nr).iSize.toNat / 32,
      (V nr).entryMatch M dev name (min namelen nameLen) e = true →
      (V nr).entryNum M dev e ∈ (s.superBlock sb).numbers)
    (hfree : ∃ j, (s.inode j).iCount = 0) (hroom : ∀ j, (s.inode j).iCount < 65535) :
    Does (retainInodeByName i name namelen) env s fun x t => ∃ M₁,
      InodeTable which used M₁ refs t dev sb V ∧ (s.superBlock sb).TableOnly dev M M₁ ∧
      ((∀ e < (V nr).iSize.toNat / 32,
        (V nr).entryMatch M dev name (min namelen nameLen) e = false) →
        x = (i, none) ∧ t.inode = s.inode) ∧
      ∀ e < (V nr).iSize.toNat / 32, (V nr).entryMatch M dev name (min namelen nameLen) e = true →
        (∀ e' < e, (V nr).entryMatch M dev name (min namelen nameLen) e' = false) →
        ∃ j, x = (i, some j) ∧ (t.inode j).Is dev ((V nr).entryNum M dev e) ∧
          (t.inode j).toDInode = V ((V nr).entryNum M dev e) ∧
          (t.inode j).iCount = (s.inode j).iCount + 1 ∧ ∀ j', j' ≠ j → t.inode j' = s.inode j' := by
  have hsome (e : ℕ)
      (he : (V nr).findEntry M dev name (min namelen nameLen) ((V nr).iSize.toNat / 32) = some e) :
      e < (V nr).iSize.toNat / 32 ∧
        (V nr).entryMatch M dev name (min namelen nameLen) e = true := by
    obtain ⟨hmatch, hlt, -⟩ := List.find?_range_eq_some.mp he
    exact ⟨List.mem_range.mp hlt, hmatch⟩
  refine (h.retainInodeByName henv hall hi hroot hpos hlist fun e he =>
    ⟨?_, .inr hfree, fun j _ => hroom j⟩).mono ?_
  · exact hnum e (hsome e he).1 (hsome e he).2
  rintro x t ⟨hnone, hfound⟩
  cases hfind : (V nr).findEntry M dev name (min namelen nameLen) ((V nr).iSize.toNat / 32) with
  | none =>
      obtain ⟨rfl, hstep, hinode⟩ := hnone hfind
      refine ⟨M, hstep.table, hstep.outside, fun _ => ⟨rfl, hinode⟩, fun e he hmatch _ => ?_⟩
      exact absurd hmatch (by simpa using List.find?_range_eq_none.mp hfind e he)
  | some e =>
      obtain ⟨j, M₁, rfl, hread⟩ := hfound e hfind
      obtain ⟨hlt, hmatch⟩ := hsome e hfind
      refine ⟨M₁, hread.step.table, hread.step.outside, fun hno => ?_,
        fun e' hlt' hmatch' hfirst => ?_⟩
      · exact absurd (hmatch.symm.trans (hno e hlt)) (by decide)
      · have heq : (V nr).findEntry M dev name (min namelen nameLen) ((V nr).iSize.toNat / 32) =
          some e' :=
          List.find?_range_eq_some.mpr
          ⟨hmatch', List.mem_range.mpr hlt', fun a ha => by simp [hfirst a ha]⟩
        obtain rfl : e = e' := Option.some_injective _ (hfind.symm.trans heq)
        exact ⟨j, rfl, hread.entry, hread.step.table.value hread.entry, hread.count, hread.others⟩

/-! ## A directory with two entries -/

/-- Block 4 has inode 1, a directory in block 5, inode 2, a directory in block 6, and inode 3, a
file. The entries of the first directory are `b` and `a`, that of the second is `c`. -/
def dirDisk : Disk := fun _ sector i =>
  if sector = 8 then
    if i = 0 ∨ i = 32 then 0xED else if i = 1 ∨ i = 33 then 0x41
    else if i = 4 then 64 else if i = 36 then 32
    else if i = 13 ∨ i = 45 then 2 else if i = 14 then 5 else if i = 46 then 6
    else if i = 64 then 0xA4 else if i = 65 then 0x81 else if i = 77 then 1 else 0
  else if sector = 10 then
    if i = 0 then 3 else if i = 2 then 0x62 else if i = 32 then 2 else if i = 34 then 0x61 else 0
  else if sector = 12 then
    if i = 0 then 3 else if i = 2 then 0x63 else 0
  else 0

/-- The block of the inode table and those of the directories. -/
def dirUsed (x : ℕ × ℕ) : Prop := x.1 = 0x300 ∧ (x.2 = 4 ∨ x.2 = 5 ∨ x.2 = 6)

/-- A kernel with one header, and the device mounted. -/
def dirStart : Sys 1 :=
  (initBuff (initRequestQueue
    { (Sys.load dirDisk) with geo := smallDrive, hdEnabled := true })).setSuper 0 fun p =>
      { p with sDev := 0x300, sImapBlocks := 1, sZmapBlocks := 1, sNinodes := 32,
               sFirstdatazone := 5 }

/-- The contents of the disk. -/
def dirContents : Contents := fun x => dirStart.diskBlock x.1 x.2

/-- The inodes of the disk. -/
def dirInodes : ℕ → DInode := (dirStart.superBlock 0).inodeAt 0x300 dirContents

/-- The first directory is in memory, with one reference. -/
def dirHeld : Sys 1 :=
  dirStart.setInode 1 fun _ =>
  { MInode.zero with toDInode := dirInodes 1, iDev := 0x300, iNum := 1, iCount := 1 }

theorem dirUsed_tiled : smallDrive.Tiled dirUsed where
  dev := by
    rintro ⟨dev, block⟩ ⟨hdev, -⟩
    dsimp only at hdev
    subst hdev
    exact (by decide : 1 ≤ 0x300 ∧ 0x300 < 65536)
  inside := by
    rintro ⟨dev, block⟩ ⟨hdev, hblock⟩
    dsimp only at hdev hblock
    subst hdev
    obtain rfl | rfl | rfl := hblock <;> (unfold Geometry.Inside; decide)
  apart := by
    rintro ⟨dev, block⟩ ⟨dev', block'⟩ ⟨hdev, hblock⟩ ⟨hdev', hblock'⟩ hne
    dsimp only at hdev hblock hdev' hblock'
    subst hdev hdev'
    obtain rfl | rfl | rfl := hblock <;> obtain rfl | rfl | rfl := hblock' <;>
      first | exact absurd rfl hne | (unfold Geometry.Disjoint; decide)

theorem dirStart_readable {block : ℕ} (h : block = 4 ∨ block = 5 ∨ block = 6) :
    dirStart.Readable dirUsed (fun _ => False) (fun _ => 0) 0x300 block :=
  ⟨⟨rfl, h⟩, not_false, fun _ _ => by decide, .inr ⟨0, rfl⟩⟩

theorem dirStart_blocks :
    ∀ nr : Fin 33, 1 ≤ nr.val → (dirStart.superBlock 0).inodeBlock nr = 4 := by
  decide

theorem dirStart_table : InodeTable (fun _ => True) dirUsed dirContents
    (fun _ => 0) dirStart 0x300 0 dirInodes := by
  have hmajor : ∀ x, dirUsed x → major x.1 = 3 := fun x hx => by rw [hx.1]; rfl
  have hquiet : Sys.Quiet
    ({ Sys.load dirDisk with geo := smallDrive, hdEnabled := true } : Sys 1) :=
    ⟨rfl, by decide, rfl, rfl⟩
  have hinit : Mapped (fun _ => True) dirUsed (fun _ => False) _ (fun _ => 0) _ :=
    .init hquiet smallDrive_drives rfl dirUsed_tiled hmajor
  have hmounted : Mounted dirStart 0x300 0 :=
    { device := by decide
      super := ⟨rfl, by decide⟩
      lock := rfl
      imapBlocks := by decide
      zmapBlocks := by decide
      imapOwn := by decide
      zmapOwn := by decide
      short := by decide }
  refine .init (hinit.setSuper 0 _) hmounted (by decide) (fun _ => rfl) fun nr hnr => ?_
  exact dirStart_readable (.inl (dirStart_blocks ⟨nr, Nat.lt_succ_of_le hnr.2⟩ hnr.1))

theorem dirHeld_table : InodeTable (fun _ => True) dirUsed dirContents
    (fun _ => 0) dirHeld 0x300 0 dirInodes := by
  have hnr : 1 ∈ (dirStart.superBlock 0).numbers := ⟨le_rfl, by decide⟩
  have hnone (j : Fin nrInode) : 1 ∉ (dirStart.entries 0x300 j).key := fun hin =>
    absurd (MInode.mem_key.mp hin).1 (by decide : 0 ≠ 0x300)
  exact dirStart_table.setEntry (dirStart_table.mapped.setInode 1 _) (.refl _ _) rfl rfl (by decide)
    (fun _ => rfl) (fun hd => by cases hd) (dirStart_table.cached.load (i := 1) rfl hnr hnone)

/-- The trees of the two directories. -/
theorem dirInodes_zoneAt (p : ZonePos) :
    (dirInodes 1).zoneAt dirContents 0x300 p = (if p = .root 0 then 5 else 0) ∧
    (dirInodes 2).zoneAt dirContents 0x300 p = (if p = .root 0 then 6 else 0) := by
  have hfirst : ∀ z : Fin 9, ((dirInodes 1).iZone z).toNat = if z = 0 then 5 else 0 := by decide
  have hsecond : ∀ z : Fin 9, ((dirInodes 2).iZone z).toNat = if z = 0 then 6 else 0 := by decide
  cases p with
  | root z => simp [DInode.zoneAt, hfirst, hsecond]
  | single w => simp [DInode.zoneAt, hfirst, hsecond, namedBy_zero]
  | table w => simp [DInode.zoneAt, hfirst, hsecond, namedBy_zero]
  | double w w' => simp [DInode.zoneAt, hfirst, hsecond, namedBy_zero]

theorem dirHeld_unbroken {nr : ℕ} (hnr : nr = 1 ∨ nr = 2) :
    Unbroken dirUsed (fun _ => False) dirContents
    (fun _ => 0) dirHeld 0x300 (dirInodes nr) ((dirInodes nr).iSize.toNat / 32) := by
  have hsize : (dirInodes 1).iSize.toNat / 32 = 2 ∧ (dirInodes 2).iSize.toNat / 32 = 1 := by decide
  have hread (block : ℕ) (h : block = 4 ∨ block = 5 ∨ block = 6) :
      dirHeld.Readable dirUsed (fun _ => False) (fun _ => 0) 0x300 block :=
      (dirStart_readable h).setInode 1 _
  rcases hnr with rfl | rfl
  · rw [hsize.1]
    refine ⟨fun j hj => ?_, by decide, fun p hp => ?_⟩
    · obtain rfl : j = 0 := by
        unfold dirEntriesPerBlock at hj
        omega
      exact (by decide : (dirInodes 1).blockZone dirContents 0x300 0 ≠ 0)
    · rw [(dirInodes_zoneAt p).1] at hp ⊢
      split_ifs at hp ⊢
      · exact hread 5 (.inr (.inl rfl))
      · exact absurd rfl hp
  · rw [hsize.2]
    refine ⟨fun j hj => ?_, by decide, fun p hp => ?_⟩
    · obtain rfl : j = 0 := by
        unfold dirEntriesPerBlock at hj
        omega
      exact (by decide : (dirInodes 2).blockZone dirContents 0x300 0 ≠ 0)
    · rw [(dirInodes_zoneAt p).2] at hp ⊢
      split_ifs at hp ⊢
      · exact hread 6 (.inr (.inr rfl))
      · exact absurd rfl hp

/-- The name `a` is found in the second entry. -/
theorem directory_lookup_second : Does (retainInodeByName 1 (fun _ => 0x61) 1)
    (Env.diligent 0x50) dirHeld
    fun x t => ∃ j, x = (1, some j) ∧ (t.inode j).Is 0x300 2 := by
  have hroom : ∀ j, (dirHeld.inode j).iCount < 65535 := by decide
  have hnums : ∀ e : Fin 2, 1 ≤ (dirInodes 1).entryNum dirContents 0x300 e ∧
      (dirInodes 1).entryNum dirContents 0x300 e ≤ (dirHeld.superBlock 0).sNinodes := by decide
  have hsize : (dirInodes 1).iSize.toNat / 32 = 2 := by decide
  have hfirst : ∀ e < 1, (dirInodes 1).entryMatch dirContents 0x300 (fun _ => 0x61)
    (min 1 nameLen) e = false := by
    decide
  have hsecond :
      (dirInodes 1).entryMatch dirContents 0x300 (fun _ => 0x61) (min 1 nameLen) 1 = true := by
    decide
  have hnum : (dirInodes 1).entryNum dirContents 0x300 1 = 2 := by decide
  have hdir : (dirHeld.inode 1).Is 0x300 1 := ⟨rfl, rfl⟩
  refine (directory_lookup (diligent_works_all _) (fun _ => trivial) dirHeld_table hdir rfl
    (by decide)
    (dirHeld_unbroken (.inl rfl)) (fun e he _ => hnums ⟨e, hsize ▸ he⟩) ⟨0, rfl⟩ hroom).mono ?_
  rintro x t ⟨M₁, -, -, -, hfound⟩
  obtain ⟨j, rfl, hj, -⟩ := hfound 1 (by rw [hsize]; decide) hsecond hfirst
  exact ⟨j, rfl, hnum ▸ hj⟩

end EgGS
