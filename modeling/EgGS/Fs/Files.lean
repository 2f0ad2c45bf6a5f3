import EgGS.Cache.Steps
import EgGS.Fs.Grow
import EgGS.Lib.Files

/-!
# Files

The regular files and directories of a mounted device are used in any order: blocks are looked for
with `locate_by_inode`, with or without `create`, their buffers are read, filled and given back, and
files are truncated.  Other inodes of the device may have trees of their own.

* `zone_ownership`: no zone ever belongs to two places, and `locate_by_inode` without `create`
  returns the zone that the block was given first.
* `files_refine_map`: a block that is read has the contents that it was given last, whatever
  happened to other blocks and other files.
-/

namespace EgGS

open Lib Prog

variable {n : ℕ} {ι κ : Type} {env : Env n} {k : ℕ} {s s₀ t u : Sys n} {dev x z block : ℕ}
variable {sb : Fin nrSuper} {which : Rw → Prop} {used loose : ℕ × ℕ → Prop} {M M₁ M₂ : Contents}
variable {refs : Refs n} {i j : Fin nrInode} {b : Fin n} {p q : ZonePos} {d d' : ι → DInode} {o : ι}

/-! ## Trees that stay -/

/-- The trees name what they named, and the bits that were set are set. -/
theorem OwnsTrees.congr (h : OwnsTrees M refs s dev sb d) (hsuper : t.superBlock = s.superBlock)
    (hzone : ∀ o p, (d' o).zoneAt M₁ dev p = (d o).zoneAt M dev p)
    (hbits : ∀ m, s.zmap sb m = some true → t.zmap sb m = some true)
    (hunheld : ∀ z, s.Unheld refs dev z → t.Unheld refs dev z) : OwnsTrees M₁ refs t dev sb d' where
  once o p o' q := by
    rw [hzone, hzone]
    exact h.once o p o' q
  data o p hp := by
    rw [hzone] at hp ⊢
    rw [hsuper]
    exact h.data o p hp
  taken o p hp := by
    rw [hzone] at hp ⊢
    rw [hsuper]
    exact hbits _ (h.taken o p hp)
  unheld o p hp := by
    rw [hzone] at hp ⊢
    exact hunheld _ (h.unheld o p hp)

/-- The tree of one inode is gone, and the others name what they named. -/
theorem OwnsTrees.cut (h : OwnsTrees M refs s dev sb d) (hsuper : t.superBlock = s.superBlock)
    (hgone : ∀ p, (d' o).zoneAt M₁ dev p = 0)
    (hzone : ∀ o' p, o' ≠ o → (d' o').zoneAt M₁ dev p = (d o').zoneAt M dev p)
    (hbits : ∀ m, (∀ z ∈ (d o).zones M dev, (s.superBlock sb).zoneBit z ≠ m) →
      t.zmap sb m = s.zmap sb m)
    (hunheld : ∀ z, s.Unheld refs dev z → t.Unheld refs dev z) : OwnsTrees M₁ refs t dev sb d' := by
  have hne {o' : ι} {p : ZonePos} (hp : (d' o').zoneAt M₁ dev p ≠ 0) : o' ≠ o := by
    rintro rfl
    exact hp (hgone p)
  refine ⟨fun o₁ p₁ o₂ p₂ hp heq => ?_, fun o₁ p hp => ?_, fun o₁ p hp => ?_, fun o₁ p hp => ?_⟩
  · have h₁ := hne hp
    have h₂ : o₂ ≠ o := hne (heq ▸ hp)
    rw [hzone _ _ h₁] at hp heq
    rw [hzone _ _ h₂] at heq
    exact h.once o₁ p₁ o₂ p₂ hp heq
  · have h₁ := hne hp
    rw [hzone _ _ h₁] at hp ⊢
    rw [hsuper]
    exact h.data o₁ p hp
  · have h₁ := hne hp
    rw [hzone _ _ h₁] at hp ⊢
    rw [hsuper, hbits]
    · exact h.taken o₁ p hp
    · rintro z ⟨hz, q, rfl⟩ hbit
      have heq := SuperBlock.zoneBit_injective (h.data o q hz) (h.data o₁ p hp) hbit
      exact h₁ (h.once o q o₁ p hz heq).1.symm
  · have h₁ := hne hp
    rw [hzone _ _ h₁] at hp ⊢
    exact hunheld _ (h.unheld o₁ p hp)

/-- An inode without zones. -/
def DInode.empty : DInode := MInode.zero.toDInode

theorem DInode.zoneAt_zero {d : DInode} (h : ∀ z, d.iZone z = 0) (M : Contents) (dev : ℕ)
    (p : ZonePos) :
    d.zoneAt M dev p = 0 := by
  have hroot (z : Fin 9) : (d.iZone z).toNat = 0 := congrArg UInt16.toNat (h z)
  cases p with
  | root z => exact hroot z
  | single w => simp [DInode.zoneAt, h, namedBy_zero]
  | table w => simp [DInode.zoneAt, h, namedBy_zero]
  | double w w' => simp [DInode.zoneAt, h, namedBy_zero]

/-! ## The files of a device -/

/-- The trees of the files in memory, and those of other inodes. -/
def Sys.trees (s : Sys n) (files : Finset (Fin nrInode)) (others : κ → DInode) :
    Fin nrInode ⊕ κ → DInode
  | .inl j => if j ∈ files then (s.inode j).toDInode else DInode.empty
  | .inr o => others o

/-- The entries `files` are regular files and directories of a mounted device.  No zone belongs to
two places of their trees or of the trees of other inodes. -/
structure FileSystem (which : Rw → Prop) (used : ℕ × ℕ → Prop) (M : Contents) (refs : Refs n)
    (s : Sys n) (dev : ℕ) (sb : Fin nrSuper) (files : Finset (Fin nrInode))
    (others : κ → DInode) : Prop where
  mapped : Mapped which used (fun _ => False) M refs s
  volume : Volume used refs s dev sb
  fenced : Fenced used s dev sb
  owns : OwnsTrees M refs s dev sb (s.trees files others)
  iDev : ∀ i ∈ files, (s.inode i).iDev = dev
  kind : ∀ i ∈ files, hasZones (s.inode i).iMode = true

namespace FileSystem

variable {files : Finset (Fin nrInode)} {others : κ → DInode}

theorem trees_file (s : Sys n) (others : κ → DInode) (hi : i ∈ files) :
    s.trees files others (.inl i) = (s.inode i).toDInode := if_pos hi

/-- One file has changed. -/
theorem trees_update [DecidableEq (Fin nrInode ⊕ κ)] (hi : i ∈ files)
    (hsame : ∀ j, j ≠ i → t.inode j = s.inode j) :
    t.trees files others =
      Function.update (s.trees files others) (.inl i) (t.inode i).toDInode := by
  funext o
  cases o with
  | inl j =>
      by_cases hj : j = i
      · subst hj
        rw [Function.update_self]
        exact if_pos hi
      · rw [Function.update_of_ne (by simpa using hj)]
        simp only [Sys.trees, hsame j hj]
  | inr o => rw [Function.update_of_ne (by simp)]; rfl

variable (h : FileSystem which used M refs s dev sb files others)
include h

theorem tree (hi : i ∈ files) : OwnsTree M refs s dev sb (s.inode i).toDInode :=
  trees_file s others hi ▸ h.owns.tree (.inl i)

/-- The zone of a block is not the zone of an index block. -/
theorem ne_above (hi : i ∈ files) {o : Fin nrInode ⊕ κ} (hq : q ∈ p.above)
    (hne : (s.trees files others o).zoneAt M dev q ≠ 0) :
    (dev, (s.trees files others o).zoneAt M dev q) ≠ (dev, (s.inode i).blockZone M dev block) := by
  intro heq
  have hzone : (s.trees files others o).zoneAt M dev q =
      (s.trees files others (.inl i)).zoneAt M dev (blockPos block) := by
    rw [trees_file s others hi]
    exact (Prod.ext_iff.mp heq).2
  obtain ⟨-, rfl⟩ := h.owns.once _ _ _ _ hne hzone
  exact blockPos_notMem_above block p hq

/-- A call that changes no contents and no inode. -/
theorem beside (ht : Mapped which used (fun _ => False) M refs t) (hbeside : Beside refs s t) :
    FileSystem which used M refs t dev sb files others := by
  have hzmap : t.zmap sb = s.zmap sb := h.volume.zmap_eq hbeside h.mapped ht
  have htrees : t.trees files others = s.trees files others := by
    funext o
    cases o with
    | inl j => simp only [Sys.trees, hbeside.inode]
    | inr o => rfl
  refine ⟨ht, h.volume.beside hbeside, ?_, ?_, fun i hi => ?_, fun i hi => ?_⟩
  · exact h.fenced.beside h.volume hbeside ((congrFun hzmap 0).trans h.fenced.zero)
      fun m hm => h.fenced.behind m (hzmap ▸ hm)
  · rw [htrees]
    exact h.owns.congr hbeside.superBlock (fun _ _ => rfl) (fun m hm => hzmap ▸ hm)
      fun _ hz => hz.beside hbeside
  · rw [hbeside.inode]
    exact h.iDev i hi
  · rw [hbeside.inode]
    exact h.kind i hi

end FileSystem

/-! ## What happens to blocks -/

/-- The zones of the blocks of files. -/
def Sys.zoneMap (s : Sys n) (M : Contents) (dev : ℕ) : Files (Fin nrInode) ℕ := fun i block =>
  if (s.inode i).blockZone M dev block = 0 then none else some ((s.inode i).blockZone M dev block)

/-- The contents of the blocks of files. -/
def Sys.blockMap (s : Sys n) (M : Contents) (dev : ℕ) : Files (Fin nrInode) Block := fun i block =>
  (s.zoneMap M dev i block).map fun z => M (dev, z)

/-- From `s` to `t` the blocks of files that are not `out` kept their zones and their contents, and
other inodes their trees. -/
structure BlocksKept (M : Contents) (s : Sys n) (M₁ : Contents) (t : Sys n) (dev : ℕ)
    (files : Finset (Fin nrInode)) (others : κ → DInode) (out : Fin nrInode → ℕ → Prop) : Prop where
  zone : ∀ j ∈ files, ∀ block < maxBlocks, ¬ out j block →
    (t.inode j).blockZone M₁ dev block = (s.inode j).blockZone M dev block
  contents : ∀ j ∈ files, ∀ block < maxBlocks, ¬ out j block →
    (s.inode j).blockZone M dev block ≠ 0 →
    M₁ (dev, (s.inode j).blockZone M dev block) = M (dev, (s.inode j).blockZone M dev block)
  others : ∀ o p, (others o).zoneAt M₁ dev p = (others o).zoneAt M dev p

section Kept

variable {files : Finset (Fin nrInode)} {others : κ → DInode} {out : Fin nrInode → ℕ → Prop}

theorem BlocksKept.zoneMap (h : BlocksKept M s M₁ t dev files others out) (hj : j ∈ files)
    (hblock : block < maxBlocks) (hout : ¬ out j block) :
    t.zoneMap M₁ dev j block = s.zoneMap M dev j block := by
  unfold Sys.zoneMap
  rw [h.zone j hj block hblock hout]

theorem BlocksKept.blockMap (h : BlocksKept M s M₁ t dev files others out) (hj : j ∈ files)
    (hblock : block < maxBlocks) (hout : ¬ out j block) :
    t.blockMap M₁ dev j block = s.blockMap M dev j block := by
  unfold Sys.blockMap
  rw [h.zoneMap hj hblock hout]
  unfold Sys.zoneMap
  by_cases h0 : (s.inode j).blockZone M dev block = 0
  · simp [h0]
  · simp [h0, h.contents j hj block hblock hout h0]

namespace FileSystem

section Steps

variable (henv : env.Works which) (hall : ∀ cmd, which cmd)
  (h : FileSystem which used M refs s dev sb files others) (hi : i ∈ files) (hspare : Spare refs)
include henv hall h hi hspare

/-- **A block is looked for** without `create`. -/
theorem locate (hblock : block < maxBlocks) : Does (locateByInode i block false) env s fun z t =>
    z = (s.inode i).blockZone M dev block ∧ Mapped which used (fun _ => False) M refs t ∧
      Beside refs s t := by
  obtain ⟨c, -, -, hc, -⟩ := hspare
  refine h.mapped.locate henv hall hblock (h.iDev i hi) fun q _ hq => ?_
  have hz := (h.tree hi).erasable hq
  exact ⟨h.volume.zones _ hz.data, not_false, hz.unheld.roomy, .inr ⟨c, hc⟩⟩

/-- **A block is given a zone**, if it has none. -/
theorem create (hblock : block < maxBlocks) : Ensures (locateByInode i block true) env s fun z t =>
    ∃ M₁, FileSystem which used M₁ refs t dev sb files others ∧
      BlocksKept M s M₁ t dev files others
        (fun j c => j = i ∧ c = block ∧ (s.inode i).blockZone M dev block = 0) ∧
      z = (t.inode i).blockZone M₁ dev block ∧
      ((s.inode i).blockZone M dev block ≠ 0 → z = (s.inode i).blockZone M dev block) ∧
      ((s.inode i).blockZone M dev block = 0 → z ≠ 0 → M₁ (dev, z) = zeroBlock) := by
  classical
  refine (h.mapped.locateCreate henv hall h.volume h.fenced h.owns (trees_file s others hi)
    (h.iDev i hi)
    hspare hblock).mono ?_
  rintro z t ⟨P, M₁, hloc, howns, hP, rfl⟩
  have hother (j : Fin nrInode) (hj : j ≠ i) : t.inode j = s.inode j := by
    rw [hloc.beside.inode]
    simp [Sys.setInode, hj]
  have hentry (j : Fin nrInode) : (t.inode j).iDev = (s.inode j).iDev ∧
      (t.inode j).iMode = (s.inode j).iMode := by
    by_cases hj : j = i
    · subst hj
      rw [hloc.inode]
      exact ⟨rfl, rfl⟩
    · rw [hother j hj]
      exact ⟨rfl, rfl⟩
  have htrees : t.trees files others = _ := trees_update hi hother
  -- the index blocks of another tree, and the blocks of all files, are not on the way
  have habove {q' : ZonePos} {o : Fin nrInode ⊕ κ} {q : ZonePos} (hq' : ∃ p ∈ P, q' ∈ p.above)
      (hq : (s.trees files others o).zoneAt M dev q ≠ 0) (hne : ¬ (o = .inl i ∧ q' = q)) :
      (s.inode i).zoneAt M dev q' ≠ (s.trees files others o).zoneAt M dev q := by
    intro heq
    rw [← trees_file s others hi] at heq
    obtain ⟨ho, hqq⟩ := h.owns.once _ _ _ _ (heq ▸ hq) heq
    exact hne ⟨ho.symm, hqq⟩
  have hsame {o : Fin nrInode ⊕ κ} {q : ZonePos} (hq : (s.trees files others o).zoneAt M dev q ≠ 0)
      (hne : ∀ q', (∃ p ∈ P, q' ∈ p.above) → ¬ (o = .inl i ∧ q' = q)) :
      M₁ (dev, (s.trees files others o).zoneAt M dev q) =
        M (dev, (s.trees files others o).zoneAt M dev q) :=
    hloc.contents _ (h.owns.data o q hq) (h.owns.taken o q hq) fun p hp q' hq' =>
      habove ⟨p, hp, hq'⟩ hq (hne q' ⟨p, hp, hq'⟩)
  have hzone {o : Fin nrInode ⊕ κ} (ho : o ≠ .inl i) (q : ZonePos) :
      (s.trees files others o).zoneAt M₁ dev q = (s.trees files others o).zoneAt M dev q :=
    DInode.zoneAt_congr _ fun q' _ hq' => hsame hq' fun _ _ hbad => ho hbad.1
  refine ⟨M₁, ⟨hloc.mapped, hloc.volume h.volume, hloc.fenced, htrees ▸ howns, fun j hj => ?_,
    fun j hj => ?_⟩, ⟨fun j hj c hc hout => ?_, fun j hj c hc _ hne => ?_,
    fun o q => hzone (o := .inr o)
      (by simp) q⟩, rfl, fun hne => hloc.kept _ hne, fun h0 hne => hloc.zeroed block h0 hne⟩
  · exact (hentry j).1.trans (h.iDev j hj)
  · rw [(hentry j).2]
    exact h.kind j hj
  · -- a block of the file itself, or of another one, whose tree was not touched
    by_cases hji : j = i
    · subst hji
      by_cases h0 : (s.inode j).blockZone M dev c = 0
      · -- a block without a zone, which is not the one that is looked for
        refine hloc.zoneAt _ fun hin => ?_
        rcases hP _ hin with heq | hin'
        · have hcb := blockPos_injective hc hblock heq
          subst hcb
          exact hout ⟨rfl, rfl, h0⟩
        · exact blockPos_notMem_above c _ hin'
      · exact hloc.kept _ h0
    · have hzone' := hzone (o := .inl j) (by simpa using hji) (blockPos c)
      rw [trees_file s others hj] at hzone'
      unfold DInode.blockZone
      rw [hother j hji, hzone']
  · -- the contents of a block that has a zone: only index blocks on the way were written
    have hzone' := hsame (o := .inl j) (q := blockPos c)
    rw [trees_file s others hj] at hzone'
    refine hzone' hne fun q' hq' hbad => ?_
    obtain ⟨p, -, hp⟩ := hq'
    exact blockPos_notMem_above c p (hbad.2 ▸ hp)

/-- **A file is truncated.** -/
theorem truncate : Does (truncate i) env s fun _ t =>
    ∃ M₁, FileSystem which used M₁ refs t dev sb files others ∧
      BlocksKept M s M₁ t dev files others (fun j _ => j = i) ∧
      ∀ block, (t.inode i).blockZone M₁ dev block = 0 := by
  classical
  have htree := h.tree hi
  refine (h.mapped.truncate henv hall h.volume (h.iDev i hi) (h.kind i hi) htree hspare).mono ?_
  rintro _ t ⟨M₁, hfreed⟩
  have hv := h.volume.setInode i MInode.cut
  have hinode (j : Fin nrInode) : t.inode j = (s.setInode i MInode.cut).inode j :=
    congrFun hfreed.beside.inode j
  have hother (j : Fin nrInode) (hj : j ≠ i) : t.inode j = s.inode j := by
    rw [hinode]
    simp [Sys.setInode, hj]
  have hcut : t.inode i = (s.inode i).cut := by
    rw [hinode]
    simp [Sys.setInode]
  have hgone (p : ZonePos) : (t.inode i).zoneAt M₁ dev p = 0 := by
    refine DInode.zoneAt_zero (fun z => ?_) M₁ dev p
    rw [hcut]
    rfl
  have hentry (j : Fin nrInode) : (t.inode j).iDev = (s.inode j).iDev ∧
      (t.inode j).iMode = (s.inode j).iMode := by
    by_cases hj : j = i
    · subst hj
      rw [hcut]
      exact ⟨rfl, rfl⟩
    · rw [hother j hj]
      exact ⟨rfl, rfl⟩
  have htrees : t.trees files others = _ := trees_update hi hother
  -- the zones of other trees were not freed
  have hsame {o : Fin nrInode ⊕ κ} (ho : o ≠ .inl i) {q : ZonePos}
      (hq : (s.trees files others o).zoneAt M dev q ≠ 0) :
      M₁ (dev, (s.trees files others o).zoneAt M dev q) =
        M (dev, (s.trees files others o).zoneAt M dev q) := by
    refine hfreed.same hv (h.owns.data o q hq) ?_
    rintro ⟨hne, p, heq⟩
    rw [← trees_file s others hi] at heq
    exact ho (h.owns.once _ _ _ _ (heq ▸ hne) heq).1.symm
  have hzone {o : Fin nrInode ⊕ κ} (ho : o ≠ .inl i) (q : ZonePos) :
      (s.trees files others o).zoneAt M₁ dev q = (s.trees files others o).zoneAt M dev q :=
    DInode.zoneAt_congr _ fun q' _ hq' => hsame ho hq'
  have hbits (m : ℕ) (hm : ∀ z ∈ (s.inode i).zones M dev, (s.superBlock sb).zoneBit z ≠ m) :
      t.zmap sb m = s.zmap sb m := hfreed.others m hm
  have hsuper : t.superBlock = s.superBlock := hfreed.beside.superBlock
  have hunheld (z : ℕ) (hz : s.Unheld refs dev z) : t.Unheld refs dev z :=
    Sys.Unheld.beside (s := s.setInode i MInode.cut) hz hfreed.beside
  refine ⟨M₁, ⟨hfreed.mapped, hfreed.volume hv, ?_, ?_, fun j hj => ?_, fun j hj => ?_⟩,
    ⟨fun j hj c _ hout => ?_, fun j hj c _ hout hne => ?_, fun o q => hzone (o := .inr o)
      (by simp) q⟩, fun c => hgone _⟩
  · -- the bits that were cleared are those of data zones
    refine (h.fenced.setInode i MInode.cut).beside hv hfreed.beside ?_ fun m hm => ?_
    · rw [hbits]
      · exact h.fenced.zero
      · rintro z ⟨hz, p, rfl⟩ hbit
        have hle := (htree.data p hz).1
        unfold SuperBlock.zoneBit at hbit
        omega
    · by_cases hin : ∃ z ∈ (s.inode i).zones M dev, (s.superBlock sb).zoneBit z = m
      · -- a bit that was cleared: its zone was a data zone of this device
        obtain ⟨z, hz, rfl⟩ := hin
        have hdata := htree.zones_data z hz
        have hfirst := h.fenced.first
        unfold SuperBlock.DataZone at hdata
        show (s.superBlock sb).bitZone ((s.superBlock sb).zoneBit z) < (s.superBlock sb).sNzones
        unfold SuperBlock.bitZone SuperBlock.zoneBit
        omega
      · -- any other bit was clear before, and is of a zone of the device
        rw [hbits m fun z hz heq => hin ⟨z, hz, heq⟩] at hm
        exact h.fenced.behind m hm
  · rw [htrees]
    -- the tree of the file is gone, and the others name what they named
    refine h.owns.cut (o := .inl i) hsuper (fun p => ?_) (fun o p ho => ?_) (fun m hm => ?_) hunheld
    · rw [Function.update_self]
      exact hgone p
    · rw [Function.update_of_ne ho]
      exact hzone ho p
    · rw [trees_file s others hi] at hm
      exact hbits m hm
  · exact (hentry j).1.trans (h.iDev j hj)
  · rw [(hentry j).2]
    exact h.kind j hj
  · have hzone' := hzone (o := .inl j) (by simpa using hout) (blockPos c)
    rw [trees_file s others hj] at hzone'
    unfold DInode.blockZone
    rw [hother j hout, hzone']
  · have hsame' := hsame (o := .inl j) (by simpa using hout) (q := blockPos c)
    rw [trees_file s others hj] at hsame'
    exact hsame' hne

/-- **A block is read.** -/
theorem read (hne : (s.inode i).blockZone M dev block ≠ 0) :
    Does (readBuff dev ((s.inode i).blockZone M dev block)) env s
      (ReadBuff which used (fun _ => False) M refs dev ((s.inode i).blockZone M dev block) s) := by
  obtain ⟨c, -, -, hc, -⟩ := hspare
  have hz := (h.tree hi).erasable (p := blockPos block) hne
  exact h.mapped.readBuff henv (hall .write) (h.volume.zones _ hz.data) hz.unheld.roomy
    (.inr ⟨c, hc⟩)

omit hspare in
/-- **A block is filled** with other contents. -/
theorem fill (data : Block) (hne : (s.inode i).blockZone M dev block ≠ 0)
    (hread : ReadBuff which used (fun _ => False) M refs dev ((s.inode i).blockZone M dev block) s
    (some b) u) :
    Ensures (putBuff (some b)) env (store b data u) fun _ t =>
      FileSystem which used
      (Function.update M (dev, (s.inode i).blockZone M dev block) data) refs t dev sb
        files others ∧ t.inode = s.inode := by
  set z := (s.inode i).blockZone M dev block with hzdef
  obtain ⟨⟨hu, hkey, hup, -⟩, hbeside, -⟩ := hread
  have hdata := (h.tree hi).data (blockPos block) hne
  have hused := h.volume.zones z hdata
  have hpos : 0 < (refs.add b) b := by simp [Refs.add]
  have hstore := hu.store data (hu.dev_of_key hused hkey) hup
  rw [hkey] at hstore
  have hbeside' : Beside (refs.add b) u (store b data u) := by
    refine .of_rest (store_rest b data u) fun c hc => ?_
    by_cases hcb : c = b
    · subst hcb
      simpa [store] using hc
    · simpa [store, hcb] using hc
  refine ((putBuff_stable (some b)).ensures
    (hstore.putBuff henv (hall .write) hpos not_false)).mono ?_
  rintro _ t ⟨ht, hput⟩
  rw [Refs.sub_add] at ht
  have hboth : Beside refs s t := hbeside.trans ((hbeside'.trans hput).mono (refs.le_add b))
  -- a data zone is no block of the bitmap, so the bits stay
  have hzmap : t.zmap sb = s.zmap sb := by
    unfold Sys.zmap
    rw [hboth.superBlock]
    refine h.volume.zheld.bitmap_eq hboth h.mapped.coherent ht.coherent fun y hy => ?_
    refine Function.update_of_ne ?_ _ _
    rintro rfl
    exact h.volume.zapart z hdata hy
  have htrees : t.trees files others = s.trees files others := by
    funext o
    cases o with
    | inl j => simp only [Sys.trees, hboth.inode]
    | inr o => rfl
  refine ⟨⟨ht, h.volume.beside hboth, ?_, ?_, fun j hj => ?_, fun j hj => ?_⟩, hboth.inode⟩
  · exact h.fenced.beside h.volume hboth ((congrFun hzmap 0).trans h.fenced.zero)
      fun m hm => h.fenced.behind m (hzmap ▸ hm)
  · rw [htrees]
    refine h.owns.congr hboth.superBlock (fun o p => ?_) (fun m hm => hzmap ▸ hm) fun _ hz =>
      hz.beside hboth
    -- nor is it an index block of a tree: every tree names what it named
    exact DInode.zoneAt_congr _ fun q hq hqne => Function.update_of_ne (h.ne_above hi hq hqne) _ _
  · rw [hboth.inode]
    exact h.iDev j hj
  · rw [hboth.inode]
    exact h.kind j hj

end Steps

end FileSystem

end Kept

/-! ## Runs -/

/-- What happens to a block, or to a whole file. -/
inductive FileEvent where
  | made (i : Fin nrInode) (block zone : ℕ)
  | filled (i : Fin nrInode) (block : ℕ) (data : Block)
  | emptied (i : Fin nrInode)

/-- The zones of blocks after an event; a block keeps the zone that it was given. -/
def FileEvent.zones : FileEvent → Files (Fin nrInode) ℕ → Files (Fin nrInode) ℕ
  | .made i block z, f => if z = 0 then f else f.make i block z
  | .filled _ _ _, f => f
  | .emptied i, f => f.clear i

/-- The contents of blocks after an event; a new block has zeros. -/
def FileEvent.blocks : FileEvent → Files (Fin nrInode) Block → Files (Fin nrInode) Block
  | .made i block z, f => if z = 0 then f else f.make i block zeroBlock
  | .filled i block data, f => f.write i block data
  | .emptied i, f => f.clear i

/-- The runs over files, with what has happened, the last first. -/
inductive FileRun (env : Env n) (dev : ℕ) (files : Finset (Fin nrInode)) (s₀ : Sys n) :
    List FileEvent → Sys n → Prop
  | start : FileRun env dev files s₀ [] s₀
  | locate {events : List FileEvent} {s t : Sys n} {i : Fin nrInode} {block k z : ℕ} :
      FileRun env dev files s₀ events s → i ∈ files → block < maxBlocks →
      locateByInode i block false env k s = .ok z t → FileRun env dev files s₀ events t
  | create {events : List FileEvent} {s t : Sys n} {i : Fin nrInode} {block k z : ℕ} :
      FileRun env dev files s₀ events s → i ∈ files → block < maxBlocks →
      locateByInode i block true env k s = .ok z t →
      FileRun env dev files s₀ (.made i block z :: events) t
  | read {events : List FileEvent} {s t u v : Sys n} {i : Fin nrInode} {block k k' k'' z : ℕ}
      {b : Fin n} :
      FileRun env dev files s₀ events s → i ∈ files → block < maxBlocks →
      locateByInode i block false env k s = .ok z t → z ≠ 0 →
      readBuff dev z env k' t = .ok (some b) u → putBuff (some b) env k'' u = .ok () v →
      FileRun env dev files s₀ events v
  | fill {events : List FileEvent} {s t u v : Sys n} {i : Fin nrInode} {block k k' k'' z : ℕ}
      {b : Fin n} (data : Block) :
      FileRun env dev files s₀ events s → i ∈ files → block < maxBlocks →
      locateByInode i block false env k s = .ok z t → z ≠ 0 →
      readBuff dev z env k' t = .ok (some b) u →
      putBuff (some b) env k'' (store b data u) = .ok () v →
      FileRun env dev files s₀ (.filled i block data :: events) v
  | truncate {events : List FileEvent} {s t : Sys n} {i : Fin nrInode} {k : ℕ} :
      FileRun env dev files s₀ events s → i ∈ files → truncate i env k s = .ok () t →
      FileRun env dev files s₀ (.emptied i :: events) t
  | sync {events : List FileEvent} {s t : Sys n} {dev' k : ℕ} :
      FileRun env dev files s₀ events s → syncDev dev' env k s = .ok () t →
      FileRun env dev files s₀ events t
  | idle {events : List FileEvent} {s t : Sys n} {k : ℕ} :
      FileRun env dev files s₀ events s → idle env k s = .ok () t →
      FileRun env dev files s₀ events t

/-- The blocks of the files have the zones and the contents that the events gave them, and other
inodes have the trees that they had. -/
structure Follows (M₀ : Contents) (s₀ : Sys n) (dev : ℕ) (files : Finset (Fin nrInode))
    (others : κ → DInode) (events : List FileEvent) (M : Contents) (s : Sys n) : Prop where
  zones : ∀ j ∈ files, ∀ block < maxBlocks,
    s.zoneMap M dev j block = events.foldr FileEvent.zones (s₀.zoneMap M₀ dev) j block
  blocks : ∀ j ∈ files, ∀ block < maxBlocks,
    s.blockMap M dev j block = events.foldr FileEvent.blocks (s₀.blockMap M₀ dev) j block
  others : ∀ o p, (others o).zoneAt M dev p = (others o).zoneAt M₀ dev p

namespace Follows

variable {files : Finset (Fin nrInode)} {others : κ → DInode} {M₀ : Contents}
  {events : List FileEvent}
variable {out : Fin nrInode → ℕ → Prop}

theorem start : Follows M₀ s₀ dev files others [] M₀ s₀ :=
  ⟨fun _ _ _ _ => rfl, fun _ _ _ _ => rfl, fun _ _ => rfl⟩

/-- A call that changes no contents and no inode. -/
theorem beside (h : Follows M₀ s₀ dev files others events M s) (hinode : t.inode = s.inode) :
    Follows M₀ s₀ dev files others events M t := by
  have hzones : t.zoneMap M dev = s.zoneMap M dev := by
    unfold Sys.zoneMap
    rw [hinode]
  have hblocks : t.blockMap M dev = s.blockMap M dev := by
    unfold Sys.blockMap
    rw [hzones]
  exact ⟨hzones ▸ h.zones, hblocks ▸ h.blocks, h.others⟩

/-- A block is given a zone, or there is none left. -/
theorem made (h : Follows M₀ s₀ dev files others events M s)
    (hkept : BlocksKept M s M₁ t dev files others
      (fun j c => j = i ∧ c = block ∧ (s.inode i).blockZone M dev block = 0))
    (hi : i ∈ files) (hblock : block < maxBlocks) (hz : z = (t.inode i).blockZone M₁ dev block)
    (hold : (s.inode i).blockZone M dev block ≠ 0 → z = (s.inode i).blockZone M dev block)
    (hnew : (s.inode i).blockZone M dev block = 0 → z ≠ 0 → M₁ (dev, z) = zeroBlock) :
    Follows M₀ s₀ dev files others (.made i block z :: events) M₁ t := by
  have hzones := h.zones i hi block hblock
  have hblocks := h.blocks i hi block hblock
  refine ⟨fun j hj c hc => ?_, fun j hj c hc => ?_, fun o p => (hkept.others o p).trans
    (h.others o p)⟩
  · rw [List.foldr_cons, FileEvent.zones]
    -- only the block that was asked for can have changed
    by_cases hjc : j = i ∧ c = block
    · obtain ⟨rfl, rfl⟩ := hjc
      -- it had no zone, and has the new one now, or it had one and keeps it
      by_cases h0 : (s.inode j).blockZone M dev c = 0
      · have hnone : s.zoneMap M dev j c = none := if_pos h0
        rw [Sys.zoneMap, ← hz]
        by_cases hz0 : z = 0
        · rw [if_pos hz0, if_pos hz0, ← hzones, hnone]
        · rw [if_neg hz0, if_neg hz0, Files.make_none _ _ (hzones.symm.trans hnone)]
      · have hsome : s.zoneMap M dev j c = some ((s.inode j).blockZone M dev c) := if_neg h0
        rw [hkept.zoneMap hj hc (fun hout => h0 hout.2.2), if_neg (hold h0 ▸ h0),
          Files.make_some _ _ (hzones.symm.trans hsome), hzones]
    · have hout : ¬ (j = i ∧ c = block ∧ (s.inode i).blockZone M dev block = 0) :=
        fun hout => hjc ⟨hout.1, hout.2.1⟩
      rw [hkept.zoneMap hj hc hout, h.zones j hj c hc]
      by_cases hz0 : z = 0
      · rw [if_pos hz0]
      · rw [if_neg hz0, Files.make_of_ne _ _ hjc]
  · rw [List.foldr_cons, FileEvent.blocks]
    -- the same for the contents, which begin with zeros
    by_cases hjc : j = i ∧ c = block
    · obtain ⟨rfl, rfl⟩ := hjc
      by_cases h0 : (s.inode j).blockZone M dev c = 0
      · have hnone : s.blockMap M dev j c = none := by
          rw [Sys.blockMap, Sys.zoneMap, if_pos h0, Option.map_none]
        rw [Sys.blockMap, Sys.zoneMap, ← hz]
        by_cases hz0 : z = 0
        · rw [if_pos hz0, if_pos hz0, Option.map_none, ← hblocks, hnone]
        · rw [if_neg hz0, if_neg hz0, Option.map_some, hnew h0 hz0,
            Files.make_none _ _ (hblocks.symm.trans hnone)]
      · have hsome : s.blockMap M dev j c = some (M (dev, (s.inode j).blockZone M dev c)) := by
          rw [Sys.blockMap, Sys.zoneMap, if_neg h0, Option.map_some]
        rw [hkept.blockMap hj hc (fun hout => h0 hout.2.2), if_neg (hold h0 ▸ h0),
          Files.make_some _ _ (hblocks.symm.trans hsome), hblocks]
    · have hout : ¬ (j = i ∧ c = block ∧ (s.inode i).blockZone M dev block = 0) :=
        fun hout => hjc ⟨hout.1, hout.2.1⟩
      rw [hkept.blockMap hj hc hout, h.blocks j hj c hc]
      by_cases hz0 : z = 0
      · rw [if_pos hz0]
      · rw [if_neg hz0, Files.make_of_ne _ _ hjc]

/-- A block is filled. -/
theorem filled (h : Follows M₀ s₀ dev files others events M s)
    (hfiles : FileSystem which used M refs s dev sb files others) (hi : i ∈ files)
    (hblock : block < maxBlocks) (hne : (s.inode i).blockZone M dev block ≠ 0) (data : Block)
    (hinode : t.inode = s.inode) :
    Follows M₀ s₀ dev files others (.filled i block data :: events)
      (Function.update M (dev, (s.inode i).blockZone M dev block) data) t := by
  set M₁ := Function.update M (dev, (s.inode i).blockZone M dev block) data
  have htrees (o : Fin nrInode ⊕ κ) (p : ZonePos) :
      (s.trees files others o).zoneAt M₁ dev p = (s.trees files others o).zoneAt M dev p :=
    DInode.zoneAt_congr _ fun q hq hqne => Function.update_of_ne (hfiles.ne_above hi hq hqne) _ _
  have hzone (j : Fin nrInode) (hj : j ∈ files) (c : ℕ) :
      (t.inode j).blockZone M₁ dev c = (s.inode j).blockZone M dev c := by
    have heq := htrees (.inl j) (blockPos c)
    rw [FileSystem.trees_file s others hj] at heq
    rw [hinode]
    exact heq
  have hzones (j : Fin nrInode) (hj : j ∈ files) (c : ℕ) :
      t.zoneMap M₁ dev j c = s.zoneMap M dev j c := by
    unfold Sys.zoneMap
    rw [hzone j hj]
  refine ⟨fun j hj c hc => ?_, fun j hj c hc => ?_, fun o p => (htrees (.inr o) p).trans
    (h.others o p)⟩
  · rw [hzones j hj, h.zones j hj c hc]
    rfl
  · rw [List.foldr_cons, FileEvent.blocks, Sys.blockMap, hzones j hj]
    by_cases hjc : j = i ∧ c = block
    · -- the block that is filled
      obtain ⟨rfl, rfl⟩ := hjc
      rw [Files.write_self, Sys.zoneMap, if_neg hne, Option.map_some]
      simp [M₁]
    · rw [Files.write_of_ne _ _ hjc, ← h.blocks j hj c hc, Sys.blockMap]
      refine Option.map_congr fun y hy => ?_
      refine Function.update_of_ne (fun heq => hjc ?_) _ _
      unfold Sys.zoneMap at hy
      split at hy
      · cases hy
      · rename_i hcne
        cases hy
        -- a block of the same zone would be the same block of the same file
        have hsame : (s.trees files others (.inl j)).zoneAt M dev (blockPos c) =
            (s.trees files others (.inl i)).zoneAt M dev (blockPos block) := by
          rw [FileSystem.trees_file s others hj, FileSystem.trees_file s others hi]
          exact (Prod.ext_iff.mp heq).2
        rw [← FileSystem.trees_file s others hj] at hcne
        obtain ⟨hji, hpos⟩ := hfiles.owns.once _ _ _ _ hcne hsame
        exact ⟨Sum.inl_injective hji, blockPos_injective hc hblock hpos⟩

/-- A file is truncated. -/
theorem emptied (h : Follows M₀ s₀ dev files others events M s)
    (hkept : BlocksKept M s M₁ t dev files others (fun j _ => j = i))
    (hgone : ∀ block, (t.inode i).blockZone M₁ dev block = 0) :
    Follows M₀ s₀ dev files others (.emptied i :: events) M₁ t := by
  refine ⟨fun j hj c hc => ?_, fun j hj c hc => ?_, fun o p => (hkept.others o p).trans
    (h.others o p)⟩
  · rw [List.foldr_cons, FileEvent.zones]
    by_cases hji : j = i
    · subst hji
      rw [Files.clear_self, Sys.zoneMap, if_pos (hgone c)]
    · rw [Files.clear_of_ne _ hji, hkept.zoneMap hj hc hji, h.zones j hj c hc]
  · rw [List.foldr_cons, FileEvent.blocks]
    by_cases hji : j = i
    · subst hji
      rw [Files.clear_self, Sys.blockMap, Sys.zoneMap, if_pos (hgone c), Option.map_none]
    · rw [Files.clear_of_ne _ hji, hkept.blockMap hj hc hji, h.blocks j hj c hc]

end Follows

/-- **Runs over files**: no zone belongs to two places, and the blocks have the zones and the
contents that the events gave them. -/
theorem FileRun.follows {files : Finset (Fin nrInode)} {others : κ → DInode} {M₀ : Contents}
    {events : List FileEvent} (henv : env.Works which) (hall : ∀ cmd, which cmd)
    (hspare : Spare refs) (hstart : FileSystem which used M₀ refs s₀ dev sb files others)
    (hrun : FileRun env dev files s₀ events s) :
    ∃ M, FileSystem which used M refs s dev sb files others ∧
      Follows M₀ s₀ dev files others events M s := by
  -- on the run: each call has its lemma about the files and its lemma about the events
  induction hrun with
  | start => exact ⟨M₀, hstart, .start⟩
  | @locate events s t i block k z _ hi hblock hlocate ih =>
      obtain ⟨M, hfiles, hfollows⟩ := ih
      obtain ⟨-, hmapped, hbeside⟩ := (locateByInode_stable _ _ _).ensures
        (hfiles.locate henv hall hi hspare hblock) _ _ _ hlocate
      exact ⟨M, hfiles.beside hmapped hbeside, hfollows.beside hbeside.inode⟩
  | @create events s t i block k z _ hi hblock hcreate ih =>
      obtain ⟨M, hfiles, hfollows⟩ := ih
      -- the block keeps its zone, or gets a fresh one whose contents are 0
      obtain ⟨M₁, hfiles', hkept, hz, hold, hnew⟩ :=
        hfiles.create henv hall hi hspare hblock _ _ _ hcreate
      exact ⟨M₁, hfiles', hfollows.made hkept hi hblock hz hold hnew⟩
  | @read events s t u v i block k k' k'' z b _ hi hblock hlocate hne hread hput ih =>
      obtain ⟨M, hfiles, hfollows⟩ := ih
      obtain ⟨rfl, hmapped, hbeside⟩ := (locateByInode_stable _ _ _).ensures
        (hfiles.locate henv hall hi hspare hblock) _ _ _ hlocate
      have hfiles' := hfiles.beside hmapped hbeside
      have hne' : (t.inode i).blockZone M dev block ≠ 0 := hbeside.inode ▸ hne
      have hspec := hfiles'.read henv hall hi hspare hne'
      rw [hbeside.inode] at hspec
      obtain ⟨hholds, hbeside', -⟩ := (readBuff_stable _ _).ensures hspec _ _ _ hread
      have hpos : 0 < (refs.add b) b := by simp [Refs.add]
      obtain ⟨hmapped', hbeside''⟩ := (putBuff_stable _).ensures
        (hholds.mapped.putBuff henv (hall .write) hpos not_false) _ _ _ hput
      rw [Refs.sub_add] at hmapped'
      -- the reference of `read_buff` is given back, so the counts are as before
      have hboth : Beside refs t v := hbeside'.trans (hbeside''.mono (refs.le_add b))
      exact ⟨M, hfiles'.beside hmapped' hboth, (hfollows.beside hbeside.inode).beside hboth.inode⟩
  | @fill events s t u v i block k k' k'' z b data _ hi hblock hlocate hne hread hput ih =>
      obtain ⟨M, hfiles, hfollows⟩ := ih
      obtain ⟨rfl, hmapped, hbeside⟩ := (locateByInode_stable _ _ _).ensures
        (hfiles.locate henv hall hi hspare hblock) _ _ _ hlocate
      have hfiles' := hfiles.beside hmapped hbeside
      have hne' : (t.inode i).blockZone M dev block ≠ 0 := hbeside.inode ▸ hne
      rw [← hbeside.inode] at hread
      have hholds := (readBuff_stable _ _).ensures
        (hfiles'.read henv hall hi hspare hne') _ _ _ hread
      obtain ⟨hfilled, hinode⟩ := hfiles'.fill henv hall hi data hne' hholds _ _ _ hput
      exact ⟨_, hfilled, (hfollows.beside hbeside.inode).filled hfiles' hi hblock hne' data hinode⟩
  | @truncate events s t i k _ hi htruncate ih =>
      obtain ⟨M, hfiles, hfollows⟩ := ih
      obtain ⟨M₁, hfiles', hkept, hgone⟩ := (truncate_stable _).ensures
        (hfiles.truncate henv hall hi hspare) _ _ _ htruncate
      exact ⟨M₁, hfiles', hfollows.emptied hkept hgone⟩
  | @sync events s t dev' k _ hsync ih =>
      obtain ⟨M, hfiles, hfollows⟩ := ih
      have hpath := syncDev_submits hsync
      have hbeside : Beside refs s t := hfiles.mapped.beside henv (hall .write) hpath
      exact ⟨M, hfiles.beside (hfiles.mapped.submits henv (hall .write) hpath) hbeside,
        hfollows.beside hbeside.inode⟩
  | @idle events s t k _ hidle ih =>
      obtain ⟨M, hfiles, hfollows⟩ := ih
      have hpath : Submits env (.idle, s) (.idle, t) := idle_submits hidle
      have hbeside : Beside refs s t := hfiles.mapped.beside henv (hall .write) hpath
      exact ⟨M, hfiles.beside (hfiles.mapped.submits henv (hall .write) hpath) hbeside,
        hfollows.beside hbeside.inode⟩

/-- **Zones have one owner.**  In every run over files of a mounted device, no zone belongs to two
places of trees, every zone of a tree is a data zone that is marked, and `locate_by_inode` without
`create` finds the zone that the block was given first since its file was truncated. -/
theorem zone_ownership {files : Finset (Fin nrInode)} {others : κ → DInode} {M₀ : Contents}
    {events : List FileEvent} (henv : env.Works which) (hall : ∀ cmd, which cmd)
    (hspare : Spare refs) (hstart : FileSystem which used M₀ refs s₀ dev sb files others)
    (hrun : FileRun env dev files s₀ events s) :
    ∃ M, FileSystem which used M refs s dev sb files others ∧
      (∀ o p, (others o).zoneAt M dev p = (others o).zoneAt M₀ dev p) ∧
      ∀ i ∈ files, ∀ block < maxBlocks, Does (locateByInode i block false) env s fun z t =>
        z = (events.foldr FileEvent.zones (s₀.zoneMap M₀ dev) i block).getD 0 ∧
          FileSystem which used M refs t dev sb files others ∧ t.inode = s.inode := by
  obtain ⟨M, hfiles, hfollows⟩ := hrun.follows henv hall hspare hstart
  refine ⟨M, hfiles, hfollows.others, fun i hi block hblock =>
    (hfiles.locate henv hall hi hspare hblock).mono ?_⟩
  rintro z t ⟨rfl, hmapped, hbeside⟩
  refine ⟨?_, hfiles.beside hmapped hbeside, hbeside.inode⟩
  rw [← hfollows.zones i hi block hblock, Sys.zoneMap]
  split
  · assumption
  · rfl

/-- **Files refine a map** from blocks to contents.  In every run over files of a mounted device, a
block that was never made has no zone; for a block that was, `read_buff` of its zone returns a
buffer with the contents that the block was given last. -/
theorem files_refine_map {files : Finset (Fin nrInode)} {others : κ → DInode} {M₀ : Contents}
    {events : List FileEvent} (henv : env.Works which) (hall : ∀ cmd, which cmd)
    (hspare : Spare refs) (hstart : FileSystem which used M₀ refs s₀ dev sb files others)
    (hrun : FileRun env dev files s₀ events s) (hi : i ∈ files) (hblock : block < maxBlocks) :
    Does (locateByInode i block false) env s fun z t =>
      (events.foldr FileEvent.blocks (s₀.blockMap M₀ dev) i block = none → z = 0) ∧
      ∀ data, events.foldr FileEvent.blocks (s₀.blockMap M₀ dev) i block = some data →
        z ≠ 0 ∧ Does (readBuff dev z) env t fun found u =>
          ∃ b, found = some b ∧ (u.buf b).bUptodate = true ∧ (u.buf b).bData = data := by
  obtain ⟨M, hfiles, hfollows⟩ := hrun.follows henv hall hspare hstart
  refine (hfiles.locate henv hall hi hspare hblock).mono ?_
  rintro z t ⟨rfl, hmapped, hbeside⟩
  have hfiles' := hfiles.beside hmapped hbeside
  rw [← hfollows.blocks i hi block hblock, Sys.blockMap, Sys.zoneMap]
  by_cases h0 : (s.inode i).blockZone M dev block = 0
  · rw [if_pos h0]
    exact ⟨fun _ => h0, fun data hdata => absurd hdata (by simp)⟩
  · rw [if_neg h0]
    refine ⟨fun hnone => absurd hnone (by simp), fun data hdata => ⟨h0, ?_⟩⟩
    obtain rfl : M (dev, (s.inode i).blockZone M dev block) = data := by simpa using hdata
    have h0' : (t.inode i).blockZone M dev block ≠ 0 := hbeside.inode ▸ h0
    have hread := hfiles'.read henv hall hi hspare h0'
    rw [hbeside.inode] at hread
    refine hread.mono fun found u hfound => ?_
    cases found with
    | none => exact absurd hall hfound.2.2
    | some b =>
        have hused := hfiles'.volume.zones _
          ((hfiles'.tree hi).data (blockPos block) (hbeside.inode ▸ h0))
        rw [hbeside.inode] at hused
        exact ⟨b, rfl, hfound.1.uptodate, hfound.1.data hused⟩

/-! ## A device with an empty file -/

/-- The bits 1, 2 and 3 of the bitmap in block 3 are clear. -/
def filesDisk : Disk := fun _ sector i =>
  if sector = 6 ∧ i = 0 then 0xF1 else if sector = 6 ∨ sector = 7 then 0xFF else 0

/-- Block 0, the block of the bitmap and three data zones. -/
def filesUsed (x : ℕ × ℕ) : Prop := x.1 = 0x300 ∧ (x.2 = 0 ∨ x.2 = 3 ∨ x.2 = 5 ∨ x.2 = 6 ∨ x.2 = 7)

/-- A kernel with three headers. -/
def filesHeaders : Sys 3 := { (Sys.load filesDisk) with geo := smallDrive, hdEnabled := true }

/-- The state after the bitmap was read. -/
def filesRead : Sys 3 :=
  (readBuff 0x300 3 (Env.diligent 0x50) 40 (initBuff (initRequestQueue filesHeaders))).state

/-- The device is mounted, and there is an empty regular file. -/
def filesMounted : Sys 3 :=
  (filesRead.setSuper 0 fun p =>
    { p with
      sDev := 0x300, sImapBlocks := 1, sZmapBlocks := 1, sNinodes := 32, sFirstdatazone := 5,
      sNzones := 8
      sZmap := fun i => if i = 0 then some 0 else none }).setInode 0 fun x =>
    { x with iDev := 0x300, iNum := 1, iMode := 0x8000 }

theorem filesUsed_tiled : smallDrive.Tiled filesUsed where
  dev := by
    rintro ⟨dev, block⟩ ⟨hdev, -⟩
    dsimp only at hdev
    subst hdev
    exact (by decide : 1 ≤ 0x300 ∧ 0x300 < 65536)
  inside := by
    rintro ⟨dev, block⟩ ⟨hdev, hblock⟩
    dsimp only at hdev hblock
    subst hdev
    obtain rfl | rfl | rfl | rfl | rfl := hblock <;> (unfold Geometry.Inside; decide)
  apart := by
    rintro ⟨dev, block⟩ ⟨dev', block'⟩ ⟨hdev, hblock⟩ ⟨hdev', hblock'⟩ hne
    dsimp only at hdev hblock hdev' hblock'
    subst hdev hdev'
    obtain rfl | rfl | rfl | rfl | rfl := hblock <;>
      obtain rfl | rfl | rfl | rfl | rfl := hblock' <;>
      first | exact absurd rfl hne | (unfold Geometry.Disjoint; decide)

theorem filesMounted_mapped : Mapped (fun _ => True) filesUsed (fun _ => False)
    (fun x => filesHeaders.diskBlock x.1 x.2) (Refs.add (fun _ => 0) 0) filesMounted := by
  have hread : readBuff 0x300 3 (Env.diligent 0x50) 40 (initBuff (initRequestQueue filesHeaders)) =
      .ok (some 0) filesRead := Res.eq_ok (by decide +kernel)
  have hrun : MapRun (Env.diligent 0x50) filesUsed filesHeaders []
    (Refs.add (fun _ => 0) 0) filesRead :=
    .read .start ⟨rfl, .inr (.inl rfl)⟩ (fun _ _ => by decide) (.inr ⟨0, rfl⟩) hread
  have hmajor : ∀ x, filesUsed x → major x.1 = 3 := fun x hx => by rw [hx.1]; rfl
  exact (((hrun.super 0 _).inode 0 _).mapped (diligent_works_all _)
    ⟨rfl, by decide, rfl, rfl⟩ smallDrive_drives rfl
    filesUsed_tiled hmajor).1

theorem filesMounted_zmap {i : Fin mapSlots} {b : Fin 3}
    (hb : (filesMounted.superBlock 0).sZmap i = some b) : i = 0 ∧ b = 0 := by
  have hslot : ∀ i b, (filesMounted.superBlock 0).sZmap i = some b → i = 0 ∧ b = 0 := by decide
  exact hslot i b hb

theorem filesMounted_imap : ∀ i b, (filesMounted.superBlock 0).sImap i ≠ some b := by
  decide

theorem filesMounted_volume : Volume filesUsed (Refs.add (fun _ => 0) 0) filesMounted 0x300 0 where
  mounted :=
    { device := by decide
      super := ⟨rfl, by decide⟩
      lock := rfl
      imapBlocks := by decide
      zmapBlocks := by decide
      imapOwn := by decide
      zmapOwn := by decide
      short := by decide }
  zheld i b hb := by
    obtain ⟨-, rfl⟩ := filesMounted_zmap hb
    have hdev : (filesMounted.buf 0).bDev = 0x300 := rfl
    exact ⟨by decide, rfl, hdev ▸ by decide⟩
  iheld i b hb := by
    exact absurd hb (filesMounted_imap i b)
  zones z hz := by
    have hfirst : (filesMounted.superBlock 0).sFirstdatazone = 5 := rfl
    have hlast : (filesMounted.superBlock 0).sNzones = 8 := rfl
    obtain ⟨hle, hlt⟩ := hz
    exact ⟨rfl, by omega⟩
  zapart z hz := by
    rintro ⟨i, b, hb, hkey⟩
    have hfirst : (filesMounted.superBlock 0).sFirstdatazone = 5 := rfl
    have hbitmap : filesMounted.key 0 = (0x300, 3) := rfl
    obtain ⟨-, rfl⟩ := filesMounted_zmap hb
    have hblock : 3 = z := congrArg Prod.snd (hbitmap.symm.trans hkey)
    have hle : 5 ≤ z := hfirst ▸ hz.1
    omega
  iapart z hz := fun hmap => by
    obtain ⟨i, b, hb, -⟩ := hmap
    exact filesMounted_imap i b hb
  split := Set.disjoint_right.mpr fun x hx => by
    obtain ⟨i, b, hb, -⟩ := hx
    exact absurd hb (filesMounted_imap i b)

/-- Every byte of the bitmap but the first has its bits set. -/
theorem filesDisk_byte : ∀ w : Fin 1024, w ≠ 0 → filesHeaders.diskBlock 0x300 3 w = 0xFF := by
  decide +kernel

/-- The bits behind the last zone are set. -/
theorem filesMounted_behind {m : ℕ} (hm : filesMounted.zmap 0 m = some false) : m < 4 := by
  by_contra hge
  have hblocks : (filesMounted.superBlock 0).sZmapBlocks = 1 := rfl
  have hslot : ∀ i : Fin mapSlots, i = 0 → (filesMounted.superBlock 0).sZmap i = some 0 := by
    decide
  have hdata : (filesMounted.buf 0).bData = filesHeaders.diskBlock 0x300 3 :=
    filesMounted_mapped.coherent.cached 0 (by decide) (by decide)
  unfold Sys.zmap Sys.bitmap at hm
  split at hm
  · rename_i hslots
    rw [hblocks] at hslots
    rw [hslot _ (Fin.ext (by show m / 8192 = 0; omega)), Option.map_some, hdata] at hm
    have hset : ∀ j : Fin 8, (0xFF : UInt8).toNat.testBit j = true := by decide
    have hlow : ∀ j : Fin 8, 4 ≤ j.val →
        (filesHeaders.diskBlock 0x300 3 0).toNat.testBit j = true := by
      decide
    have hbit : (filesHeaders.diskBlock 0x300 3).bit (m % 8192) = true := by
      unfold Block.bit
      by_cases hw : m % 8192 / 8 % 1024 = 0
      · simp only [hw]
        exact hlow ⟨m % 8192 % 8, by omega⟩ (by show 4 ≤ m % 8192 % 8; omega)
      · rw [filesDisk_byte _ fun heq => hw (congrArg Fin.val heq)]
        exact hset ⟨m % 8192 % 8, by omega⟩
    rw [hbit] at hm
    cases hm
  · cases hm

theorem filesMounted_fenced : Fenced filesUsed filesMounted 0x300 0 where
  zero := rfl
  behind m hm := by
    have hfirst : (filesMounted.superBlock 0).sFirstdatazone = 5 := rfl
    have hlast : (filesMounted.superBlock 0).sNzones = 8 := rfl
    have hlt := filesMounted_behind hm
    unfold SuperBlock.bitZone
    omega
  first := by decide
  boot := ⟨rfl, .inl rfl⟩
  zboot := by
    rintro ⟨i, b, hb, hkey⟩
    have hbitmap : filesMounted.key 0 = (0x300, 3) := rfl
    obtain ⟨-, rfl⟩ := filesMounted_zmap hb
    exact absurd (congrArg Prod.snd (hbitmap.symm.trans hkey)) (by decide : 3 ≠ 0)
  iboot := by
    rintro ⟨i, b, hb, -⟩
    exact filesMounted_imap i b hb

/-- No inode has a zone. -/
theorem filesMounted_zoneAt (M : Contents) (o : Fin nrInode ⊕ Empty) (p : ZonePos) :
    (filesMounted.trees {0} Empty.elim o).zoneAt M 0x300 p = 0 := by
  cases o with
  | inl j =>
      refine DInode.zoneAt_zero (fun z => ?_) M 0x300 p
      have hroots : ∀ z : Fin 9, (filesMounted.inode 0).iZone z = 0 := by decide
      by_cases hj : j ∈ ({0} : Finset (Fin nrInode))
      · rw [FileSystem.trees_file _ _ hj, Finset.mem_singleton.mp hj]
        exact hroots z
      · simp only [Sys.trees, if_neg hj]
        rfl
  | inr o => exact o.elim

theorem filesMounted_system : FileSystem (fun _ => True) filesUsed
    (fun x => filesHeaders.diskBlock x.1 x.2) (Refs.add (fun _ => 0) 0) filesMounted 0x300 0 {0}
    Empty.elim where
  mapped := filesMounted_mapped
  volume := filesMounted_volume
  fenced := filesMounted_fenced
  owns :=
    { once := fun o p _ _ hne _ => absurd (filesMounted_zoneAt _ o p) hne
      data := fun o p hne => absurd (filesMounted_zoneAt _ o p) hne
      taken := fun o p hne => absurd (filesMounted_zoneAt _ o p) hne
      unheld := fun o p hne => absurd (filesMounted_zoneAt _ o p) hne }
  iDev i hi := by
    rw [Finset.mem_singleton.mp hi]
    decide
  kind i hi := by
    rw [Finset.mem_singleton.mp hi]
    decide

/-- The state after block 0 of the file was made. -/
def filesMade : Sys 3 := (locateByInode 0 0 true (Env.diligent 0x50) 60 filesMounted).state

/-- The state after its zone was found. -/
def filesFound : Sys 3 := (locateByInode 0 0 false (Env.diligent 0x50) 60 filesMade).state

/-- The state after its buffer was read. -/
def filesOpened : Sys 3 := (readBuff 0x300 5 (Env.diligent 0x50) 60 filesFound).state

/-- The state after the buffer was filled with sevens and put back. -/
def filesFilled : Sys 3 :=
  (putBuff (some 1) (Env.diligent 0x50) 60 (store 1 (fun _ => 7) filesOpened)).state

theorem filesFilled_run : FileRun (Env.diligent 0x50) 0x300 {0} filesMounted
    [.filled 0 0 fun _ => 7, .made 0 0 5] filesFilled := by
  have hmade : locateByInode 0 0 true (Env.diligent 0x50) 60 filesMounted = .ok 5 filesMade :=
    Res.eq_ok (by decide +kernel)
  have hfound : locateByInode 0 0 false (Env.diligent 0x50) 60 filesMade = .ok 5 filesFound :=
    Res.eq_ok (by decide +kernel)
  have hopened : readBuff 0x300 5 (Env.diligent 0x50) 60 filesFound = .ok (some 1) filesOpened :=
    Res.eq_ok (by decide +kernel)
  have hfilled : putBuff (some 1) (Env.diligent 0x50) 60 (store 1 (fun _ => 7) filesOpened) =
      .ok () filesFilled := Res.eq_ok (by decide +kernel)
  have hin : (0 : Fin nrInode) ∈ ({0} : Finset (Fin nrInode)) := Finset.mem_singleton_self 0
  exact .fill (fun _ => 7) (.create .start hin (by decide) hmade) hin (by decide) hfound
    (by decide) hopened
    hfilled

/-- The zone of block 0 of the file is 5. -/
theorem zone_ownership_filled : Does (locateByInode 0 0 false) (Env.diligent 0x50) filesFilled
    fun z _ => z = 5 := by
  obtain ⟨M, -, -, hzone⟩ := zone_ownership (diligent_works_all _) (fun _ => trivial)
    ⟨1, 2, by decide, by decide, by decide⟩ filesMounted_system filesFilled_run
  refine (hzone 0 (Finset.mem_singleton_self 0) 0 (by decide)).mono ?_
  rintro z t ⟨rfl, -, -⟩
  have hnone : filesMounted.zoneMap (fun x => filesHeaders.diskBlock x.1 x.2) 0x300 0 0 = none := by
    decide
  simp [FileEvent.zones, Files.make, Files.write, hnone]

/-- Block 0 of the file has the sevens. -/
theorem files_refine_map_filled : Does (locateByInode 0 0 false) (Env.diligent 0x50) filesFilled
    fun z t => z ≠ 0 ∧ Does (readBuff 0x300 z) (Env.diligent 0x50) t fun found u =>
      ∃ b, found = some b ∧ (u.buf b).bUptodate = true ∧ (u.buf b).bData = fun _ => 7 := by
  refine (files_refine_map (diligent_works_all _) (fun _ => trivial)
    ⟨1, 2, by decide, by decide, by decide⟩ filesMounted_system filesFilled_run
    (Finset.mem_singleton_self 0) (by decide : 0 < maxBlocks)).mono fun z t hz => hz.2 _ ?_
  simp [FileEvent.blocks, Files.write]

end EgGS
