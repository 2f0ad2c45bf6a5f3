import EgGS.Cache.Hits
import EgGS.Cache.Runs
import EgGS.Fs.Fuel
import EgGS.Fs.Inodes

/-!
# One entry for each inode

A run of the inode cache starts with an empty table and consists of calls of
`read_inode`, `create_inode` and `put_inode`, and of whatever leaves the identity and the
count of every inode alone.  Along with the state it carries the references that were
handed out and not yet put back.

* `inode_identity`: after every run no two entries belong to one inode, every reference
  is to the entry of its inode, the counts are the references outstanding, and
  `new_inode` recycles only entries that nobody holds and that were written back.
-/

namespace EgGS

open Lib Prog Relation

variable {n : ℕ} {env : Env n} {k : ℕ} {s s' t : Sys n} {dev nr : ℕ} {i : Fin nrInode}

/-! ## References -/

/-- A reference that was handed out: device and number of the inode, and its entry. -/
structure InodeRef where
  dev : ℕ
  nr : ℕ
  entry : Fin nrInode
  deriving DecidableEq

/-- The number of references to the entry `i`. -/
def refsTo (refs : List InodeRef) (i : Fin nrInode) : ℕ := refs.countP fun r => r.entry = i

theorem refsTo_cons (r : InodeRef) (refs : List InodeRef) (i : Fin nrInode) :
    refsTo (r :: refs) i = refsTo refs i + if r.entry = i then 1 else 0 := by
  simp [refsTo, List.countP_cons]

theorem refsTo_erase {r : InodeRef} {refs : List InodeRef} (hr : r ∈ refs) (i : Fin nrInode) :
    refsTo refs i = refsTo (refs.erase r) i + if r.entry = i then 1 else 0 := by
  rw [← refsTo_cons]
  exact (List.perm_cons_erase hr).countP_eq _

theorem refsTo_erase_le (r : InodeRef) (refs : List InodeRef) (i : Fin nrInode) :
    refsTo (refs.erase r) i ≤ refsTo refs i := List.erase_sublist.countP_le

theorem refsTo_eq_zero {refs : List InodeRef} (h : refsTo refs i = 0) {r : InodeRef}
    (hr : r ∈ refs) : r.entry ≠ i := by
  simpa using List.countP_eq_zero.mp h r hr

/-- The number of a device or an inode. -/
def Short (x : ℕ) : Prop := 1 ≤ x ∧ x < 65536

instance (x : ℕ) : Decidable (Short x) := inferInstanceAs (Decidable (1 ≤ x ∧ x < 65536))

/-- The states a run of the inode cache can be in, with the references outstanding. -/
inductive InodeReach (env : Env n) : List InodeRef → Sys n → Prop
  | start {s : Sys n} : (∀ i, s.inode i = MInode.zero) → InodeReach env [] s
  | other {refs : List InodeRef} {s s' : Sys n} : InodeReach env refs s → Steadily env s s' →
      InodeReach env refs s'
  | read {refs : List InodeRef} {s s' : Sys n} {k dev nr : ℕ} {i : Fin nrInode} :
      InodeReach env refs s → Short dev → Short nr → readInode dev nr env k s = .ok i s' →
      refsTo refs i + 1 < 65536 → InodeReach env (⟨dev, nr, i⟩ :: refs) s'
  | create {refs : List InodeRef} {s s' : Sys n} {k dev : ℕ} {i : Fin nrInode} :
      InodeReach env refs s → Short dev → createInode dev env k s = .ok (some i) s' →
      InodeReach env (⟨dev, (s'.inode i).iNum, i⟩ :: refs) s'
  | createFailed {refs : List InodeRef} {s s' : Sys n} {k dev : ℕ} : InodeReach env refs s →
      createInode dev env k s = .ok none s' → InodeReach env refs s'
  | put {refs : List InodeRef} {s s' : Sys n} {k : ℕ} {r : InodeRef} : InodeReach env refs s →
      r ∈ refs → putInode (some r.entry) env k s = .ok () s' → InodeReach env (refs.erase r) s'

/-! ## The invariant -/

/-- Nothing is mounted over, no two entries belong to one inode, and the counts are the
references outstanding. -/
structure Identified (refs : List InodeRef) (s : Sys n) : Prop where
  flat : s.Flat
  unlocked : ∀ i, (s.inode i).iLock = false
  range : ∀ i, (s.inode i).iDev < 65536
  unique : ∀ i j dev nr, dev ≠ 0 → (s.inode i).Is dev nr → (s.inode j).Is dev nr → i = j
  held : ∀ r ∈ refs, r.dev ≠ 0 ∧ (s.inode r.entry).Is r.dev r.nr
  count : ∀ i, (s.inode i).iCount = refsTo refs i
  room : ∀ i, refsTo refs i < 65536

namespace Identified

variable {refs : List InodeRef}

theorem start (h : ∀ i, s.inode i = MInode.zero) : Identified [] s where
  flat i := by rw [h i]; rfl
  unlocked i := by rw [h i]; rfl
  range i := by rw [h i]; decide
  unique i j dev nr hdev hi _ := absurd (by rw [← hi.1, h i]; rfl) hdev
  held r hr := absurd hr (List.not_mem_nil)
  count i := by rw [h i]; rfl
  room i := by simp [refsTo]

theorem steadily (h : Identified refs s) (hpath : Steadily env s s') : Identified refs s' where
  flat := h.flat.steady hpath
  unlocked := hpath.unlocked h.unlocked
  range i := by
    rw [show (s'.inode i).iDev = (s.inode i).iDev from congrArg InodeCore.iDev (hpath.core i)]
    exact h.range i
  unique i j dev nr hdev hi hj :=
    h.unique i j dev nr hdev ((hpath.is i dev nr).mp hi) ((hpath.is j dev nr).mp hj)
  held r hr := ⟨(h.held r hr).1, (hpath.is r.entry r.dev r.nr).mpr (h.held r hr).2⟩
  count i := (hpath.count i).trans (h.count i)
  room := h.room

/-- An entry that is found gets one more reference. -/
theorem up (h : Identified refs s) (hdev : dev ≠ 0) (his : (s.inode i).Is dev nr)
    (hroom : refsTo refs i + 1 < 65536) : Identified (⟨dev, nr, i⟩ :: refs) (s.inodeUp i) := by
  have hcore : ∀ j, ((s.inodeUp i).inode j).iDev = (s.inode j).iDev ∧
      ((s.inodeUp i).inode j).iNum = (s.inode j).iNum ∧
      ((s.inodeUp i).inode j).iMount = (s.inode j).iMount ∧
      ((s.inodeUp i).inode j).iLock = (s.inode j).iLock := by
    intro j
    by_cases hj : j = i
    · subst hj; simp [Sys.inodeUp]
    · simp [Sys.inodeUp, hj]
  have his' : ∀ j d r, ((s.inodeUp i).inode j).Is d r ↔ (s.inode j).Is d r := by
    intro j d r
    rw [MInode.Is, MInode.Is, (hcore j).1, (hcore j).2.1]
  refine ⟨fun j => (hcore j).2.2.1.trans (h.flat j),
    fun j => (hcore j).2.2.2.trans (h.unlocked j), fun j => (hcore j).1 ▸ h.range j,
    fun a b d r hd ha hb => h.unique a b d r hd ((his' a d r).mp ha) ((his' b d r).mp hb),
    fun r hr => ?_, fun j => ?_, fun j => ?_⟩
  · rcases List.mem_cons.mp hr with rfl | hr
    · exact ⟨hdev, (his' i dev nr).mpr his⟩
    · exact ⟨(h.held r hr).1, (his' _ _ _).mpr (h.held r hr).2⟩
  · rw [refsTo_cons, Sys.inodeUp, Sys.setInode_at MInode.iCount]
    split
    · rename_i hij
      subst hij
      rw [h.count i, Nat.mod_eq_of_lt hroom]
    · exact h.count j
  · have hj := h.room j
    rw [refsTo_cons]
    split
    · rename_i hij
      exact hij ▸ hroom
    · exact hj

/-- An entry that nobody holds is given to an inode that has none. -/
theorem claim (h : Identified refs s) (hrec : Reclaimable s i dev nr) (hdev : Short dev)
    (hnr : nr < 65536) : Identified (⟨dev, nr, i⟩ :: refs) (s.claimInode i dev nr) := by
  have hself : ((s.claimInode i dev nr).inode i).Is dev nr := by
    simp [Sys.claimInode, MInode.Is, Nat.mod_eq_of_lt hdev.2, Nat.mod_eq_of_lt hnr]
  have hother : ∀ j, j ≠ i → (s.claimInode i dev nr).inode j = s.inode j := fun j hj => by
    simp [Sys.claimInode, hj]
  have hfree : refsTo refs i = 0 := (h.count i).symm.trans hrec.count
  refine ⟨fun j => ?_, fun j => ?_, fun j => ?_, fun a b d r hd ha hb => ?_, fun r hr => ?_,
    fun j => ?_, fun j => ?_⟩
  · by_cases hj : j = i
    · subst hj; simp [Sys.claimInode, MInode.zero]
    · rw [hother j hj]; exact h.flat j
  · by_cases hj : j = i
    · subst hj; simp [Sys.claimInode, MInode.zero]
    · rw [hother j hj]; exact h.unlocked j
  · by_cases hj : j = i
    · subst hj; simp [Sys.claimInode, Nat.mod_lt]
    · rw [hother j hj]; exact h.range j
  · -- two entries with one key: the new one is alone with its key, because the scan found none
    by_cases hai : a = i
    · by_cases hbi : b = i
      · rw [hai, hbi]
      · subst hai
        obtain rfl : dev = d := hself.1.symm.trans ha.1
        obtain rfl : nr = r := hself.2.symm.trans ha.2
        rw [hother b hbi] at hb
        exact absurd hb (hrec.missing b)
    · by_cases hbi : b = i
      · subst hbi
        obtain rfl : dev = d := hself.1.symm.trans hb.1
        obtain rfl : nr = r := hself.2.symm.trans hb.2
        rw [hother a hai] at ha
        exact absurd ha (hrec.missing a)
      · rw [hother a hai] at ha
        rw [hother b hbi] at hb
        exact h.unique a b d r hd ha hb
  · -- whoever held an entry held another one, for this had no reference
    rcases List.mem_cons.mp hr with rfl | hr
    · exact ⟨Nat.one_le_iff_ne_zero.mp hdev.1, hself⟩
    · rw [hother _ (refsTo_eq_zero hfree hr)]
      exact h.held r hr
  · rw [refsTo_cons]
    by_cases hj : j = i
    · subst hj
      simp [Sys.claimInode, hfree]
    · rw [hother j hj, if_neg (Ne.symm hj)]
      exact h.count j
  · -- room for the one reference that the entry got
    have hj := h.room j
    rw [refsTo_cons]
    split
    · rename_i hij
      dsimp only at hij
      subst hij
      omega
    · exact hj

/-- A reference is counted down. -/
theorem down (h : Identified refs s) {r : InodeRef} (hr : r ∈ refs) :
    Identified (refs.erase r) (s.inodeDown r.entry) := by
  have hcore : ∀ j, ((s.inodeDown r.entry).inode j).iDev = (s.inode j).iDev ∧
      ((s.inodeDown r.entry).inode j).iNum = (s.inode j).iNum ∧
      ((s.inodeDown r.entry).inode j).iMount = (s.inode j).iMount ∧
      ((s.inodeDown r.entry).inode j).iLock = (s.inode j).iLock := by
    intro j
    by_cases hj : j = r.entry
    · subst hj; simp [Sys.inodeDown]
    · simp [Sys.inodeDown, hj]
  have his' : ∀ j d nr, ((s.inodeDown r.entry).inode j).Is d nr ↔ (s.inode j).Is d nr := by
    intro j d nr
    rw [MInode.Is, MInode.Is, (hcore j).1, (hcore j).2.1]
  refine ⟨fun j => (hcore j).2.2.1.trans (h.flat j),
    fun j => (hcore j).2.2.2.trans (h.unlocked j), fun j => (hcore j).1 ▸ h.range j,
    fun a b d nr hd ha hb => h.unique a b d nr hd ((his' a d nr).mp ha) ((his' b d nr).mp hb),
    fun x hx => ?_, fun j => ?_, fun j => (refsTo_erase_le r refs j).trans_lt (h.room j)⟩
  · have hx := List.mem_of_mem_erase hx
    exact ⟨(h.held x hx).1, (his' _ _ _).mpr (h.held x hx).2⟩
  · have hroom := h.room j
    have hcount := (h.count j).trans (refsTo_erase hr j)
    rw [refsTo_erase hr j] at hroom
    rw [Sys.inodeDown, Sys.setInode_at MInode.iCount]
    split
    · rename_i hj
      subst hj
      rw [if_pos rfl] at hcount hroom
      dsimp only
      omega
    · rename_i hj
      rwa [if_neg hj] at hcount

/-- The last reference goes, and with it the entry. -/
theorem erase (h : Identified refs s) {r : InodeRef} (hr : r ∈ refs)
    (hlast : (s.inode r.entry).iCount = 1) :
    Identified (refs.erase r) (s.setInode r.entry fun _ => MInode.zero) := by
  have hself : (s.setInode r.entry fun _ => MInode.zero).inode r.entry = MInode.zero := by simp
  have hother : ∀ j, j ≠ r.entry →
      (s.setInode r.entry fun _ => MInode.zero).inode j = s.inode j := fun j hj => by simp [hj]
  have hnone : refsTo (refs.erase r) r.entry = 0 := by
    have hcount := (h.count r.entry).symm.trans hlast
    rw [refsTo_erase hr, if_pos rfl] at hcount
    omega
  refine ⟨fun j => ?_, fun j => ?_, fun j => ?_, fun a b d nr hd ha hb => ?_, fun x hx => ?_,
    fun j => ?_, fun j => (refsTo_erase_le r refs j).trans_lt (h.room j)⟩
  · by_cases hj : j = r.entry
    · subst hj; rw [hself]; rfl
    · rw [hother j hj]; exact h.flat j
  · by_cases hj : j = r.entry
    · subst hj; rw [hself]; rfl
    · rw [hother j hj]; exact h.unlocked j
  · by_cases hj : j = r.entry
    · subst hj; rw [hself]; decide
    · rw [hother j hj]; exact h.range j
  · have hne : ∀ c, ((s.setInode r.entry fun _ => MInode.zero).inode c).Is d nr → c ≠ r.entry := by
      rintro c hc rfl
      rw [hself] at hc
      exact hd hc.1.symm
    have hane := hne a ha
    have hbne := hne b hb
    rw [hother a hane] at ha
    rw [hother b hbne] at hb
    exact h.unique a b d nr hd ha hb
  · rw [hother _ (refsTo_eq_zero hnone hx)]
    exact h.held x (List.mem_of_mem_erase hx)
  · by_cases hj : j = r.entry
    · subst hj; rw [hself, hnone]; rfl
    · rw [hother j hj, h.count j, refsTo_erase hr j, if_neg (Ne.symm hj)]
      rfl

/-- A reference that is handed out. -/
theorem taken (h : Identified refs s) (hdev : Short dev) (hnr : nr < 65536)
    (htaken : InodeTaken env s dev nr i s') (hroom : refsTo refs i + 1 < 65536) :
    Identified (⟨dev, nr, i⟩ :: refs) s' := by
  cases htaken with
  | found hpath his _ hsame =>
      obtain ⟨rfl, rfl⟩ := hsame h.flat
      exact (h.steadily hpath).up (Nat.one_le_iff_ne_zero.mp hdev.1) his hroom
  | made hpath hrec hsame =>
      obtain ⟨rfl, rfl⟩ := hsame h.flat
      exact (h.steadily hpath).claim hrec hdev hnr

/-- A reference that is put back. -/
theorem put (h : Identified refs s) {r : InodeRef} (hr : r ∈ refs)
    (hput : InodePut env s r.entry s') : Identified (refs.erase r) s' := by
  cases hput with
  | dropped hpath _ => exact (h.steadily hpath).down hr
  | erased hpath hlast => exact (h.steadily hpath).erase hr hlast

/-- An inode that is created. -/
theorem created (h : Identified refs s) (hdev : Short dev)
    (hmade : InodeCreated env s dev (some i) s') :
    Identified (⟨dev, (s'.inode i).iNum, i⟩ :: refs) s' := by
  cases hmade with
  | @made t _ _ dev nr hpath hne hlt hrec hsame =>
      obtain ⟨rfl, rfl⟩ := hsame h.flat
      have hlink : Steadily env (t.claimInode i dev nr) ((t.claimInode i dev nr).setInode i
          fun x => { x with iNlinks := 1, iDirt := true }) :=
        .single (.assign i { ((t.claimInode i dev nr).inode i).toDInode with iNlinks := 1 } true
          fun _ => rfl)
      have hclaimed := ((h.steadily hpath).claim hrec hdev hlt).steadily hlink
      have hnum := (hclaimed.held _ (List.mem_cons_self ..)).2.2
      dsimp only at hnum
      rw [hnum]
      exact hclaimed

end Identified

theorem unsigned_natCast {x : ℕ} (h : x < 4294967296) : unsigned x = x := by
  unfold unsigned
  omega

theorem Short.unsigned {x : ℕ} (h : Short x) : unsigned x = x :=
  unsigned_natCast (h.2.trans (by decide))

/-- Every call keeps the invariant, and so does a run. -/
theorem InodeReach.identified {refs : List InodeRef} (h : InodeReach env refs s) :
    Identified refs s := by
  induction h with
  | start hzero => exact .start hzero
  | other _ hpath ih => exact ih.steadily hpath
  | read _ hdev hnr hread hroom ih =>
      obtain ⟨t, hget, hfill⟩ := readInode_got hread
      rw [hdev.unsigned, hnr.unsigned] at hget
      have htaken := ih.taken hdev hnr.2 (getInode_taken hget) hroom
      rcases hfill with ⟨-, hfill⟩ | ⟨-, rfl⟩
      · exact htaken.steadily hfill.steady
      · exact htaken
  | create _ hdev hcreate ih => exact ih.created hdev (createInode_created hcreate)
  | createFailed _ hcreate ih =>
      cases createInode_created hcreate with
      | failed hpath => exact ih.steadily hpath
  | put _ hr hput ih => exact ih.put hr (putInode_put hput)

/-! ## The table -/

/-- The contents of the entry `i` in `s` go to the buffer of their block of the inode table,
on the way to `s'`. -/
def WrittenBack (env : Env n) (s : Sys n) (i : Fin nrInode) (s' : Sys n) : Prop :=
  ∃ t bh sb, Steadily env s t ∧ t.inode i = s.inode i ∧
    (t.superBlock sb).sDev = (s.inode i).iDev ∧
    t.Keyed bh (s.inode i).iDev ((t.superBlock sb).inodeBlock (s.inode i).iNum) ∧
    (t.buf bh).bUptodate = true ∧ Steadily env (t.copyInode i bh) s'

theorem InodeSaved.writtenBack (h : InodeSaved env s i s') (hdev : (s.inode i).iDev < 65536) :
    WrittenBack env s i s' := by
  obtain ⟨t, bh, hpath, hsame, htable, hrest⟩ := h
  obtain ⟨sb, hsb, hkey⟩ := htable.key hdev
  exact ⟨t, bh, sb, hpath, hsame, hsb, hkey, htable.uptodate, hrest⟩

/-- **Identity of the inode cache.**  After every run no two entries belong to the same
inode, two references to one inode are to one entry, and `i_count` is the number of
references outstanding.  Wherever `new_inode` then takes an entry, nobody holds it, and it
is clean: if it was dirty, its contents were copied to the buffer of their block. -/
theorem inode_identity {refs : List InodeRef} (h : InodeReach env refs s) :
    (∀ i j, (s.inode i).iDev ≠ 0 → (s.inode j).iDev = (s.inode i).iDev →
      (s.inode j).iNum = (s.inode i).iNum → j = i) ∧
    (∀ r ∈ refs, ∀ r' ∈ refs, r.dev = r'.dev → r.nr = r'.nr → r.entry = r'.entry) ∧
    (∀ i, (s.inode i).iCount = refsTo refs i) ∧
    ∀ t dev nr k i t', Steadily env s t → newInode dev nr env k t = .ok (some i) t' →
      (t.inode i).iCount = 0 ∧ ∃ u, Steadily env t u ∧ t' = u.claimInode i dev nr ∧
        (u.inode i).iCount = 0 ∧ (u.inode i).iDirt = false ∧
        ((t.inode i).iDirt = true → WrittenBack env t i u) := by
  have hid := h.identified
  refine ⟨fun i j hdev hd hr => hid.unique j i _ _ hdev ⟨hd, hr⟩ ⟨rfl, rfl⟩,
    fun r hr r' hr' hd hn => ?_, hid.count, fun t dev nr k i t' hpath hnew => ?_⟩
  · obtain ⟨hdev, his⟩ := hid.held r hr
    obtain ⟨-, his'⟩ := hid.held r' hr'
    rw [← hd, ← hn] at his'
    exact hid.unique _ _ _ _ hdev his his'
  · have ht := hid.steadily hpath
    cases newInode_made hnew with
    | @made u _ dev' nr' hpath' hrec hsaved hsame =>
        obtain ⟨rfl, rfl⟩ := hsame ht.flat
        exact ⟨(hpath'.count i).symm.trans hrec.count, u, hpath', rfl, hrec.count, hrec.clean,
          fun hdirty => (hsaved hdirty).writtenBack (ht.range i)⟩

/-- A kernel with one header and the device `0x300` mounted. -/
def mounted : Sys 1 :=
  (initBuff oneHeader).setSuper 0 fun p =>
    { p with sDev := 0x300, sImapBlocks := 1, sZmapBlocks := 1, sNinodes := 64 }

/-- The state after `read_inode` of inode 1. -/
def Sys.reread (s : Sys 1) : Sys 1 := (readInode 0x300 1 (Env.diligent 0x50) 40 s).state

theorem reread_reach :
    InodeReach (Env.diligent 0x50) [⟨0x300, 1, 1⟩] mounted.reread :=
  .read (.start fun _ => rfl) (by decide) (by decide)
    (Res.eq_ok (show _ = some (1 : Fin nrInode) by decide +kernel)) (by decide)

/-- The inode is read twice. -/
theorem inode_identity_read : (mounted.reread.reread.inode 1).iCount = 2 := by
  have hreach : InodeReach (Env.diligent 0x50) [⟨0x300, 1, 1⟩, ⟨0x300, 1, 1⟩]
      mounted.reread.reread :=
    .read reread_reach (by decide) (by decide)
      (Res.eq_ok (show _ = some (1 : Fin nrInode) by decide +kernel)) (by decide)
  exact (inode_identity hreach).2.2.1 1

/-! ## Looking for an entry -/

/-- One round of `find_inode`. -/
def findRound (i dev nr : ℕ) : P n ((ℕ × ℕ × ℕ) ⊕ (Option (Fin nrInode) × ℕ × ℕ)) := do
  let s ← Prog.read
  if h : i < nrInode then
    let inode := s.inode ⟨i, h⟩
    if inode.iDev ≠ dev ∨ inode.iNum ≠ nr then
      pure (.inl (i + 1, dev, nr))
    else if inode.iMount then
      match (List.finRange nrSuper).find? fun p => (s.superBlock p).sImount = some ⟨i, h⟩ with
      | none => pure (.inr (some ⟨i, h⟩, dev, nr))
      | some p => pure (.inl (0, (s.superBlock p).sDev, 1))
    else
      pure (.inr (some ⟨i, h⟩, dev, nr))
  else
    pure (.inr (none, dev, nr))

theorem findInode_rounds (hdev : dev ≠ 0) :
    (findInode dev nr : P n _) = Prog.iterate (fun x => findRound x.1 x.2.1 x.2.2) (0, dev, nr) :=
  if_neg hdev

/-- The loop of `find_inode` ends behind the last entry. -/
theorem findRound_ends (hflat : s.Flat) (m : ℕ) : ∀ i, i + m = nrInode →
    LoopDoes (fun x => findRound x.1 x.2.1 x.2.2) env (i, dev, nr) s fun _ _ => True := by
  induction m with
  | zero =>
      intro i hi
      refine .done (.bind_read ?_)
      rw [dif_neg (by omega)]
      exact .pure ⟨_, rfl, trivial⟩
  | succ m ih =>
      intro i hi
      by_cases hkey : (s.inode ⟨i, by omega⟩).iDev ≠ dev ∨ (s.inode ⟨i, by omega⟩).iNum ≠ nr
      · refine .step (.bind_read ?_)
        rw [dif_pos (by omega), if_pos hkey]
        exact .pure ⟨_, rfl, ih (i + 1) (by omega)⟩
      · refine .done (.bind_read ?_)
        rw [dif_pos (by omega), if_neg hkey, if_neg (Bool.eq_false_iff.mp (hflat _))]
        exact .pure ⟨_, rfl, trivial⟩

/-- **`find_inode`** looks through the entries. -/
theorem findInode_does (hflat : s.Flat) (hdev : dev ≠ 0) : Does (findInode dev nr) env s fun x t =>
    s = t ∧ x.2 = (dev, nr) ∧ Lookup s x.1 dev nr := by
  have hreturns : Returns (findInode dev nr) env s := by
    rw [findInode_rounds hdev]
    exact (findRound_ends hflat nrInode 0 (by omega)).does.returns
  refine hreturns.does ?_
  rintro k ⟨found, dev', nr'⟩ t hrun
  obtain ⟨rfl, hlookup, hsame⟩ := findInode_found hrun
  obtain ⟨rfl, rfl⟩ := hsame hflat
  exact ⟨rfl, rfl, hlookup⟩

/-- **`retain_inode`** counts an entry that it finds. -/
theorem retainInode_does (hflat : s.Flat) (hlock : ∀ i, (s.inode i).iLock = false)
    (hdev : dev ≠ 0) :
    Does (retainInode dev nr) env s fun x t => x.2 = (dev, nr) ∧
      (x.1 = none ∧ s = t ∧ (∀ i, ¬ (s.inode i).Is dev nr) ∨
        ∃ i, x.1 = some i ∧ (s.inode i).Is dev nr ∧ t = (s.setIntr false).inodeUp i) := by
  unfold retainInode
  rw [if_neg hdev]
  refine Does.iterate ((findInode_does hflat hdev).bind ?_)
  rintro ⟨found, d, r⟩ _ ⟨rfl, hkey, hlookup⟩
  obtain ⟨rfl, rfl⟩ := Prod.ext_iff.mp hkey
  cases found with
  | none => exact .pure ⟨_, rfl, rfl, .inl ⟨rfl, rfl, hlookup⟩⟩
  | some i =>
      refine ((waitOnInode_evals (hlock i)).does (Q := fun _ t => t = s.setIntr false) rfl).bind ?_
      rintro _ _ rfl
      refine .bind_read (.ite (fun hne => absurd hne ?_) fun _ => .bind_update (.pure ?_))
      · exact fun hne => hne.elim (fun h => h hlookup.1) fun h => h hlookup.2
      · exact ⟨_, rfl, rfl, .inr ⟨i, rfl, hlookup, rfl⟩⟩

/-! ## Coherence -/

/-- An entry that the inode has is the one that `get_inode` returns. -/
theorem Identified.getInode {refs : List InodeRef} (h : Identified refs s) (hdev : dev ≠ 0)
    (his : (s.inode i).Is dev nr) :
    Evals (getInode dev nr) env s i ((s.setIntr false).inodeUp i) := by
  have hdoes : Does (EgGS.getInode dev nr) env s fun j t =>
      j = i ∧ t = (s.setIntr false).inodeUp i := by
    refine Does.iterate ((retainInode_does h.flat h.unlocked hdev).bind ?_)
    rintro ⟨found, d, r⟩ t ⟨-, ⟨-, -, hnone⟩ | ⟨j, hfound, hj, rfl⟩⟩
    · exact absurd his (hnone i)
    · obtain rfl : j = i := h.unique j i dev nr hdev hj his
      dsimp only at hfound
      subst hfound
      exact .pure ⟨_, rfl, rfl, rfl⟩
  obtain ⟨_, _, heval, rfl, rfl⟩ := hdoes
  exact heval

/-- `read_inode_from_buff` up to where it has the buffer with the slot of the inode. -/
def inodeBuffer (i : Fin nrInode) : P n (Fin n) := do
  lockInode i
  let s ← Prog.read
  match ← findSuper (s.inode i).iDev with
  | none => panic "trying to read inode without dev"
  | some sb => do
    let s ← Prog.read
    match ← readBuff (s.inode i).iDev ((s.superBlock sb).inodeBlock (s.inode i).iNum) with
    | none => panic "unable to read i-node block"
    | some bh => pure bh

/-- `read_inode_from_buff` from there on. -/
def fillInode (i : Fin nrInode) (bh : Fin n) : P n Unit := do
  Prog.update fun s => s.setInode i fun x =>
    { x with toDInode := (s.buf bh).bData.dInode (inodeSlot x.iNum) }
  putBuff (some bh)
  Prog.update (unlockInode i)

theorem readInodeFromBuff_halves (i : Fin nrInode) :
    (readInodeFromBuff i : P n Unit) = inodeBuffer i >>= fillInode i := by
  funext e k s
  simp only [readInodeFromBuff, inodeBuffer, bind_run, read_run]
  cases lockInode i e k s with
  | stop _ _ => rfl
  | ok _ t =>
      dsimp only
      cases findSuper (t.inode i).iDev e k t with
      | stop _ _ => rfl
      | ok found u =>
          cases found with
          | none => rfl
          | some sb =>
              dsimp only [bind_run, read_run]
              cases readBuff (u.inode i).iDev
                ((u.superBlock sb).inodeBlock (u.inode i).iNum) e k u with
              | stop _ _ => rfl
              | ok found v => cases found <;> rfl

theorem inodeBuffer_stable (i : Fin nrInode) : Stable (inodeBuffer i : P n (Fin n)) := by
  refine (lockInode_stable i).bind fun _ => .bind_read fun _ => (findSuper_stable _).bind fun sb =>
    ?_
  cases sb with
  | none => exact .halt _
  | some sb =>
      refine .bind_read fun _ => (readBuff_stable _ _).bind fun found => ?_
      cases found with
      | none => exact .halt _
      | some bh => exact .pure _

theorem inodeBuffer_table {bh : Fin n} (h : inodeBuffer i env k s = .ok bh t) :
    t.inode = s.inode ∧ TableBuffer t (s.inode i) bh := by
  obtain ⟨⟨⟩, s₁, hlock, h⟩ := bind_eq_ok.mp h
  obtain ⟨rfl, -⟩ := lockInode_eq hlock
  rw [read_bind] at h
  obtain ⟨found, s₂, hfind, h⟩ := bind_eq_ok.mp h
  cases found with
  | none => simp [panic] at h
  | some sb =>
      simp only [read_bind] at h
      obtain ⟨found, s₃, hread, h⟩ := bind_eq_ok.mp h
      cases found with
      | none => simp [panic] at h
      | some bh' =>
          have hsame : s₂.inode = s.inode :=
            (CachePath.tables (CacheSteps.of_submits (findSuper_found hfind).1)).1
          rw [hsame] at hread
          obtain ⟨hpath, htable⟩ := tableBuffer_found hfind hread
          simp only [pure_run, Res.ok.injEq] at h
          obtain ⟨rfl, rfl⟩ := h
          exact ⟨hpath.tables.1, htable⟩

/-- A buffer that is not locked is put back, if there is a reference. -/
theorem putBuff_does {b : Fin n} {Q : Unit → Sys n → Prop} (hclear : (s.buf b).bLock = false) :
    Does (putBuff (some b)) env s Q ↔
      (s.buf b).bCount ≠ 0 ∧ Q () ((s.setIntr false).countDown b) := by
  by_cases hcount : (s.buf b).bCount = 0
  · refine ⟨fun h => ?_, fun h => absurd hcount h.1⟩
    obtain ⟨_, _, heval, -⟩ := h
    obtain ⟨k, hrun⟩ := heval.exists_run
    obtain ⟨t, hpath, hne, -⟩ := putBuff_eq_ok hrun
    have hsame : (t.buf b).bCount = (s.buf b).bCount := congrArg BufferLinks.bCount (hpath.links b)
    exact absurd (hsame.trans hcount) hne
  · rw [(putBuff_evals hclear hcount).does_iff, and_iff_right hcount]

/-- The entry gets the contents of its slot. -/
theorem fillInode_does {bh : Fin n} {x : MInode} (hlock : (s.buf bh).bLock = false)
    (hclear : (s.inode i).iLock = false) :
    Does (fillInode i bh) env s (fun _ t => t.inode i = x) ↔ (s.buf bh).bCount ≠ 0 ∧
      { s.inode i with toDInode := (s.buf bh).bData.dInode (inodeSlot (s.inode i).iNum) } = x := by
  set v := s.setInode i fun x =>
    { x with toDInode := (s.buf bh).bData.dInode (inodeSlot x.iNum) } with hv
  have hput : Does (fillInode i bh) env s (fun _ t => t.inode i = x) ↔
      Does (putBuff (some bh) >>= fun _ => Prog.update (unlockInode i)) env v
        fun _ t => t.inode i = x := Iff.rfl
  have hfilled : (unlockInode i ((v.setIntr false).countDown bh)).inode i =
      { s.inode i with toDInode := (s.buf bh).bData.dInode (inodeSlot (s.inode i).iNum) } := by
    have hself : v.inode i =
        { s.inode i with toDInode := (s.buf bh).bData.dInode (inodeSlot (s.inode i).iNum) } :=
      Function.update_self ..
    refine (Function.update_self ..).trans ?_
    show { v.inode i with iLock := false } = _
    rw [hself, ← hclear]
  rw [hput, (putBuff_stable _).does_bind, putBuff_does (s := v) hlock, ← hfilled]
  exact and_congr_right fun _ => (Evals.of_eq fun _ => rfl).does_iff

/-- Where `read_inode` of the inode of an entry reads the slot of the inode table, in a buffer
with a reference to give back, it finds the contents of the entry. -/
def Rereads (env : Env n) (s : Sys n) (i : Fin nrInode) : Prop :=
  Does (inodeBuffer i) env ((s.setIntr false).inodeUp i) fun bh t => (t.buf bh).bCount ≠ 0 ∧
    (t.buf bh).bData.dInode (inodeSlot (s.inode i).iNum) = (s.inode i).toDInode

/-- **Coherence of the inode cache.**  `read_inode` of an inode that has an entry returns that
entry, and all of it but the count is as it was, exactly if the inode has links or its slot of
the inode table has the same contents: with no links it is read again. -/
theorem read_inode_coherent {refs : List InodeRef} (h : InodeReach env refs s)
    (hdev : Short dev) (hnr : Short nr) (his : (s.inode i).Is dev nr)
    (hroom : (s.inode i).iCount + 1 < 65536) :
    Does (readInode dev nr) env s (fun j t => j = i ∧
      t.inode i = { s.inode i with iCount := (s.inode i).iCount + 1 }) ↔
      (s.inode i).iNlinks ≠ 0 ∨ Rereads env s i := by
  have hid := h.identified
  have hget : Evals (getInode dev nr) env s i ((s.setIntr false).inodeUp i) :=
    hid.getInode (Nat.one_le_iff_ne_zero.mp hdev.1) his
  set u := (s.setIntr false).inodeUp i with hu
  have hup : u.inode i = { s.inode i with iCount := (s.inode i).iCount + 1 } := by
    simp [hu, Sys.inodeUp, Nat.mod_eq_of_lt hroom]
  have hlinks : (u.inode i).iNlinks = (s.inode i).iNlinks := by rw [hup]
  unfold readInode
  rw [hdev.unsigned, hnr.unsigned, (getInode_stable _ _).does_bind, hget.does_iff]
  by_cases hzero : (s.inode i).iNlinks = 0
  · have hread : Does (readInodeFromBuff i >>= fun _ => pure i) env u (fun j t => j = i ∧
        t.inode i = { s.inode i with iCount := (s.inode i).iCount + 1 }) ↔ Rereads env s i := by
      rw [(readInodeFromBuff_stable i).does_bind, readInodeFromBuff_halves]
      have hpure : ∀ t : Sys n, Does (pure i : P n (Fin nrInode)) env t (fun j t => j = i ∧
          t.inode i = { s.inode i with iCount := (s.inode i).iCount + 1 }) ↔
          t.inode i = { s.inode i with iCount := (s.inode i).iCount + 1 } := fun t =>
        (Evals.of_eq fun _ => rfl).does_iff.trans (and_iff_right rfl)
      simp only [hpure]
      rw [(inodeBuffer_stable i).does_bind]
      refine Does.congr fun k bh t hrun => ?_
      obtain ⟨hsame, htable⟩ := inodeBuffer_table hrun
      have hclear : (t.inode i).iLock = false := by
        rw [hsame, hup]
        exact hid.unlocked i
      rw [fillInode_does htable.lock hclear, hsame, hup]
      refine and_congr_right fun _ => ⟨fun heq => congrArg MInode.toDInode heq, fun heq => ?_⟩
      simp only [heq]
    rw [← hread, or_iff_right (not_not.mpr hzero)]
    show Does (if (u.inode i).iNlinks = 0 then _ else _) env u _ ↔ _
    rw [if_pos (hlinks.trans hzero)]
  · refine iff_of_true ?_ (.inl hzero)
    refine .bind_read ?_
    rw [if_neg (hlinks ▸ hzero)]
    exact .pure ⟨rfl, hup⟩

/-- Inode 1 has links, and is found with the fields that it has. -/
theorem read_inode_coherent_linked :
    Does (readInode ((0x300 : ℕ) : ℤ) ((1 : ℕ) : ℤ)) (Env.diligent 0x50) mounted.reread fun j t =>
      j = 1 ∧ t.inode 1 = { mounted.reread.inode 1 with iCount := 2 } :=
  ((read_inode_coherent (i := 1) reread_reach (by decide) (by decide)
    ⟨by decide +kernel, by decide +kernel⟩ (by decide +kernel)).mpr (.inl (by decide +kernel))).mono
    fun _ _ h => ⟨h.1, h.2.trans
      (by rw [show (mounted.reread.inode 1).iCount = 1 by decide +kernel])⟩

/-- The holder of inode 1 removes its last link and changes its mode. -/
def unlinked : Sys 1 :=
  mounted.reread.setInode 1 fun x => { x with iNlinks := 0, iMode := 5, iDirt := true }

/-- Another `read_inode` brings the old mode and the old links back. -/
theorem unlinked_inode_reread :
    ¬ ∀ (env : Env 1) (refs : List InodeRef) (s : Sys 1) (dev nr : ℕ) (i : Fin nrInode),
      InodeReach env refs s → Short dev → Short nr → (s.inode i).Is dev nr →
      0 < (s.inode i).iCount → (s.inode i).iCount + 1 < 65536 →
      Does (readInode dev nr) env s fun j t =>
        j = i ∧ t.inode i = { s.inode i with iCount := (s.inode i).iCount + 1 } := by
  intro h
  have hreach : InodeReach (Env.diligent 0x50) [⟨0x300, 1, 1⟩] unlinked :=
    .other reread_reach (.single (.assign 1
      { (mounted.reread.inode 1).toDInode with iNlinks := 0, iMode := 5 } true fun _ => rfl))
  have hread : readInode ((0x300 : ℕ) : ℤ) ((1 : ℕ) : ℤ) (Env.diligent 0x50) 40 unlinked =
      .ok 1 unlinked.reread :=
    Res.eq_ok (show _ = some (1 : Fin nrInode) by decide +kernel)
  have hdoes := h _ _ _ 0x300 1 1 hreach (by decide) (by decide)
    ⟨by decide +kernel, by decide +kernel⟩ (by decide +kernel) (by decide +kernel)
  have hsame := ((readInode_stable _ _).ensures hdoes 40 1 unlinked.reread hread).2
  exact absurd (congrArg (fun x => x.iMode) hsame) (by decide +kernel)

end EgGS
