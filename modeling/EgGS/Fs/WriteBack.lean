import EgGS.Cache.Confined
import EgGS.Cache.Faulty
import EgGS.Fs.Identity
import EgGS.Fs.Refinement

/-!
# Writing everything back

`sync_all_inodes_to_buff` copies the dirty inodes into the buffers of the inode table, and
`sync_dev` then queues a write for every dirty buffer of a device.

* `Syncs`: the two functions run in a state of any run of the caches, in which requests may have
  failed, and from then on the requests are completed without error.
* `sync_complete`: when they are done, the disk has what was dirty, if no two of the blocks that
  are used share a sector, and no buffer with something to write is out of date.
* `sync_incomplete`: otherwise a write may overtake one of another device to the same sector, and
  what a failed write left in a buffer may be read over.
-/

namespace EgGS

open Lib Prog Relation

variable {n : ℕ} {env : Env n} {k : ℕ} {s s' s₀ t u v : Sys n} {dev block : ℕ} {sb p : Fin nrSuper}
variable {which : Rw → Prop} {used loose W : ℕ × ℕ → Prop} {M M' : Contents} {refs : Refs n}
variable {i j : Fin nrInode} {b c : Fin n}

/-! ## One inode -/

/-- Who has a count that is not 0 did not take the last reference that fits. -/
theorem Mapped.roomy (h : Mapped which used loose M refs s) (henv : env.Works which)
    (hwhich : which .write) (hused : used (dev, block)) (htaken : Taken env s dev block b t)
    (hcount : (t.buf b).bCount ≠ 0) : s.Roomy refs dev block := by
  have hdev := h.dev_ne_zero hused
  intro c hc
  have hbound := h.counted.bound c
  cases htaken with
  | @found u hpath hfound heq =>
      have hkey : s.Keyed b dev block := (Submits.keyed_iff hpath b).mp hfound.key
      have hsame : s.key c = s.key b :=
        ((Sys.key_eq (dev, block)).mpr hc).trans ((Sys.key_eq (dev, block)).mpr hkey).symm
      obtain rfl : c = b := h.links.key_unique b c (hkey.1.symm ▸ hdev) hsame
      have hold := (h.submits henv hwhich hpath).counted.count c
      have hup : (t.buf c).bCount = ((u.buf c).bCount + 1) % 256 := by simp [heq, Sys.countUp]
      rw [hup, hold] at hcount
      omega
  | @recycled u k hpath hrec hreuse =>
      obtain ⟨j, hmissing⟩ := hrec.missing
      have hfound : Evals (findBuff dev block) env u (some c) u :=
        findBuff_evals (h.submits henv hwhich hpath).links hdev (hpath.keyed hc)
      have heq := (hfound.unique ((findBuff_stable dev block).evals hmissing)).1
      exact absurd heq (by simp)

/-- **A buffer that was read** has the contents of its block, if its count has not run over. -/
theorem Mapped.readBuff_holds (h : Mapped which used loose M refs s) (henv : env.Works which)
    (hwhich : which .write) (hused : used (dev, block))
    (hread : EgGS.readBuff dev block env k s = .ok (some b) s') (hcount : (s'.buf b).bCount ≠ 0) :
    Holds which used loose M refs dev block b s' ∧ Beside refs s s' ∧
      ∀ W s₀, Confined W s₀ (.idle, s) → Confined W s₀ (.idle, s') := by
  obtain ⟨b', t, t', htaken, hwait, hdone⟩ := readBuff_taken hread
  cases hdone with
  | good hup hlock =>
      have hsame : (s'.buf b).bCount = (t.buf b).bCount :=
        congrArg BufferLinks.bCount (hwait.links b)
      have hroom := h.roomy henv hwhich hused htaken (hsame ▸ hcount)
      obtain ⟨ht, hbeside, hkey, -, -⟩ := h.taken henv hwhich hused hroom htaken
      have hkey' : s'.key b = (dev, block) := (Sys.key_of_rest hwait.rest b).trans hkey
      refine ⟨⟨ht.submits henv hwhich hwait, hkey', hup, hlock⟩,
        hbeside.trans (ht.beside henv hwhich hwait), fun W s₀ hconf => ?_⟩
      exact (hconf.taken h henv hwhich htaken).submits henv.answers ht.working.serving hwait

/-- What a run of `sync_inode_to_buff` does for a dirty inode: it stores the inode in its block of
the table, and confined to blocks among which that is. -/
structure InodeSaving (used : ℕ × ℕ → Prop) (M : Contents) (refs : Refs n) (s : Sys n)
    (i : Fin nrInode) (p : Fin nrSuper) (s' : Sys n) : Prop where
  first : FirstSuper s (s.inode i).iDev p
  mapped : Mapped (fun _ => True) used (fun _ => False)
    ((s.superBlock p).writeInode (s.inode i).iDev M (s.inode i).iNum (s.inode i).toDInode) refs s'
  beside : Beside refs (s.setInode i fun x => { x with iDirt := false, iLock := false }) s'
  confined : ∀ W s₀, Confined W s₀ (.idle, s) →
    W ((s.inode i).iDev, (s.superBlock p).inodeBlock (s.inode i).iNum) → Confined W s₀ (.idle, s')

/-- **A dirty inode is stored**, if the call returns. -/
theorem syncInodeToBuff_saving (henv : env.Works fun _ => True)
    (h : Mapped (fun _ => True) used (fun _ => False) M refs s) (hdirt : (s.inode i).iDirt = true)
    (hdev : (s.inode i).iDev ≠ 0)
    (hused : ∀ p, FirstSuper s (s.inode i).iDev p →
      used ((s.inode i).iDev, (s.superBlock p).inodeBlock (s.inode i).iNum))
    (hrun : syncInodeToBuff i env k s = .ok () s') : ∃ p, InodeSaving used M refs s i p s' := by
  unfold syncInodeToBuff at hrun
  obtain ⟨⟨⟩, s₁, hlock, hrun⟩ := bind_eq_ok.mp hrun
  obtain ⟨rfl, hclear⟩ := lockInode_eq hlock
  rw [read_bind, ite_run, if_neg (by simp [hdirt, hdev])] at hrun
  obtain ⟨found, s₂, hfind, hrun⟩ := bind_eq_ok.mp hrun
  cases found with
  | none => simp [panic] at hrun
  | some p =>
      have hpath : Submits env (.idle, s) (.idle, s₂) :=
        (setIntr_submits true).trans (findSuper_found hfind).1
      have hfirst : FirstSuper s (s.inode i).iDev p := by
        cases findSuper_super hfind with
        | found hfirst _ _ _ => exact ⟨hfirst.sDev, hfirst.first⟩
      have hinode : s₂.inode = s.inode := congrArg Rest.inode hpath.rest
      have hsuper : s₂.superBlock = s.superBlock := congrArg Rest.superBlock hpath.rest
      simp only [read_bind, hsuper] at hrun
      obtain ⟨found, s₃, hread, hrun⟩ := bind_eq_ok.mp hrun
      cases found with
      | none => simp [panic] at hrun
      | some bh =>
          simp only [update_bind, bind_eq_ok, update_run, Res.ok.injEq, true_and] at hrun
          obtain ⟨⟨⟩, s₄, hput, rfl⟩ := hrun
          have h₂ := h.submits henv trivial hpath
          have hblock := hused p hfirst
          rw [hinode] at hread
          obtain ⟨u, hrest, hcount, rfl⟩ := putBuff_eq_ok hput
          have hcount' : (s₃.buf bh).bCount ≠ 0 := by
            have hsame : ((s₃.copyInode i bh).buf bh).bCount = (s₃.buf bh).bCount := by
              simp [Sys.copyInode, store]
            rw [← hsame]
            exact (congrArg BufferLinks.bCount (hrest.links bh)) ▸ hcount
          obtain ⟨hold, hbeside, hconfined⟩ := h₂.readBuff_holds henv trivial hblock hread hcount'
          have hinode' : s₃.inode i = s.inode i :=
            (congrFun hbeside.inode i).trans (congrFun hinode i)
          -- what `memcpy` puts into the block is the entry of the inode
          have hdata :
              (s₃.buf bh).bData.setDInode (inodeSlot (s₃.inode i).iNum) (s₃.inode i).toDInode =
              (M ((s.inode i).iDev, (s.superBlock p).inodeBlock (s.inode i).iNum)).setDInode
                (inodeSlot (s.inode i).iNum) (s.inode i).toDInode := by
            rw [hold.data hblock, hinode']
          have hcopied := hold.mapped.copyInode i (hold.dev_ne_zero hblock) hold.uptodate
          rw [hold.key, hdata] at hcopied
          have hpos : 0 < (refs.add bh) bh := by simp [Refs.add]
          have hdown := (hcopied.submits henv trivial hrest).down hpos not_false
          rw [Refs.sub_add] at hdown
          refine ⟨p, hfirst, hdown.setInode i _, ?_, fun W s₀ hconf hW => ?_⟩
          · have hbefore : Beside refs s s₃ := (h.beside henv trivial hpath).trans hbeside
            have hafter : Beside (refs.add bh) (s₃.copyInode i bh) (u.countDown bh) :=
              (hcopied.beside henv trivial hrest).trans (.countDown u bh)
            have hframe := ((hbefore.setInode i fun x => { x with iDirt := false }).trans
              ((Beside.copyInode s₃ i bh).trans (hafter.mono (refs.le_add bh)))).setInode i
                fun x => { x with iLock := false }
            rw [Sys.setInode_setInode] at hframe
            exact hframe
          · -- only the sectors of the table are written on the way
            have hread' := hconfined W s₀ (hconf.submits henv.answers h.working.serving hpath)
            have hstored := hread'.store (hold.key ▸ hW)
              ((s₃.buf bh).bData.setDInode (inodeSlot (s₃.inode i).iNum) (s₃.inode i).toDInode)
            have hcopy : Confined W s₀ (.idle, s₃.copyInode i bh) :=
              ⟨hstored.dirty, hstored.queued, hstored.making, hstored.disk, hstored.geo⟩
            have hrest' : Confined W s₀ (.idle, u.countDown bh) :=
              (hcopy.submits henv.answers hcopied.working.serving hrest).count bh _
            exact ⟨hrest'.dirty, hrest'.queued, hrest'.making, hrest'.disk, hrest'.geo⟩

/-! ## All inodes -/

/-- The inode is one of the device, and `sync_all_inodes_to_buff` writes it. -/
def MInode.Unsynced (x : MInode) (dev : ℕ) : Prop :=
  x.iDirt = true ∧ x.iPipe = false ∧ x.iDev = dev

instance (x : MInode) (dev : ℕ) : Decidable (x.Unsynced dev) :=
  inferInstanceAs (Decidable (_ ∧ _ ∧ _))

/-- The contents of a block of the device after the entry `i` was synced. -/
def Sys.storeInode (s : Sys n) (sb : Fin nrSuper) (dev block : ℕ) (data : Block) (i : Fin nrInode) :
    Block :=
  if (s.inode i).Unsynced dev ∧ (s.superBlock sb).inodeBlock (s.inode i).iNum = block then
    data.setDInode (inodeSlot (s.inode i).iNum) (s.inode i).toDInode
  else data

/-- The contents of a block of the device after all entries were synced. -/
def Sys.withInodes (s : Sys n) (sb : Fin nrSuper) (dev block : ℕ) (data : Block) : Block :=
  (List.finRange nrInode).foldl (s.storeInode sb dev block) data

/-- The block has a dirty buffer or one that is being written, or a dirty inode goes there. -/
def Sys.Pending (s : Sys n) (x : ℕ × ℕ) : Prop :=
  (∃ b, s.key b = x ∧ ((s.buf b).bDirt = true ∨ s.Queued b .write)) ∨
    x.1 ≠ 0 ∧ ∃ i p, (s.inode i).Unsynced x.1 ∧ FirstSuper s x.1 p ∧
      (s.superBlock p).inodeBlock (s.inode i).iNum = x.2

/-- Dirty inodes go to blocks that are used. -/
def Sys.TablesUsed (s : Sys n) (used : ℕ × ℕ → Prop) : Prop :=
  ∀ i dev p, dev ≠ 0 → (s.inode i).Unsynced dev → FirstSuper s dev p →
    used (dev, (s.superBlock p).inodeBlock (s.inode i).iNum)

/-- Between two rounds of `sync_all_inodes_to_buff`: the entries `done` have been synced. -/
structure Syncing (used : ℕ × ℕ → Prop) (M : Contents) (refs : Refs n) (s : Sys n) (dev : ℕ)
    (sb : Fin nrSuper) (done : List (Fin nrInode)) (t : Sys n) : Prop where
  mapped : ∃ M', Mapped (fun _ => True) used (fun _ => False) M' refs t ∧
    ∀ block, M' (dev, block) = done.foldl (s.storeInode sb dev block) (M (dev, block))
  superBlock : t.superBlock = s.superBlock
  disk : ∀ i, (t.inode i).toDInode = (s.inode i).toDInode
  core : ∀ i, (t.inode i).core = (s.inode i).core
  ahead : ∀ i, i ∉ done → (t.inode i).iDirt = (s.inode i).iDirt
  clean : ∀ i ∈ done, (s.inode i).iPipe = false → (s.inode i).iDev ≠ 0 → (t.inode i).iDirt = false
  confined : Confined s.Pending s (.idle, t)

namespace Syncing

variable {done : List (Fin nrInode)}

theorem start (h : Mapped (fun _ => True) used (fun _ => False) M refs s) :
    Syncing used M refs s dev sb [] s where
  mapped := ⟨M, h, fun _ => rfl⟩
  superBlock := rfl
  disk _ := rfl
  core _ := rfl
  ahead _ _ := rfl
  clean _ hi := absurd hi List.not_mem_nil
  confined := .start (fun b hb => .inl ⟨b, rfl, .inl hb⟩) fun b hb => .inl ⟨b, rfl, .inr hb⟩

theorem submits (h : Syncing used M refs s dev sb done t) (henv : env.Works fun _ => True)
    (hpath : Submits env (.idle, t) (.idle, u)) : Syncing used M refs s dev sb done u := by
  obtain ⟨M', hmapped, hdata⟩ := h.mapped
  have hinode : u.inode = t.inode := congrArg Rest.inode hpath.rest
  refine ⟨⟨M', hmapped.submits henv trivial hpath, hdata⟩,
    (congrArg Rest.superBlock hpath.rest).trans h.superBlock, ?_, ?_, ?_, ?_,
    h.confined.submits henv.answers hmapped.working.serving hpath⟩ <;> rw [hinode]
  exacts [h.disk, h.core, h.ahead, h.clean]

theorem first (h : Syncing used M refs s dev sb done t) (hfirst : FirstSuper t block p) :
    FirstSuper s block p := by
  obtain ⟨hdev, hbefore⟩ := hfirst
  rw [h.superBlock] at hdev hbefore
  exact ⟨hdev, hbefore⟩

/-- An entry that is clean, a pipe or of no device is left alone. -/
theorem skip (h : Syncing used M refs s dev sb done t) (hdev : dev ≠ 0)
    (hskip : (s.inode i).iDirt = true → (s.inode i).iPipe = false → (s.inode i).iDev = 0)
    (hi : i ∉ done) : Syncing used M refs s dev sb (done ++ [i]) t := by
  obtain ⟨M', hmapped, hdata⟩ := h.mapped
  refine ⟨⟨M', hmapped, fun block => ?_⟩, h.superBlock, h.disk, h.core, fun j hj => ?_,
    fun j hj hpipe hdev' => ?_, h.confined⟩
  · have hnot : ¬ (s.inode i).Unsynced dev := fun hun =>
      hdev (hun.2.2.symm.trans (hskip hun.1 hun.2.1))
    rw [List.foldl_append, List.foldl_cons, List.foldl_nil, hdata, Sys.storeInode,
      if_neg fun hun => hnot hun.1]
  · exact h.ahead j fun hj' => hj (List.mem_append_left _ hj')
  · rcases List.mem_append.mp hj with hj' | hj'
    · exact h.clean j hj' hpipe hdev'
    · obtain rfl := List.mem_singleton.mp hj'
      rw [h.ahead j hi]
      exact Bool.eq_false_iff.mpr fun hdirt => hdev' (hskip hdirt hpipe)

theorem unlock (h : Syncing used M refs s dev sb done t) (i : Fin nrInode) :
    Syncing used M refs s dev sb done (unlockInode i t) := by
  obtain ⟨M', hmapped, hdata⟩ := h.mapped
  have hconf := h.confined
  refine ⟨⟨M', hmapped.setInode i _, hdata⟩, h.superBlock, fun j => ?_, fun j => ?_, fun j hj => ?_,
    fun j hj hpipe hdev => ?_, ⟨hconf.dirty, hconf.queued, hconf.making, hconf.disk, hconf.geo⟩⟩
  · rw [unlockInode, Sys.setInode_at (·.toDInode), ite_self]
    exact h.disk j
  · rw [unlockInode, Sys.setInode_at (·.core)]
    exact (ite_self _).trans (h.core j)
  · rw [unlockInode, Sys.setInode_at (·.iDirt), ite_self]
    exact h.ahead j hj
  · rw [unlockInode, Sys.setInode_at (·.iDirt), ite_self]
    exact h.clean j hj hpipe hdev

/-- **A dirty entry is written.** -/
theorem write (h : Syncing used M refs s dev sb done t) (hfirst : FirstSuper s dev sb)
    (htables : s.TablesUsed used) (henv : env.Works fun _ => True)
    (hdirt : (s.inode i).iDirt = true)
    (hpipe : (s.inode i).iPipe = false) (hdev : (s.inode i).iDev ≠ 0) (hi : i ∉ done)
    (hrun : syncInodeToBuff i env k t = .ok () u) :
    Syncing used M refs s dev sb (done ++ [i]) u := by
  obtain ⟨M', hmapped, hdata⟩ := h.mapped
  have hcore := h.core i
  have hdevt : (t.inode i).iDev = (s.inode i).iDev := congrArg InodeCore.iDev hcore
  have hnumt : (t.inode i).iNum = (s.inode i).iNum := congrArg InodeCore.iNum hcore
  have hun : (s.inode i).Unsynced (s.inode i).iDev := ⟨hdirt, hpipe, rfl⟩
  have hused : ∀ p, FirstSuper t (t.inode i).iDev p →
      used ((t.inode i).iDev, (t.superBlock p).inodeBlock (t.inode i).iNum) := by
    rw [hdevt, hnumt, h.superBlock]
    exact fun p hp => htables i _ p hdev hun (h.first hp)
  obtain ⟨p, hsaving⟩ := syncInodeToBuff_saving henv hmapped ((h.ahead i hi).trans hdirt)
    (hdevt ▸ hdev) hused hrun
  have hp : FirstSuper s (s.inode i).iDev p := h.first (hdevt ▸ hsaving.first)
  have hinode : u.inode = (t.setInode i fun x => { x with iDirt := false, iLock := false }).inode :=
    hsaving.beside.inode
  refine ⟨⟨_, hsaving.mapped, fun block => ?_⟩, hsaving.beside.superBlock.trans h.superBlock,
    fun j => ?_, fun j => ?_, fun j hj => ?_, fun j hj hpipe' hdev' => ?_, ?_⟩
  · rw [List.foldl_append, List.foldl_cons, List.foldl_nil, ← hdata, hdevt, hnumt, h.disk i,
      h.superBlock, SuperBlock.writeInode]
    -- an inode of another device changes no block of this one
    by_cases hsame : (s.inode i).iDev = dev
    · subst hsame
      obtain rfl : p = sb := hp.unique hfirst
      -- the block of its entry, or any other one
      by_cases hblock : (s.superBlock p).inodeBlock (s.inode i).iNum = block
      · subst hblock
        rw [Function.update_self, Sys.storeInode, if_pos ⟨hun, rfl⟩]
      · rw [Function.update_of_ne fun heq => hblock (congrArg Prod.snd heq).symm, Sys.storeInode,
          if_neg fun hboth => hblock hboth.2]
    · rw [Function.update_of_ne fun heq => hsame (congrArg Prod.fst heq).symm, Sys.storeInode,
        if_neg fun hboth => hsame hboth.1.2.2]
  · rw [hinode, Sys.setInode_at (·.toDInode), ite_self]
    exact h.disk j
  · rw [hinode, Sys.setInode_at (·.core)]
    exact (ite_self _).trans (h.core j)
  · have hji : i ≠ j := fun heq => hj (List.mem_append_right _ (by simp [heq]))
    rw [hinode, Sys.setInode_at (·.iDirt), if_neg hji]
    exact h.ahead j fun hj' => hj (List.mem_append_left _ hj')
  · rw [hinode, Sys.setInode_at (·.iDirt)]
    by_cases hij : i = j
    · rw [if_pos hij]
    · rw [if_neg hij]
      rcases List.mem_append.mp hj with hj' | hj'
      · exact h.clean j hj' hpipe' hdev'
      · exact absurd (List.mem_singleton.mp hj').symm hij
  · refine hsaving.confined _ _ h.confined (.inr ?_)
    rw [hdevt, hnumt, h.superBlock]
    exact ⟨hdev, i, p, hun, hp, rfl⟩

/-- **`sync_all_inodes_to_buff`** syncs all entries. -/
theorem run (h : Mapped (fun _ => True) used (fun _ => False) M refs s) (hdev : dev ≠ 0)
    (hfirst : FirstSuper s dev sb) (htables : s.TablesUsed used) (henv : env.Works fun _ => True)
    (hrun : syncAllInodesToBuff env k s = .ok () t) :
    Syncing used M refs s dev sb (List.finRange nrInode) t := by
  have hall : ∃ done, List.finRange nrInode = done ++ [] ∧ Syncing used M refs s dev sb done t := by
    refine forEach_ensures (I := fun rest t => ∃ done, List.finRange nrInode = done ++ rest ∧
      Syncing used M refs s dev sb done t) ?_ _ s t ⟨[], rfl, .start h⟩ hrun
    rintro i rest t u ⟨done, hsplit, ht⟩ hround
    have hi : i ∉ done := by
      have hnodup := List.nodup_finRange nrInode
      rw [hsplit, List.nodup_append] at hnodup
      exact fun hmem => hnodup.2.2 i hmem i List.mem_cons_self rfl
    refine ⟨done ++ [i], by rw [hsplit, List.append_assoc]; rfl, ?_⟩
    obtain ⟨⟨⟩, t₁, hwait, hround⟩ := bind_eq_ok.mp hround
    have ht₁ := ht.submits henv (waitOnInode_submits hwait)
    have hpipe : (t₁.inode i).iPipe = (s.inode i).iPipe := congrArg InodeCore.iPipe (ht₁.core i)
    rw [read_bind, ite_run] at hround
    split at hround
    · rename_i hdirty
      rw [ht₁.ahead i hi, hpipe, Bool.not_eq_true'] at hdirty
      by_cases hzero : (s.inode i).iDev = 0
      · have hzero' : (t₁.inode i).iDev = 0 := (congrArg InodeCore.iDev (ht₁.core i)).trans hzero
        cases syncInodeToBuff_synced hround with
        | skipped _ _ =>
            exact ((ht₁.submits henv (setIntr_submits true)).unlock i).skip hdev
              (fun _ _ => hzero) hi
        | copied _ hne _ _ _ _ => exact absurd hzero' hne
      · exact ht₁.write hfirst htables henv hdirty.1 hdirty.2 hzero hi hround
    · rename_i hclean
      rw [ht₁.ahead i hi, hpipe, Bool.not_eq_true'] at hclean
      simp only [pure_run, Res.ok.injEq, true_and] at hround
      exact hround ▸ ht₁.skip hdev (fun hd hp => absurd ⟨hd, hp⟩ hclean) hi
  obtain ⟨done, hsplit, ht⟩ := hall
  rw [hsplit, List.append_nil]
  exact ht

end Syncing

/-! ## Numbers of inodes -/

/-- An entry that has a device has a number. -/
def Sys.Numbered (s : Sys n) : Prop := ∀ i, (s.inode i).iDev ≠ 0 → Short (s.inode i).iNum

namespace Sys.Numbered

theorem steadily (h : s.Numbered) (hpath : Steadily env s t) : t.Numbered := by
  intro i hdev
  have hcore := hpath.core i
  have hnum : (t.inode i).iNum = (s.inode i).iNum := congrArg InodeCore.iNum hcore
  have hsame : (t.inode i).iDev = (s.inode i).iDev := congrArg InodeCore.iDev hcore
  rw [hnum]
  exact h i (hsame ▸ hdev)

/-- One entry is assigned. -/
theorem setInode {f : MInode → MInode} (h : s.Numbered)
    (hf : (f (s.inode i)).iDev ≠ 0 → Short (f (s.inode i)).iNum) : (s.setInode i f).Numbered := by
  intro j hdev
  by_cases hj : j = i
  · subst hj
    simp only [Sys.setInode, Function.update_self] at hdev ⊢
    exact hf hdev
  · simp only [Sys.setInode, Function.update_of_ne hj] at hdev ⊢
    exact h j hdev

theorem claim {nr : ℕ} (h : s.Numbered) (hnr : Short nr) : (s.claimInode i dev nr).Numbered :=
  h.setInode fun _ => by simpa only [Nat.mod_eq_of_lt hnr.2] using hnr

theorem put (h : s.Numbered) (hput : InodePut env s i s') : s'.Numbered := by
  cases hput with
  | @dropped t hpath _ => exact (h.steadily hpath).setInode fun hdev => h.steadily hpath i hdev
  | erased hpath _ => exact (h.steadily hpath).setInode fun hdev => absurd rfl hdev

end Sys.Numbered

/-- In every run of the inode cache the inodes have numbers. -/
theorem InodeReach.numbered {irefs : List InodeRef} (h : InodeReach env irefs s) : s.Numbered := by
  induction h with
  | start hzero => exact fun i hdev => absurd (by rw [hzero i]; rfl) hdev
  | other _ hpath ih => exact ih.steadily hpath
  | @read _ s s' _ dev nr i hreach hdev hnr hread _ ih =>
      obtain ⟨t, hget, hfill⟩ := readInode_got hread
      rw [hdev.unsigned, hnr.unsigned] at hget
      have htaken : t.Numbered := by
        cases getInode_taken hget with
        | @found u _ _ _ hpath _ _ _ =>
            exact (ih.steadily hpath).setInode fun h => ih.steadily hpath i h
        | made hpath _ hsame =>
            obtain ⟨-, rfl⟩ := hsame hreach.identified.flat
            exact (ih.steadily hpath).claim hnr
      rcases hfill with ⟨-, hfill⟩ | ⟨-, rfl⟩
      · exact htaken.steadily hfill.steady
      · exact htaken
  | @create _ s s' _ dev i hreach hdev hcreate ih =>
      cases createInode_created hcreate with
      | @made t _ _ dev' _ hpath hne hlt _ hsame =>
          obtain ⟨-, rfl⟩ := hsame hreach.identified.flat
          have hclaimed : (t.claimInode i dev' _).Numbered :=
            (ih.steadily hpath).claim ⟨Nat.pos_of_ne_zero hne, hlt⟩
          exact hclaimed.setInode (f := fun x => { x with iNlinks := 1, iDirt := true })
            fun hdev => hclaimed i hdev
  | createFailed _ hcreate ih =>
      cases createInode_created hcreate with
      | failed hpath => exact ih.steadily hpath
  | put _ _ hput ih => exact ih.put (putInode_put hput)

/-! ## Complete -/

/-- `sync_all_inodes_to_buff` and `sync_dev` run one after the other, and then all requests that
are queued are completed. -/
structure SyncRun (env : Env n) (dev : ℕ) (s v : Sys n) : Prop where
  runs : ∃ k t k' u, syncAllInodesToBuff env k s = .ok () t ∧ syncDev dev env k' t = .ok () u ∧
    Submits env (.idle, u) (.idle, v)
  drained : ∀ b cmd, ¬ v.Queued b cmd

/-- Of the device everything was written back on the way from `s` to `v`, and nothing else was
written but what was pending. -/
structure SyncComplete (dev : ℕ) (sb : Fin nrSuper) (s v : Sys n) : Prop where
  buffers : ∀ b, (v.buf b).bDev = dev → (v.buf b).bDirt = false
  inodes : ∀ i, (v.inode i).iDev = dev → (v.inode i).iPipe = false → (v.inode i).iDirt = false
  stored : ∀ b, (s.buf b).bDev = dev → (s.buf b).bDirt = true →
    v.diskBlock dev (s.buf b).bBlocknr = s.withInodes sb dev (s.buf b).bBlocknr (s.buf b).bData
  current : ∀ b, (v.buf b).bDev = dev → (v.buf b).bUptodate = true →
    v.diskBlock dev (v.buf b).bBlocknr = (v.buf b).bData
  table : ∀ i, (s.inode i).Unsynced dev →
    (v.diskBlock dev ((s.superBlock sb).inodeBlock (s.inode i).iNum)).dInode
      (inodeSlot (s.inode i).iNum) = (s.inode i).toDInode
  changes : ∀ drive lba, v.disk drive lba ≠ s.disk drive lba →
    ∃ x, s.Pending x ∧ s.geo.SectorOf drive lba x

/-- No two inodes of the device go to the same slot. -/
theorem storeInode_slot (hm : Mounted s dev sb)
    (hown : ∀ i j, (s.inode i).iDev = dev → (s.inode j).iDev = dev →
      (s.inode j).iNum = (s.inode i).iNum → j = i)
    (hnum : ∀ i, (s.inode i).iDev = dev → Short (s.inode i).iNum) {is : List (Fin nrInode)}
    (hi : i ∈ is) (hun : (s.inode i).Unsynced dev) (data : Block) :
    (is.foldl (s.storeInode sb dev ((s.superBlock sb).inodeBlock (s.inode i).iNum)) data).dInode
      (inodeSlot (s.inode i).iNum) = (s.inode i).toDInode := by
  induction is using List.reverseRecOn generalizing i with
  | nil => exact absurd hi List.not_mem_nil
  | append_singleton is j ih =>
      rw [List.foldl_append, List.foldl_cons, List.foldl_nil, Sys.storeInode]
      by_cases hji : j = i
      · subst hji
        rw [if_pos ⟨hun, rfl⟩, dInode_setDInode _ _ (inodeSlot_lt _)]
      · have hmem : i ∈ is := (List.mem_append.mp hi).resolve_right fun hlast =>
          hji (List.mem_singleton.mp hlast).symm
        split
        · rename_i hboth
          -- another inode of the same block has another slot
          have hne : inodeSlot (s.inode i).iNum ≠ inodeSlot (s.inode j).iNum := by
            intro hslot
            have hsame := SuperBlock.slot_injective hm.imapBlocks hm.zmapBlocks
              (hnum j hboth.1.2.2) (hnum i hun.2.2) hboth.2 hslot.symm
            exact hji (hown i j hun.2.2 hboth.1.2.2 hsame)
          rw [dInode_setDInode_ne _ _ hne (inodeSlot_lt _)]
          exact ih hmem hun
        · exact ih hmem hun

/-- **Everything is written back**, from a state in which the cache is a map. -/
theorem Mapped.synced (h : Mapped (fun _ => True) used (fun _ => False) M refs s)
    (henv : env.Works fun _ => True) (hm : Mounted s dev sb) (htables : s.TablesUsed used)
    (hown : ∀ i j, (s.inode i).iDev = dev → (s.inode j).iDev = dev →
      (s.inode j).iNum = (s.inode i).iNum → j = i)
    (hnum : ∀ i, (s.inode i).iDev = dev → Short (s.inode i).iNum) (hrun : SyncRun env dev s v) :
    SyncComplete dev sb s v := by
  obtain ⟨⟨k, t, k', u, hinode, hsync, hdrain⟩, hdrained⟩ := hrun
  have ht := Syncing.run h hm.device hm.super htables henv hinode
  obtain ⟨Mt, hmt, -⟩ := ht.mapped
  obtain ⟨hpath, hclean⟩ := (syncDev_stable dev).ensures (hmt.ready.syncDev henv dev) _ _ _ hsync
  have hv := ht.submits henv (hpath.trans hdrain)
  obtain ⟨M', hmv, hdata⟩ := hv.mapped
  -- nothing becomes dirty while the requests are completed
  have hbuffers : ∀ b, (v.buf b).bDev = dev → (v.buf b).bDirt = false := by
    intro b hb
    have hserving := (hmt.submits henv trivial hpath).working.serving
    have hdev : (u.buf b).bDev = dev := (congrArg BufferLinks.bDev (hdrain.links b)).symm.trans hb
    exact (hserving.submits henv.answers hdrain).2.clean (hclean b hdev)
  have hstored : ∀ block, used (dev, block) → v.diskBlock dev block = M' (dev, block) := by
    intro block hused
    refine hmv.coherent.stored _ hused not_false fun b hb => ⟨hbuffers b ?_, hdrained b .write⟩
    exact congrArg Prod.fst hb
  -- the conjuncts of `SyncComplete`, all by the map `M'` that holds at the end
  refine ⟨hbuffers, fun i hi hpipe => ?_, fun b hb hdirt => ?_, fun b hb hup => ?_, fun i hun => ?_,
    hv.confined.disk⟩
  · have hdev : (s.inode i).iDev = dev := (congrArg InodeCore.iDev (hv.core i)).symm.trans hi
    have hpipe' : (s.inode i).iPipe = false :=
      (congrArg InodeCore.iPipe (hv.core i)).symm.trans hpipe
    exact hv.clean i (List.mem_finRange i) hpipe' (hdev.symm ▸ hm.device)
  · have hne : (s.buf b).bDev ≠ 0 := hb.symm ▸ hm.device
    have hkey : s.key b = (dev, (s.buf b).bBlocknr) := Prod.ext hb rfl
    have hup : (s.buf b).bUptodate = true := (h.flags.dirty b hdirt).1
    have hM := h.coherent.cached b hne hup
    have hused := h.coherent.known b hne
    rw [hkey] at hM hused
    rw [hstored _ hused, hdata, Sys.withInodes, hM]
  · have hne : (v.buf b).bDev ≠ 0 := hb.symm ▸ hm.device
    have hkey : v.key b = (dev, (v.buf b).bBlocknr) := Prod.ext hb rfl
    have hM := hmv.coherent.cached b hne hup
    have hused := hmv.coherent.known b hne
    rw [hkey] at hM hused
    rw [hstored _ hused, hM]
  · have hused := htables i dev sb hm.device hun hm.super
    rw [hstored _ hused, hdata]
    exact storeInode_slot hm hown hnum (List.mem_finRange i) hun _

/-- What was pending does not depend on the history. -/
theorem SyncComplete.of_forgotten (h : SyncComplete dev sb s.forgotten v) :
    SyncComplete dev sb s v := by
  refine ⟨h.buffers, h.inodes, h.stored, h.current, h.table, fun drive lba hne => ?_⟩
  obtain ⟨x, hpending, hsector⟩ := h.changes drive lba hne
  refine ⟨x, hpending.imp id ?_, hsector⟩
  rintro ⟨hdev, i, p, hun, hfirst, hblock⟩
  exact ⟨hdev, i, p, hun, ⟨hfirst.sDev, hfirst.first⟩, hblock⟩

/-- From the state `s` on, the disk completes all requests without error, also the one that was
in service when the controller had to be recalibrated. -/
structure Completes (env : Env n) (s : Sys n) : Prop where
  works : env.Works fun _ => True
  resumed : s.handler = .recalIntr → ∀ r, s.current = some r → s.Passes r

/-- Where the two functions run: a state of both caches, in a run on a controller that answers
every command, well or not, and with blocks of the hard disk only; a device that is mounted; and
from then on requests that are completed without error. -/
structure Syncs (env later : Env n) [NeZero n] (used : ℕ × ℕ → Prop) (irefs : List InodeRef)
    (s₀ s : Sys n) (dev : ℕ) (sb : Fin nrSuper) (v : Sys n) : Prop where
  works : env.Works fun _ => False
  quiet : s₀.Quiet
  drives : s₀.geo.Drives
  enabled : s₀.hdEnabled = true
  placed : ∀ x, used x → (1 ≤ x.1 ∧ x.1 < 65536) ∧ s₀.geo.Inside x.1 x.2 ∧ EgGS.major x.1 = 3
  cache : CacheRun env used s₀ s
  inodes : InodeReach env irefs s
  mounted : Mounted s dev sb
  tables : s.TablesUsed used
  completes : Completes later s
  run : SyncRun later dev s.forgotten v

/-- **Sync is complete.**  If no two blocks that are used share a sector, and no buffer with
something to write is out of date, then after `sync_all_inodes_to_buff` and `sync_dev`, and when all
requests are done, nothing of the device is dirty, the disk has the contents of the buffers that
were dirty and of the inodes that were, and has changed only where a write was pending. -/
theorem sync_complete [NeZero n] {later : Env n} {irefs : List InodeRef}
    (h : Syncs env later used irefs s₀ s dev sb v)
    (hapart : ∀ x y, used x → used y → x ≠ y → s₀.geo.Disjoint x y) (hwrites : s.WritesUptodate) :
    SyncComplete dev sb s v := by
  have htiled : s₀.geo.Tiled used :=
    ⟨fun x hx => (h.placed x hx).1, fun x hx => (h.placed x hx).2.1, hapart⟩
  have hsustained := h.cache.sustained h.works h.quiet h.drives h.enabled htiled
  have hmapped : Mapped (fun _ => True) used (fun _ => False) s.contents (fun b => (s.buf b).bCount)
      s.forgotten :=
    hsustained.mapped (fun x hx => (h.placed x hx).2.2) hwrites h.completes.resumed
  have htables : s.forgotten.TablesUsed used := fun i dev p hdev hun hfirst =>
    h.tables i dev p hdev hun ⟨hfirst.sDev, hfirst.first⟩
  have hdev := h.mounted.device
  refine (hmapped.synced h.completes.works (h.mounted.congr rfl) htables (fun i j hi hj hnum => ?_)
    (fun i hi => ?_) h.run).of_forgotten
  · exact h.inodes.identified.unique j i dev (s.inode i).iNum hdev ⟨hj, hnum⟩ ⟨hi, rfl⟩
  · exact h.inodes.numbered i (hi.symm ▸ hdev)

/-! ## Runs -/

/-- Tables are assigned. -/
theorem CacheRun.setInode [NeZero n] (h : CacheRun env used s₀ s) (i : Fin nrInode)
    (f : MInode → MInode) :
    CacheRun env used s₀ (s.setInode i f) := h.tables _ s.superBlock s.lastInode s.log

theorem CacheRun.setSuper [NeZero n] (h : CacheRun env used s₀ s) (sb : Fin nrSuper)
    (f : SuperBlock n → SuperBlock n) : CacheRun env used s₀ (s.setSuper sb f) :=
  h.tables s.inode _ s.lastInode s.log

/-- **`read_inode_from_buff`** goes on with a run, if the block of the inode table is used. -/
theorem CacheRun.readInodeFromBuff [NeZero n] {w : Unit} (h : CacheRun env used s₀ s)
    (hused : ∀ p, (s.superBlock p).sDev = (s.inode i).iDev →
      used ((s.inode i).iDev, (s.superBlock p).inodeBlock (s.inode i).iNum))
    (hrun : EgGS.readInodeFromBuff i env k s = .ok w s') : CacheRun env used s₀ s' := by
  unfold EgGS.readInodeFromBuff at hrun
  obtain ⟨⟨⟩, s₁, hlock, hrun⟩ := bind_eq_ok.mp hrun
  obtain ⟨rfl, -⟩ := lockInode_eq hlock
  rw [read_bind] at hrun
  obtain ⟨found, s₂, hfind, hrun⟩ := bind_eq_ok.mp hrun
  cases found with
  | none => simp [panic] at hrun
  | some p =>
      obtain ⟨hpath, hfound⟩ := findSuper_found hfind
      have hsuper : s₂.superBlock = s.superBlock := congrArg Rest.superBlock hpath.rest
      have hinode : s₂.inode = s.inode := congrArg Rest.inode hpath.rest
      simp only [read_bind, hsuper, hinode] at hrun
      obtain ⟨found, s₃, hread, hrun⟩ := bind_eq_ok.mp hrun
      cases found with
      | none => simp [panic] at hrun
      | some bh =>
          simp only [update_bind, bind_eq_ok, update_run, Res.ok.injEq, true_and] at hrun
          obtain ⟨⟨⟩, s₄, hput, rfl⟩ := hrun
          have h₂ := h.steps (.of_submits ((setIntr_submits true).trans hpath))
          have h₃ := h₂.steps (readBuff_steps (hused p (hsuper ▸ (hfound p rfl).1)) hread)
          exact ((h₃.setInode i _).steps (putBuff_steps hput)).setInode i _

/-! ## An inode that is written back -/

/-- The super block of the drive. -/
def driveSuper (p : SuperBlock n) : SuperBlock n :=
  { p with sDev := 0x300, sImapBlocks := 1, sZmapBlocks := 1, sNinodes := 64 }

/-- A disk that reads well, and whose writes all fail. -/
def Env.badWrites : Env n where
  irq s := if s.ctl.outstanding then some ⟨if s.handler = .writeIntr then 0x51 else 0x50⟩ else none
  burst _ := 40
  drq _ := true
  ready _ := true
  nullErrors _ := 0

theorem badWrites_works : (Env.badWrites : Env n).Works fun _ => False where
  answers s i h := by
    simp only [Env.badWrites] at h
    split at h
    · assumption
    · exact absurd h (by simp)
  spares := ⟨fun _ _ _ _ _ _ hfalse => hfalse.elim, fun _ _ _ _ hfalse => hfalse.elim⟩
  ready _ := rfl
  prompt s hout := ⟨0, by simp [Env.badWrites, hout], (by decide : 0 < 40)⟩

/-- The state after a call. -/
def Sys.afterCall {α : Type} (s : Sys n) (env : Env n) (m : P n α) : Sys n := (m env 80 s).state

/-- The drive is mounted, and no inode is in memory. -/
def driveMounted : Sys 1 := (initBuff (initRequestQueue sevens)).setSuper 0 driveSuper

/-- Inode 1 was read, and then its mode was changed. -/
def modeRead : Sys 1 :=
  driveMounted.afterCall Env.badWrites (readInode ((0x300 : ℕ) : ℤ) ((1 : ℕ) : ℤ))
def modeChanged : Sys 1 := modeRead.setInode 1 fun x => { x with iMode := 5, iDirt := true }

/-- The states after both functions and after the request was done. -/
def modeCopied : Sys 1 := modeChanged.forgotten.afterCall (Env.diligent 0x50) syncAllInodesToBuff
def modeQueued : Sys 1 := modeCopied.afterCall (Env.diligent 0x50) (syncDev 0x300)
def modeSent : Sys 1 := modeQueued.afterCall (Env.diligent 0x50) idle
def modeHalf : Sys 1 := modeSent.afterCall (Env.diligent 0x50) idle
def modeSynced : Sys 1 := modeHalf.afterCall (Env.diligent 0x50) idle

theorem driveMounted_flat : driveMounted.Flat := fun _ => rfl

/-- `get_inode` gives an entry to inode 1 and does nothing else. -/
theorem driveMounted_get : Does (getInode 0x300 1) Env.badWrites driveMounted fun i t =>
    ∃ last, t = Sys.claimInode { driveMounted with lastInode := last } i 0x300 1 := by
  have hnone : ∀ i, ¬ (driveMounted.inode i).Is 0x300 1 := fun i hi =>
    absurd (show 0 = 0x300 from hi.1) (by decide)
  refine Does.iterate ((retainInode_does driveMounted_flat (fun _ => rfl) (by decide)).bind ?_)
  rintro ⟨found, d, r⟩ t ⟨hkey, ⟨rfl, rfl, -⟩ | ⟨i, -, hi, -⟩⟩
  · obtain ⟨rfl, rfl⟩ := Prod.ext_iff.mp hkey
    have hpick : pickInode Env.badWrites 80 driveMounted =
        .ok (some 1) (driveMounted.afterCall Env.badWrites pickInode) :=
      Res.eq_ok (by decide +kernel)
    obtain ⟨⟨last, hlast⟩, -⟩ := pickInode_found hpick
    have hpicked := (pickInode_stable.evals hpick).does
      (Q := fun found t => found = some 1 ∧ t = { driveMounted with lastInode := last })
      ⟨rfl, hlast⟩
    have hnew : Does (newInode 0x300 1) Env.badWrites driveMounted fun found t =>
        found = some 1 ∧ t = Sys.claimInode { driveMounted with lastInode := last } 1 0x300 1 := by
      refine hpicked.bind ?_
      rintro _ _ ⟨rfl, rfl⟩
      have hclean : Does (cleanInode 1) Env.badWrites { driveMounted with lastInode := last }
          fun clean t => clean = true ∧ t = { driveMounted with lastInode := last } :=
        Does.iterate (.bind_read (.ite (fun hd => absurd hd Bool.false_ne_true)
          fun _ => .pure ⟨_, rfl, rfl, rfl⟩))
      refine hclean.bind ?_
      rintro _ _ ⟨rfl, rfl⟩
      have hflat : Sys.Flat { driveMounted with lastInode := last } := fun _ => rfl
      refine .ite (fun _ => (findInode_does hflat (by decide)).bind ?_) fun hfalse =>
        absurd rfl hfalse
      rintro ⟨found, d, r⟩ _ ⟨rfl, hkey, hlookup⟩
      obtain ⟨rfl, rfl⟩ := Prod.ext_iff.mp hkey
      cases found with
      | none => exact .bind_update (.pure ⟨rfl, rfl⟩)
      | some i => exact absurd hlookup (hnone i)
    refine hnew.bind ?_
    rintro _ _ ⟨rfl, rfl⟩
    exact .pure ⟨_, rfl, last, rfl⟩
  · exact absurd hi (hnone i)

theorem modeRead_eq : readInode ((0x300 : ℕ) : ℤ) ((1 : ℕ) : ℤ) Env.badWrites 80 driveMounted =
    .ok 1 modeRead := Res.eq_ok (show _ = some (1 : Fin nrInode) by decide +kernel)

/-- The inode is read in a run of the cache. -/
theorem modeRead_run : CacheRun Env.badWrites tableUsed sevens modeRead := by
  have hmounted : CacheRun Env.badWrites tableUsed sevens driveMounted :=
    CacheRun.start.setSuper 0 driveSuper
  obtain ⟨i, t, hget, hrun⟩ := bind_eq_ok.mp modeRead_eq
  obtain ⟨last, rfl⟩ := (getInode_stable _ _).ensures driveMounted_get _ _ _ hget
  have hlinks : (Sys.claimInode { driveMounted with lastInode := last } i 0x300 1).inode i =
      { MInode.zero with iCount := 1, iDev := 0x300, iNum := 1 } := Function.update_self ..
  have hzero :
      ((Sys.claimInode { driveMounted with lastInode := last } i 0x300 1).inode i).iNlinks = 0 :=
    congrArg (fun x => x.iNlinks) hlinks
  rw [read_bind, ite_run, if_pos hzero] at hrun
  obtain ⟨⟨⟩, u, hfill, hdone⟩ := bind_eq_ok.mp hrun
  simp only [pure_run, Res.ok.injEq] at hdone
  obtain ⟨hi, hu⟩ := hdone
  subst hi
  rw [← hu]
  have hclaimed : CacheRun Env.badWrites tableUsed sevens
      (Sys.claimInode { driveMounted with lastInode := last } 1 0x300 1) :=
    hmounted.tables _ driveMounted.superBlock last driveMounted.log
  refine hclaimed.readInodeFromBuff (fun p hp => ?_) hfill
  rw [hlinks] at hp ⊢
  have hblock : ∀ p, (driveMounted.superBlock p).sDev = 0x300 →
      (driveMounted.superBlock p).inodeBlock 1 = 4 := by decide +kernel
  exact .inl (Prod.ext rfl (hblock p hp))

/-- Steps with conditions are steps. -/
theorem CacheSteps.any {asked : ℕ → ℕ → Prop} {may : Sys n → Change n → Prop}
    (h : CacheSteps env asked may s s') : CachePath env s s' := by
  refine h.lift id fun t t' hstep => ?_
  cases hstep with
  | block hpath => exact .block hpath
  | up b => exact .up b
  | down b => exact .down b
  | reuse _ hrec hreuse => exact .reuse trivial hrec hreuse
  | copy mem => exact .copy mem
  | store data _ => exact .store data trivial
  | zero _ hlock => exact .zero trivial hlock
  | invalidate _ hlock => exact .invalidate trivial hlock

/-- A holder changes the mode. -/
theorem Steady.changeMode (s : Sys n) (i : Fin nrInode) (mode : UInt16) :
    Steady env s (s.setInode i fun x => { x with iMode := mode, iDirt := true }) :=
  .assign i { (s.inode i).toDInode with iMode := mode } true fun _ => rfl

theorem modeRead_reach : InodeReach Env.badWrites [⟨0x300, 1, 1⟩] modeRead :=
  .read (.start fun _ => rfl) (by decide) (by decide) modeRead_eq (by decide)

theorem modeChanged_mounted : Mounted modeChanged 0x300 0 where
  device := by decide
  super := ⟨by decide +kernel, by decide +kernel⟩
  lock := by decide +kernel
  imapBlocks := by decide +kernel
  zmapBlocks := by decide +kernel
  imapOwn := by decide +kernel
  zmapOwn := by decide +kernel
  short := by decide +kernel

theorem modeSynced_run : SyncRun (Env.diligent 0x50) 0x300 modeChanged.forgotten modeSynced := by
  have hcopied : syncAllInodesToBuff (Env.diligent 0x50) 80 modeChanged.forgotten =
    .ok () modeCopied :=
    Res.eq_ok (by decide +kernel)
  have hqueued : syncDev 0x300 (Env.diligent 0x50) 80 modeCopied = .ok () modeQueued :=
    Res.eq_ok (by decide +kernel)
  have hsent : idle (Env.diligent 0x50) 80 modeQueued = .ok () modeSent :=
    Res.eq_ok (by decide +kernel)
  have hhalf : idle (Env.diligent 0x50) 80 modeSent = .ok () modeHalf :=
    Res.eq_ok (by decide +kernel)
  have hdone : idle (Env.diligent 0x50) 80 modeHalf = .ok () modeSynced :=
    Res.eq_ok (by decide +kernel)
  refine ⟨⟨80, _, 80, _, hcopied, hqueued, ((idle_submits hsent).trans (idle_submits hhalf)).trans
    (idle_submits hdone)⟩, ?_⟩
  rintro b cmd ⟨r, hused, -⟩
  have hfree : ∀ r, (modeSynced.request r).dev < 0 := by decide +kernel
  exact absurd hused (not_le.mpr (hfree r))

/-- The tables go to blocks that are used. -/
theorem Sys.TablesUsed.of_drive {s : Sys 1} (h : ∀ i, (s.inode i).iDirt = true →
    (s.inode i).iDev = 0x300 ∧ ∀ p, (s.superBlock p).sDev = 0x300 →
      (s.superBlock p).inodeBlock (s.inode i).iNum = 4) : s.TablesUsed tableUsed := by
  intro i dev p _ hun hfirst
  obtain ⟨hdev, hblock⟩ := h i hun.1
  obtain rfl : 0x300 = dev := hdev.symm.trans hun.2.2
  exact .inl (Prod.ext rfl (hblock p hfirst.sDev))

theorem tableUsed_placed (x : ℕ × ℕ) (hx : tableUsed x) :
    (1 ≤ x.1 ∧ x.1 < 65536) ∧ smallDrive.Inside x.1 x.2 ∧ major x.1 = 3 := by
  refine ⟨smallDrive_tableUsed.dev x hx, smallDrive_tableUsed.inside x hx, ?_⟩
  rcases hx with rfl | rfl <;> decide

/-- The inode is dirty, and its new mode gets to the disk. -/
theorem sync_complete_written : (modeChanged.inode 1).Unsynced 0x300 ∧
    SyncComplete 0x300 0 modeChanged modeSynced ∧
    ((modeSynced.diskBlock 0x300 4).dInode 0).iMode = 5 := by
  have hclean : ∀ b, (modeChanged.buf b).bDirt = false := by decide +kernel
  have hfree : ∀ r, (modeChanged.request r).dev < 0 := by decide +kernel
  have hsyncs : Syncs Env.badWrites (Env.diligent 0x50) tableUsed [⟨0x300, 1, 1⟩] sevens modeChanged
      0x300 0 modeSynced :=
    { works := badWrites_works
      quiet := oneHeader_quiet
      drives := smallDrive_drives
      enabled := rfl
      placed := tableUsed_placed
      cache := modeRead_run.setInode 1 _
      inodes := .other modeRead_reach (.single (.changeMode modeRead 1 5))
      mounted := modeChanged_mounted
      tables := .of_drive (by decide +kernel)
      completes := ⟨diligent_works_all _, fun hh => absurd hh (by decide +kernel)⟩
      run := modeSynced_run }
  refine ⟨by decide +kernel, sync_complete hsyncs smallDrive_tableUsed.apart fun b hb => ?_,
    by decide +kernel⟩
  rcases hb with hdirt | ⟨r, hused, -⟩
  · exact absurd (hdirt.symm.trans (hclean b)) (by decide)
  · exact absurd hused (not_le.mpr (hfree r))

/-! ## Blocks that share a sector -/

/-- A controller that does not answer while the clock is between two times. -/
def Env.pausing (since til : ℕ) : Env n where
  irq s := if s.ctl.outstanding ∧ ¬ (since ≤ s.clock ∧ s.clock < til) then some ⟨0x50⟩ else none
  burst _ := 8
  drq _ := true
  ready _ := true
  nullErrors _ := 0

theorem pausing_works (since til : ℕ) (which : Rw → Prop) :
    (Env.pausing since til : Env n).Works which where
  answers s i h := by
    simp only [Env.pausing] at h
    split at h
    · rename_i hboth
      exact hboth.1
    · exact absurd h (by simp)
  spares := by
    refine ⟨fun s i h hfail => ?_, fun s h => absurd h (by simp [Env.pausing])⟩
    simp only [Env.pausing] at h
    split at h
    · obtain rfl := Option.some.inj h
      exact absurd hfail (by decide)
    · exact absurd h (by simp)
  ready _ := rfl
  prompt s hout := by
    refine ⟨til, ?_, (by decide : 0 < 8)⟩
    simp [Env.pausing, hout]

/-- Two blocks of the drive, and one of a partition that begins where the drive does. -/
def sharedThree (x : ℕ × ℕ) : Prop := x = (0x300, 5) ∨ x = (0x300, 2) ∨ x = (0x301, 5)

/-- A kernel with three headers and a disk of sevens. -/
def threeSevens : Sys 3 := { (Sys.load fun _ _ _ => 7) with geo := smallDrive, hdEnabled := true }

/-- The drive answers until the three blocks are read, and then pauses. -/
def pausedEnv : Env 3 := Env.pausing 24 74

/-- Three blocks were read. -/
def sharedFirst : Sys 3 := (initBuff (initRequestQueue threeSevens)).afterCall pausedEnv
    (readBuff 0x300 5)
def sharedSecond : Sys 3 := sharedFirst.afterCall pausedEnv (readBuff 0x300 2)
def sharedThird : Sys 3 := sharedSecond.afterCall pausedEnv (readBuff 0x301 5)

/-- Zeros were given to block 2 of the drive and to block 5 of the partition. -/
def sharedGiven : Sys 3 := store 2 zeroBlock (store 1 zeroBlock sharedThird)

/-- What the buffer of block 5 of the drive is filled with. -/
def sevenBlock : Block := fun _ => 7

/-- Both writes are queued, and then block 5 of the drive was made dirty. -/
def sharedWhole : Sys 3 := sharedGiven.afterCall pausedEnv (syncDev 0x300)
def sharedQueued : Sys 3 := sharedWhole.afterCall pausedEnv (syncDev 0x301)
def sharedDirty : Sys 3 := (store 0 sevenBlock sharedQueued).setSuper 0 driveSuper

/-- The states after both functions and after the requests were done. -/
def sharedInodes : Sys 3 := sharedDirty.forgotten.afterCall pausedEnv syncAllInodesToBuff
def sharedSync : Sys 3 := sharedInodes.afterCall pausedEnv (syncDev 0x300)
def sharedSynced : Sys 3 := sharedSync.afterCall pausedEnv idle

/-- The three blocks are in three headers. -/
example : ∀ b, (sharedThird.buf b).bUptodate = true := by decide +kernel

theorem sharedThird_run : CacheRun pausedEnv sharedThree threeSevens sharedThird := by
  have hfirst : readBuff 0x300 5 pausedEnv 80 (initBuff (initRequestQueue threeSevens)) =
      .ok (some 0) sharedFirst := Res.eq_ok (by decide +kernel)
  have hsecond : readBuff 0x300 2 pausedEnv 80 sharedFirst = .ok (some 1) sharedSecond :=
    Res.eq_ok (by decide +kernel)
  have hthird : readBuff 0x301 5 pausedEnv 80 sharedSecond = .ok (some 2) sharedThird :=
    Res.eq_ok (by decide +kernel)
  exact ((CacheRun.start.steps (readBuff_steps (.inl rfl) hfirst)).steps
    (readBuff_steps (.inr (.inl rfl)) hsecond)).steps (readBuff_steps (.inr (.inr rfl)) hthird)

theorem sharedDirty_run : CacheRun pausedEnv sharedThree threeSevens sharedDirty := by
  have hwhole : syncDev 0x300 pausedEnv 80 sharedGiven = .ok () sharedWhole :=
    Res.eq_ok (by decide +kernel)
  have hqueued : syncDev 0x301 pausedEnv 80 sharedWhole = .ok () sharedQueued :=
    Res.eq_ok (by decide +kernel)
  have hone : Owned sharedThird (.store 1) := by unfold Owned; decide +kernel
  have htwo : Owned (store 1 zeroBlock sharedThird) (.store 2) := by unfold Owned; decide +kernel
  have hzero : Owned sharedQueued (.store 0) := by unfold Owned; decide +kernel
  have hgiven : CacheRun pausedEnv sharedThree threeSevens sharedGiven :=
    (sharedThird_run.step (.store zeroBlock hone)).step (.store zeroBlock htwo)
  have hsynced : CacheRun pausedEnv sharedThree threeSevens sharedQueued :=
    hgiven.step (.block ((syncDev_submits hwhole).trans (syncDev_submits hqueued)))
  exact (hsynced.step (.store sevenBlock hzero)).setSuper 0 driveSuper

/-- The third block was queued, and is clean. -/
example : (sharedQueued.buf 2).bDirt = false := by decide +kernel

theorem store_tables (b : Fin n) (data : Block) (s : Sys n) :
    (store b data s).inode = s.inode ∧ (store b data s).superBlock = s.superBlock :=
  ⟨congrArg Rest.inode (store_rest b data s), congrArg Rest.superBlock (store_rest b data s)⟩

/-- The tables are those of the start. -/
theorem sharedQueued_tables :
    sharedQueued.inode = threeSevens.inode ∧ sharedQueued.superBlock = threeSevens.superBlock := by
  have hfirst : readBuff 0x300 5 pausedEnv 80 (initBuff (initRequestQueue threeSevens)) =
      .ok (some 0) sharedFirst := Res.eq_ok (by decide +kernel)
  have hsecond : readBuff 0x300 2 pausedEnv 80 sharedFirst = .ok (some 1) sharedSecond :=
    Res.eq_ok (by decide +kernel)
  have hthird : readBuff 0x301 5 pausedEnv 80 sharedSecond = .ok (some 2) sharedThird :=
    Res.eq_ok (by decide +kernel)
  have hwhole : syncDev 0x300 pausedEnv 80 sharedGiven = .ok () sharedWhole :=
    Res.eq_ok (by decide +kernel)
  have hqueued : syncDev 0x301 pausedEnv 80 sharedWhole = .ok () sharedQueued :=
    Res.eq_ok (by decide +kernel)
  have hread : CachePath pausedEnv (initBuff (initRequestQueue threeSevens)) sharedThird :=
    ((readBuff_steps trivial hfirst).trans (readBuff_steps trivial hsecond)).trans
      (readBuff_steps trivial hthird)
  have hgiven : CachePath pausedEnv (initBuff (initRequestQueue threeSevens)) sharedGiven :=
    (hread.tail (.store (b := 1) zeroBlock trivial)).tail (.store (b := 2) zeroBlock trivial)
  have hsynced : CachePath pausedEnv (initBuff (initRequestQueue threeSevens)) sharedQueued :=
    hgiven.trans (CacheSteps.of_submits ((syncDev_submits hwhole).trans (syncDev_submits hqueued)))
  exact hsynced.tables

theorem sharedDirty_inode (i : Fin nrInode) : sharedDirty.inode i = MInode.zero := by
  have hstore : (store 0 sevenBlock sharedQueued).inode = sharedQueued.inode :=
    (store_tables 0 sevenBlock sharedQueued).1
  rw [sharedDirty, Sys.setSuper_inode, hstore, sharedQueued_tables.1]
  rfl

/-- The drive is mounted at the start. -/
def threeMounted : Sys 3 := threeSevens.setSuper 0 driveSuper

theorem threeMounted_mounted : Mounted threeMounted 0x300 0 where
  device := by decide
  super := ⟨rfl, by decide⟩
  lock := rfl
  imapBlocks := by decide
  zmapBlocks := by decide
  imapOwn := by decide
  zmapOwn := by decide
  short := by decide

theorem sharedDirty_mounted : Mounted sharedDirty 0x300 0 := by
  have hstore : (store 0 sevenBlock sharedQueued).superBlock = sharedQueued.superBlock :=
    (store_tables 0 sevenBlock sharedQueued).2
  refine threeMounted_mounted.congr (funext fun p => ?_)
  simp only [sharedDirty, threeMounted, Sys.setSuper_superBlock, hstore, sharedQueued_tables.2]

theorem sharedSynced_run : SyncRun pausedEnv 0x300 sharedDirty.forgotten sharedSynced := by
  have hinodes : syncAllInodesToBuff pausedEnv 80 sharedDirty.forgotten = .ok () sharedInodes :=
    Res.eq_ok (by decide +kernel)
  have hsync : syncDev 0x300 pausedEnv 80 sharedInodes = .ok () sharedSync :=
    Res.eq_ok (by decide +kernel)
  have hidle : idle pausedEnv 80 sharedSync = .ok () sharedSynced := Res.eq_ok (by decide +kernel)
  refine ⟨⟨80, _, 80, _, hinodes, hsync, idle_submits hidle⟩, ?_⟩
  rintro b cmd ⟨r, hused, -⟩
  have hfree : ∀ r, (sharedSynced.request r).dev < 0 := by decide +kernel
  exact absurd hused (not_le.mpr (hfree r))

/-- **A shared sector.**  The write of block 5 of the drive overtakes the queued write of block 5
of the partition, whose sectors are the same, so the disk ends up with the contents of the
latter. -/
theorem sharedSynced_lost : ¬ SyncComplete 0x300 0 sharedDirty sharedSynced := by
  intro h
  have hdev : (sharedDirty.buf 0).bDev = 0x300 := by decide +kernel
  have hdirt : (sharedDirty.buf 0).bDirt = true := by decide +kernel
  have hblock : (sharedDirty.buf 0).bBlocknr = 5 := by decide +kernel
  have hstored := congrFun (h.stored 0 hdev hdirt) 0
  rw [hblock] at hstored
  have hzero : sharedSynced.diskBlock 0x300 5 0 = 0 := by decide +kernel
  have hsame : ∀ (is : List (Fin nrInode)) (data : Block),
      is.foldl (sharedDirty.storeInode 0 0x300 5) data = data := by
    intro is
    induction is with
    | nil => exact fun _ => rfl
    | cons i is ih =>
        intro data
        have hclean : ¬ (sharedDirty.inode i).Unsynced 0x300 := by
          rw [sharedDirty_inode]
          decide
        rw [List.foldl_cons, Sys.storeInode, if_neg fun hboth => hclean hboth.1]
        exact ih data
  have hseven : (sharedDirty.buf 0).bData 0 = 7 := by decide +kernel
  rw [Sys.withInodes, hsame, hzero, hseven] at hstored
  exact absurd hstored (by decide)

theorem sharedDirty_syncs : Syncs pausedEnv pausedEnv sharedThree [] threeSevens sharedDirty 0x300 0
    sharedSynced where
  works := pausing_works _ _ _
  quiet := ⟨rfl, by decide, rfl, rfl⟩
  drives := smallDrive_drives
  enabled := rfl
  placed := by
    rintro x (rfl | rfl | rfl) <;> exact ⟨by decide, by unfold Geometry.Inside; decide, by decide⟩
  cache := sharedDirty_run
  inodes := .start sharedDirty_inode
  mounted := sharedDirty_mounted
  tables := by
    intro i dev p _ hun
    rw [sharedDirty_inode] at hun
    exact absurd hun.1 (by decide)
  completes := ⟨pausing_works _ _ _, fun hh => absurd hh (by decide +kernel)⟩
  run := sharedSynced_run

/-! ## A write that failed -/

/-- A holder takes the block of the inode and gives it zeros. -/
def staleHeld : Sys 1 := modeRead.afterCall Env.badWrites (readBuff 0x300 4)
def staleGiven : Sys 1 := store 0 zeroBlock staleHeld

/-- While the block is being written the holder changes it again; then the write fails. -/
def staleQueued : Sys 1 := staleGiven.afterCall Env.badWrites (syncDev 0x300)
def staleAgain : Sys 1 := store 0 zeroBlock staleQueued
def staleFailed : Sys 1 := staleAgain.afterCall Env.badWrites idle

/-- And the mode of the inode changes. -/
def staleChanged : Sys 1 := staleFailed.setInode 1 fun x => { x with iMode := 5, iDirt := true }

/-- The states after both functions and after the request was done. -/
def staleCopied : Sys 1 := staleChanged.forgotten.afterCall (Env.diligent 0x50) syncAllInodesToBuff
def staleSync : Sys 1 := staleCopied.afterCall (Env.diligent 0x50) (syncDev 0x300)
def staleSent : Sys 1 := staleSync.afterCall (Env.diligent 0x50) idle
def staleHalf : Sys 1 := staleSent.afterCall (Env.diligent 0x50) idle
def staleSynced : Sys 1 := staleHalf.afterCall (Env.diligent 0x50) idle

/-- The buffer is dirty, and not up to date. -/
example : (staleChanged.buf 0).bDirt = true ∧ (staleChanged.buf 0).bUptodate = false := by
  decide +kernel

/-- The holder's steps. -/
theorem staleFailed_steps : CacheSteps Env.badWrites (fun d r => tableUsed (d, r)) Owned modeRead
    staleFailed := by
  have hheld : readBuff 0x300 4 Env.badWrites 80 modeRead = .ok (some 0) staleHeld :=
    Res.eq_ok (by decide +kernel)
  have hqueued : syncDev 0x300 Env.badWrites 80 staleGiven = .ok () staleQueued :=
    Res.eq_ok (by decide +kernel)
  have hfailed : idle Env.badWrites 80 staleAgain = .ok () staleFailed :=
    Res.eq_ok (by decide +kernel)
  have hgiven : Owned staleHeld (.store 0) := by unfold Owned; decide +kernel
  have hagain : Owned staleQueued (.store 0) := by unfold Owned; decide +kernel
  exact ((((readBuff_steps (.inl rfl) hheld).tail (.store zeroBlock hgiven)).tail
    (.block (syncDev_submits hqueued))).tail (.store zeroBlock hagain)).tail
    (.block (idle_submits hfailed))

theorem staleSynced_run : SyncRun (Env.diligent 0x50) 0x300 staleChanged.forgotten staleSynced := by
  have hcopied : syncAllInodesToBuff (Env.diligent 0x50) 80 staleChanged.forgotten =
    .ok () staleCopied :=
    Res.eq_ok (by decide +kernel)
  have hsync : syncDev 0x300 (Env.diligent 0x50) 80 staleCopied = .ok () staleSync :=
    Res.eq_ok (by decide +kernel)
  have hsent : idle (Env.diligent 0x50) 80 staleSync = .ok () staleSent :=
    Res.eq_ok (by decide +kernel)
  have hhalf : idle (Env.diligent 0x50) 80 staleSent = .ok () staleHalf :=
    Res.eq_ok (by decide +kernel)
  have hdone : idle (Env.diligent 0x50) 80 staleHalf = .ok () staleSynced :=
    Res.eq_ok (by decide +kernel)
  refine ⟨⟨80, _, 80, _, hcopied, hsync, ((idle_submits hsent).trans (idle_submits hhalf)).trans
    (idle_submits hdone)⟩, ?_⟩
  rintro b cmd ⟨r, hused, -⟩
  have hfree : ∀ r, (staleSynced.request r).dev < 0 := by decide +kernel
  exact absurd hused (not_le.mpr (hfree r))

theorem staleChanged_mounted : Mounted staleChanged 0x300 0 where
  device := by decide
  super := ⟨by decide +kernel, by decide +kernel⟩
  lock := by decide +kernel
  imapBlocks := by decide +kernel
  zmapBlocks := by decide +kernel
  imapOwn := by decide +kernel
  zmapOwn := by decide +kernel
  short := by decide +kernel

theorem staleChanged_syncs : Syncs Env.badWrites (Env.diligent 0x50) tableUsed [⟨0x300, 1, 1⟩]
    sevens staleChanged 0x300 0 staleSynced where
  works := badWrites_works
  quiet := oneHeader_quiet
  drives := smallDrive_drives
  enabled := rfl
  placed := tableUsed_placed
  cache := (modeRead_run.steps staleFailed_steps).setInode 1 _
  inodes := .other modeRead_reach
    ((Steadily.of_cache staleFailed_steps.any).tail (.changeMode staleFailed 1 5))
  mounted := staleChanged_mounted
  tables := .of_drive (by decide +kernel)
  completes := ⟨diligent_works_all _, fun hh => absurd hh (by decide +kernel)⟩
  run := staleSynced_run

/-- **A failed write.**  The buffer is dirty but not up to date, so `sync_inode_to_buff` reads the
old block over it. -/
theorem staleSynced_lost : ¬ SyncComplete 0x300 0 staleChanged staleSynced := by
  intro h
  have hdev : (staleChanged.buf 0).bDev = 0x300 := by decide +kernel
  have hdirt : (staleChanged.buf 0).bDirt = true := by decide +kernel
  have hblock : (staleChanged.buf 0).bBlocknr = 4 := by decide +kernel
  have hstored := congrFun (h.stored 0 hdev hdirt) 600
  rw [hblock] at hstored
  have hseven : staleSynced.diskBlock 0x300 4 600 = 7 := by decide +kernel
  have hzero : staleChanged.withInodes 0 0x300 4 (staleChanged.buf 0).bData 600 = 0 := by
    decide +kernel
  exact absurd (hseven.symm.trans (hstored.trans hzero)) (by decide)

/-- **Neither condition can be left out.**  With blocks that share a sector, or with a dirty buffer
that a failed write left out of date, something that was dirty is lost. -/
theorem sync_incomplete :
    (Syncs pausedEnv pausedEnv sharedThree [] threeSevens sharedDirty 0x300 0 sharedSynced ∧
      sharedDirty.WritesUptodate ∧ ¬ SyncComplete 0x300 0 sharedDirty sharedSynced) ∧
    Syncs Env.badWrites (Env.diligent 0x50) tableUsed [⟨0x300, 1, 1⟩] sevens staleChanged 0x300 0
      staleSynced ∧
    (∀ x y, tableUsed x → tableUsed y → x ≠ y → sevens.geo.Disjoint x y) ∧
    ¬ SyncComplete 0x300 0 staleChanged staleSynced := by
  have hup : ∀ b, (sharedDirty.buf b).bUptodate = true := by decide +kernel
  exact ⟨⟨sharedDirty_syncs, fun b _ => hup b, sharedSynced_lost⟩, staleChanged_syncs,
    smallDrive_tableUsed.apart, staleSynced_lost⟩

end EgGS
