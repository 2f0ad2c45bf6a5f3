import EgGS.Fs.Steps

/-!
# Taking and giving back inodes

A function of `inode.c` that hands out an inode finds an entry and counts it, or gives
an unreferenced entry to the inode; `InodeTaken` says so exactly.  `put_inode` counts a
reference down or erases the entry.  Everything else is steady.

Sleeping calls repeat themselves: `retain_inode` and `get_inode` look again after every wait, and
`new_inode` gives up when the inode has come into memory meanwhile.  The invariant of each loop is
that the steps so far were steady, and what holds of the entry is read off its last round
(`retainInode_retained`, `newInode_made`, `getInode_taken`).  `cleanInode_cleaned` is the loop that
writes the victim back.

`FsStep` adds these steps to the steady ones.
-/

namespace EgGS

open Lib Prog Relation

variable {n : ℕ} {env : Env n} {k : ℕ} {s s' t : Sys n}
variable {i : Fin nrInode} {dev nr dev' nr' : ℕ}

/-! ## What steady steps keep -/

/-- The part of an in-memory inode that says whose it is and how often it is held. -/
structure InodeCore where
  iDev : ℕ
  iNum : ℕ
  iCount : ℕ
  iPipe : Bool
  iMount : Bool

/-- The inode without its disk part, its lock and its dirty flag. -/
def MInode.core (x : MInode) : InodeCore where
  iDev := x.iDev
  iNum := x.iNum
  iCount := x.iCount
  iPipe := x.iPipe
  iMount := x.iMount

/-- One entry of the table is assigned. -/
theorem Sys.setInode_at {γ : Type} (g : MInode → γ) (s : Sys n) (i : Fin nrInode)
    (f : MInode → MInode) (j : Fin nrInode) :
    g ((s.setInode i f).inode j) = if i = j then g (f (s.inode j)) else g (s.inode j) := by
  by_cases hj : i = j
  · subst hj; simp
  · simp [hj, Ne.symm hj]

theorem Sys.setInode_setInode (s : Sys n) (i : Fin nrInode) (f g : MInode → MInode) :
    (s.setInode i f).setInode i g = s.setInode i (g ∘ f) := by
  simp [Sys.setInode]

theorem Sys.setInode_congr {f g : MInode → MInode} (h : f (s.inode i) = g (s.inode i)) :
    s.setInode i f = s.setInode i g := by
  rw [Sys.setInode, Sys.setInode, h]

theorem Sys.setInode_self {f : MInode → MInode} (h : f (s.inode i) = s.inode i) :
    s.setInode i f = s := by
  rw [Sys.setInode, h, Function.update_eq_self]

theorem Steady.core (h : Steady env s s') (i : Fin nrInode) :
    (s'.inode i).core = (s.inode i).core := by
  cases h with
  | cache hstep => rw [hstep.tables.1]
  | lockInode hlock => rw [(lockInode_eq hlock).1]; rfl
  | unlockInode j => rw [EgGS.unlockInode, Sys.setInode_at MInode.core]; exact ite_self _
  | assign j d dirt _ => rw [Sys.setInode_at MInode.core]; exact ite_self _
  | copy j bh => rw [Sys.copyInode, Sys.setInode_at MInode.core]; exact ite_self _
  | turn _ => rfl
  | lockSuper hlock => rw [(lockSuper_eq hlock).1]; rfl
  | unlockSuper hunlock => rw [unlockSuper_eq hunlock]; rfl
  | super _ _ _ => rfl
  | mark _ => rfl

theorem Steadily.core (h : Steadily env s s') (i : Fin nrInode) :
    (s'.inode i).core = (s.inode i).core := by
  induction h with
  | refl => rfl
  | tail _ hstep ih => exact (hstep.core i).trans ih

/-- The lock calls do not set the lock of an inode, and nothing else does. -/
theorem Steady.unlocked (h : Steady env s s') (hs : ∀ i, (s.inode i).iLock = false)
    (i : Fin nrInode) : (s'.inode i).iLock = false := by
  cases h with
  | cache hstep => exact hstep.tables.1 ▸ hs i
  | lockInode hlock => exact (lockInode_eq hlock).1 ▸ hs i
  | unlockInode j =>
      rw [EgGS.unlockInode, Sys.setInode_at MInode.iLock]
      split
      · rfl
      · exact hs i
  | assign j d dirt _ => rw [Sys.setInode_at MInode.iLock, ite_self, hs i]
  | copy j bh =>
      rw [Sys.copyInode, Sys.setInode_at MInode.iLock]
      exact (ite_self _).trans (hs i)
  | turn _ => exact hs i
  | lockSuper hlock => exact (lockSuper_eq hlock).1 ▸ hs i
  | unlockSuper hunlock => exact unlockSuper_eq hunlock ▸ hs i
  | super _ _ _ => exact hs i
  | mark _ => exact hs i

theorem Steadily.unlocked (h : Steadily env s s') (hs : ∀ i, (s.inode i).iLock = false) :
    ∀ i, (s'.inode i).iLock = false := by
  induction h with
  | refl => exact hs
  | tail _ hstep ih => exact hstep.unlocked ih

namespace MInode

/-- The inode `nr` of device `dev`. -/
def Is (x : MInode) (dev nr : ℕ) : Prop := x.iDev = dev ∧ x.iNum = nr

end MInode

theorem Steadily.is (h : Steadily env s s') (i : Fin nrInode) (dev nr : ℕ) :
    (s'.inode i).Is dev nr ↔ (s.inode i).Is dev nr := by
  have hcore := h.core i
  rw [MInode.Is, MInode.Is, show (s'.inode i).iDev = _ from congrArg InodeCore.iDev hcore,
    show (s'.inode i).iNum = _ from congrArg InodeCore.iNum hcore]
  rfl

theorem Steadily.count (h : Steadily env s s') (i : Fin nrInode) :
    (s'.inode i).iCount = (s.inode i).iCount := congrArg InodeCore.iCount (h.core i)

/-! ## Looking up -/

/-- What a lookup finds has the device and the number it leaves behind, and no entry has
them if it finds none. -/
def Lookup (s : Sys n) (found : Option (Fin nrInode)) (dev nr : ℕ) : Prop :=
  match found with
  | some i => (s.inode i).Is dev nr
  | none => ∀ i, ¬ (s.inode i).Is dev nr

/-- No inode is mounted over. -/
def Sys.Flat (s : Sys n) : Prop := ∀ i, (s.inode i).iMount = false

/-- `find_inode` changes nothing.  Where nothing is mounted over, it looks for the inode it
was asked for. -/
theorem findInode_found {found : Option (Fin nrInode)}
    (h : findInode dev nr env k s = .ok (found, dev', nr') s') :
    s' = s ∧ Lookup s found dev' nr' ∧ (s.Flat → dev' = dev ∧ nr' = nr) := by
  unfold findInode panic at h
  rw [ite_run] at h
  split at h
  · simp at h
  -- the invariant of the loop: no entry before `i` matches the key that is looked for now, and
  -- without mount points that key is the one of the call
  refine iterate_ensures
    (I := fun x t => t = s ∧ (∀ j : Fin nrInode, j.val < x.1 → ¬ (s.inode j).Is x.2.1 x.2.2) ∧
      (s.Flat → x.2.1 = dev ∧ x.2.2 = nr))
    (Q := fun x t => t = s ∧ Lookup s x.1 x.2.1 x.2.2 ∧ (s.Flat → x.2.1 = dev ∧ x.2.2 = nr))
    ?_ ?_ ⟨rfl, fun j hj => absurd hj (by simp), fun _ => ⟨rfl, rfl⟩⟩ h
  · rintro ⟨i, d, r⟩ t ⟨i', d', r'⟩ t' ⟨rfl, hbefore, hflat⟩ hbody
    dsimp only at hbody
    rw [read_bind] at hbody
    split at hbody
    · rename_i hi
      simp only [ite_run, pure_run] at hbody
      split at hbody
      · rename_i hkey
        simp only [Res.ok.injEq, Sum.inl.injEq, Prod.mk.injEq] at hbody
        obtain ⟨⟨rfl, rfl, rfl⟩, rfl⟩ := hbody
        refine ⟨rfl, fun j hj his => ?_, hflat⟩
        rcases Nat.lt_succ_iff_lt_or_eq.mp hj with hj | hj
        · exact hbefore j hj his
        · obtain rfl : j = ⟨i, hi⟩ := Fin.ext hj
          exact hkey.elim (fun hne => hne his.1) fun hne => hne his.2
      · split at hbody
        · -- a mount point: the scan starts again with the root of what is mounted there
          rename_i hmount
          generalize List.find? _ _ = mounted at hbody
          cases mounted with
          | none => simp at hbody
          | some p =>
              simp only [pure_run, Res.ok.injEq, Sum.inl.injEq, Prod.mk.injEq] at hbody
              obtain ⟨⟨rfl, rfl, rfl⟩, rfl⟩ := hbody
              exact ⟨rfl, fun j hj => absurd hj (by simp), fun hf =>
                absurd (hmount.symm.trans (hf _)) (by decide)⟩
        · simp at hbody
    · simp at hbody
  · rintro ⟨i, d, r⟩ t ⟨found, d', r'⟩ t' ⟨rfl, hbefore, hflat⟩ hbody
    dsimp only at hbody
    rw [read_bind] at hbody
    split at hbody
    · rename_i hi
      simp only [ite_run, pure_run] at hbody
      split at hbody
      · simp at hbody
      · rename_i hkey
        -- the entry matches, and it is returned unless something is mounted on it
        have his : (t.inode ⟨i, hi⟩).Is d r := by
          simpa only [not_or, not_not, MInode.Is] using hkey
        split at hbody
        · generalize List.find? _ _ = mounted at hbody
          cases mounted with
          | none =>
              simp only [pure_run, Res.ok.injEq, Sum.inr.injEq, Prod.mk.injEq] at hbody
              obtain ⟨⟨rfl, rfl, rfl⟩, rfl⟩ := hbody
              exact ⟨rfl, his, hflat⟩
          | some p => simp at hbody
        · simp only [Res.ok.injEq, Sum.inr.injEq, Prod.mk.injEq] at hbody
          obtain ⟨⟨rfl, rfl, rfl⟩, rfl⟩ := hbody
          exact ⟨rfl, his, hflat⟩
    · rename_i hi
      simp only [pure_run, Res.ok.injEq, Sum.inr.injEq, Prod.mk.injEq] at hbody
      obtain ⟨⟨rfl, rfl, rfl⟩, rfl⟩ := hbody
      exact ⟨rfl, fun j => hbefore j (lt_of_lt_of_le j.isLt (not_lt.mp hi)), hflat⟩

theorem Sys.Flat.steady (h : s.Flat) (hpath : Steadily env s s') : s'.Flat := fun i =>
  (congrArg InodeCore.iMount (hpath.core i)).trans (h i)

/-- What `retain_inode` does: it finds the entry and counts, or finds none. -/
inductive InodeRetained (env : Env n) (s : Sys n) (dev nr : ℕ) :
    Option (Fin nrInode) → Sys n → Prop
  | missing {s' : Sys n} : Submits env (.idle, s) (.idle, s') → Lookup s' none dev nr →
      InodeRetained env s dev nr none s'
  | found {t : Sys n} {i : Fin nrInode} : Submits env (.idle, s) (.idle, t) →
      (t.inode i).Is dev nr → t.intr = false → InodeRetained env s dev nr (some i) (t.inodeUp i)

theorem retainInode_retained {found : Option (Fin nrInode)}
    (h : retainInode dev nr env k s = .ok (found, dev', nr') s') :
    InodeRetained env s dev' nr' found s' ∧ (s.Flat → dev' = dev ∧ nr' = nr) := by
  unfold retainInode panic at h
  rw [ite_run] at h
  split at h
  · simp at h
  -- each round only waits, so the whole loop is steps of the driver until the entry matches
  refine iterate_ensures
    (I := fun x t => Submits env (.idle, s) (.idle, t) ∧ (s.Flat → x.1 = dev ∧ x.2 = nr))
    (Q := fun x t => InodeRetained env s x.2.1 x.2.2 x.1 t ∧ (s.Flat → x.2.1 = dev ∧ x.2.2 = nr))
    ?_ ?_ ⟨.refl, fun _ => ⟨rfl, rfl⟩⟩ h
  · rintro ⟨d₀, r₀⟩ t ⟨d', r'⟩ t' ⟨hpath, hflat⟩ hbody
    obtain ⟨⟨found, d, r⟩, t₁, hfind, hbody⟩ := bind_eq_ok.mp hbody
    obtain ⟨rfl, hlookup, hsame⟩ := findInode_found hfind
    cases found with
    | none => simp at hbody
    | some i =>
        simp only [bind_eq_ok, read_bind, ite_run, pure_run] at hbody
        obtain ⟨⟨⟩, t₂, hwait, hbody⟩ := hbody
        split at hbody
        · simp only [Res.ok.injEq, Sum.inl.injEq, Prod.mk.injEq] at hbody
          obtain ⟨⟨rfl, rfl⟩, rfl⟩ := hbody
          refine ⟨hpath.trans (waitOnInode_submits hwait), fun hf => ?_⟩
          obtain ⟨rfl, rfl⟩ := hsame (hf.steady (Steadily.of_submits hpath))
          exact hflat hf
        · simp at hbody
  · rintro ⟨d₀, r₀⟩ t ⟨found, d', r'⟩ t' ⟨hpath, hflat⟩ hbody
    obtain ⟨⟨found', d, r⟩, t₁, hfind, hbody⟩ := bind_eq_ok.mp hbody
    obtain ⟨rfl, hlookup, hsame⟩ := findInode_found hfind
    have hkeys : s.Flat → d = dev ∧ r = nr := fun hf => by
      obtain ⟨rfl, rfl⟩ := hsame (hf.steady (Steadily.of_submits hpath))
      exact hflat hf
    -- no entry, or one that still has the key behind the wait
    cases found' with
    | none =>
        simp only [pure_run, Res.ok.injEq, Sum.inr.injEq, Prod.mk.injEq] at hbody
        obtain ⟨⟨rfl, rfl, rfl⟩, rfl⟩ := hbody
        exact ⟨.missing hpath hlookup, hkeys⟩
    | some i =>
        simp only [bind_eq_ok, read_bind, ite_run, pure_run] at hbody
        obtain ⟨⟨⟩, t₂, hwait, hbody⟩ := hbody
        split at hbody
        · simp at hbody
        · rename_i hkey
          simp only [bind_eq_ok, update_run, pure_run, Res.ok.injEq, Sum.inr.injEq,
            Prod.mk.injEq] at hbody
          obtain ⟨_, _, ⟨-, rfl⟩, ⟨rfl, rfl, rfl⟩, rfl⟩ := hbody
          refine ⟨.found (hpath.trans (waitOnInode_submits hwait)) ?_ (waitOnInode_intr hwait),
            hkeys⟩
          simpa only [not_or, not_not, MInode.Is] using hkey

/-! ## Recycling -/

/-- `new_inode` settles on an entry that nobody holds, and only the round robin moves. -/
theorem pickInode_found {found : Option (Fin nrInode)} (h : pickInode env k s = .ok found s') :
    (∃ last, s' = { s with lastInode := last }) ∧ ∀ i ∈ found, (s.inode i).iCount = 0 := by
  refine iterate_ensures
    (I := fun x t => (∃ last, t = { s with lastInode := last }) ∧
      ∀ i ∈ x.2, (s.inode i).iCount = 0)
    (Q := fun x t => (∃ last, t = { s with lastInode := last }) ∧
      ∀ i ∈ x, (s.inode i).iCount = 0) ?_ ?_ ⟨⟨s.lastInode, rfl⟩, by simp⟩ h
  · rintro ⟨j, best⟩ t ⟨j', best'⟩ t' ⟨⟨last, rfl⟩, hbest⟩ hbody
    simp only [ite_run, update_bind, read_bind, pure_run] at hbody
    split at hbody
    · split at hbody
      · rename_i hfree
        split at hbody
        · simp at hbody
        · simp only [Res.ok.injEq, Sum.inl.injEq, Prod.mk.injEq] at hbody
          obtain ⟨⟨-, rfl⟩, rfl⟩ := hbody
          exact ⟨⟨_, rfl⟩, by simpa using hfree.1⟩
      · simp only [Res.ok.injEq, Sum.inl.injEq, Prod.mk.injEq] at hbody
        obtain ⟨⟨-, rfl⟩, rfl⟩ := hbody
        exact ⟨⟨_, rfl⟩, hbest⟩
    · simp at hbody
  · rintro ⟨j, best⟩ t found t' ⟨⟨last, rfl⟩, hbest⟩ hbody
    simp only [ite_run, update_bind, read_bind, pure_run] at hbody
    split at hbody
    · split at hbody
      · rename_i hfree
        split at hbody
        · simp only [Res.ok.injEq, Sum.inr.injEq] at hbody
          obtain ⟨rfl, rfl⟩ := hbody
          exact ⟨⟨_, rfl⟩, by simpa using hfree.1⟩
        · simp at hbody
      · simp at hbody
    · simp only [Res.ok.injEq, Sum.inr.injEq] at hbody
      obtain ⟨rfl, rfl⟩ := hbody
      exact ⟨⟨_, rfl⟩, hbest⟩

/-- On the way to `s'` the contents that the entry `i` has in `s` are copied to their slot of
the inode table. -/
def InodeSaved (env : Env n) (s : Sys n) (i : Fin nrInode) (s' : Sys n) : Prop :=
  ∃ t bh, Steadily env s t ∧ t.inode i = s.inode i ∧ TableBuffer t (s.inode i) bh ∧
    Steadily env (t.copyInode i bh) s'

theorem InodeSynced.saved (h : InodeSynced env s i s') :
    s'.inode i = s.inode i ∧ ((s.inode i).iDirt = false ∨ (s.inode i).iDev = 0) ∨
      InodeSaved env s i s' := by
  cases h with
  | skipped hclear hskip =>
      have hkeep : (unlockInode i (s.setIntr true)).inode i = { s.inode i with iLock := false } :=
        Function.update_self ..
      exact .inl ⟨by rw [hkeep, ← hclear], hskip⟩
  | @copied t t' bh _ _ hpath htable hpath' _ =>
      refine .inr ⟨t, bh, Steadily.of_cache hpath, by rw [hpath.tables.1], htable, ?_⟩
      exact (Steadily.of_cache hpath').tail (.unlockInode i)

/-- The loop of `new_inode` that writes the entry back ends with a clean entry. -/
theorem cleanInode_cleaned {clean : Bool} (h : cleanInode i env k s = .ok clean s') :
    Steadily env s s' ∧ (clean = true → (s'.inode i).iDirt = false ∧
      ((s.inode i).iDirt = true → InodeSaved env s i s')) := by
  -- the invariant: the entry is as it was at the start, or it has been written back since
  refine iterate_ensures
    (I := fun _ t => Steadily env s t ∧ (t.inode i = s.inode i ∨ InodeSaved env s i t))
    (Q := fun clean t => Steadily env s t ∧ (clean = true → (t.inode i).iDirt = false ∧
      ((s.inode i).iDirt = true → InodeSaved env s i t))) ?_ ?_ ⟨.refl, .inl rfl⟩ h
  · intro _ t _ t' hI hbody
    rw [read_bind, ite_run] at hbody
    split at hbody
    · simp only [bind_eq_ok, read_bind, ite_run, pure_run] at hbody
      obtain ⟨⟨⟩, t₁, hwait, ⟨⟩, t₂, hsync, hbody⟩ := hbody
      split at hbody
      · simp at hbody
      · simp only [Res.ok.injEq, true_and] at hbody
        subst hbody
        have hsubmits := waitOnInode_submits hwait
        have hsynced := syncInodeToBuff_synced hsync
        have hpath : Steadily env t t₂ := (Steadily.of_submits hsubmits).trans hsynced.steady
        have hsame : t₁.inode i = t.inode i := by
          rw [(CachePath.tables (CacheSteps.of_submits hsubmits)).1]
        refine ⟨hI.1.trans hpath, ?_⟩
        rcases hI.2 with heq | ⟨u, bh, hu, heq, htable, hrest⟩
        · -- this round wrote nothing, or it wrote the entry as it was at the start
          rcases hsynced.saved with ⟨hkeep, -⟩ | ⟨u, bh, hu, hsame', htable, hrest⟩
          · exact .inl ((hkeep.trans hsame).trans heq)
          · rw [hsame.trans heq] at hsame' htable
            exact .inr ⟨u, bh, (hI.1.trans (Steadily.of_submits hsubmits)).trans hu, hsame', htable,
              hrest⟩
        · -- it was written in an earlier round already
          exact .inr ⟨u, bh, hu, heq, htable, hrest.trans hpath⟩
    · simp at hbody
  · intro _ t clean t' hI hbody
    rw [read_bind, ite_run] at hbody
    split at hbody
    · simp only [bind_eq_ok, read_bind, ite_run, pure_run] at hbody
      obtain ⟨⟨⟩, t₁, hwait, ⟨⟩, t₂, hsync, hbody⟩ := hbody
      split at hbody
      · simp only [Res.ok.injEq, Sum.inr.injEq] at hbody
        obtain ⟨rfl, rfl⟩ := hbody
        refine ⟨(hI.1.trans (Steadily.of_submits (waitOnInode_submits hwait))).trans
          (syncInodeToBuff_synced hsync).steady, by simp⟩
      · simp at hbody
    · -- the entry is clean; if it was dirty at the start, some round has written it
      rename_i hclean
      simp only [pure_run, Res.ok.injEq, Sum.inr.injEq] at hbody
      obtain ⟨rfl, rfl⟩ := hbody
      have hclean : (t.inode i).iDirt = false := by simpa using hclean
      refine ⟨hI.1, fun _ => ⟨hclean, fun hdirty => ?_⟩⟩
      rcases hI.2 with heq | hsaved
      · rw [heq, hdirty] at hclean
        exact absurd hclean (by decide)
      · exact hsaved

/-- The entry `i` can be given to the inode `nr` of `dev`: nobody holds it, it is clean, and
the inode has no entry. -/
structure Reclaimable (s : Sys n) (i : Fin nrInode) (dev nr : ℕ) : Prop where
  count : (s.inode i).iCount = 0
  clean : (s.inode i).iDirt = false
  missing : ∀ j, ¬ (s.inode j).Is dev nr

/-- What `new_inode` does: it gives an entry to the inode, after writing it back, or finds
that the entry is in use again or that the inode has one. -/
inductive InodeMade (env : Env n) (s : Sys n) (dev nr : ℕ) : Option (Fin nrInode) → Sys n → Prop
  | busy {s' : Sys n} : Steadily env s s' → InodeMade env s dev nr none s'
  | made {t : Sys n} {i : Fin nrInode} {dev' nr' : ℕ} : Steadily env s t →
      Reclaimable t i dev' nr' → ((s.inode i).iDirt = true → InodeSaved env s i t) →
      (s.Flat → dev' = dev ∧ nr' = nr) →
      InodeMade env s dev nr (some i) (t.claimInode i dev' nr')

theorem newInode_made {found : Option (Fin nrInode)} (h : newInode dev nr env k s = .ok found s') :
    InodeMade env s dev nr found s' := by
  obtain ⟨picked, s₁, hpick, h⟩ := bind_eq_ok.mp h
  obtain ⟨⟨last, rfl⟩, hcount⟩ := pickInode_found hpick
  have hturn : Steadily env s { s with lastInode := last } := .single (.turn last)
  cases picked with
  | none => simp [panic] at h
  | some i =>
      obtain ⟨clean, s₂, hclean, h⟩ := bind_eq_ok.mp h
      obtain ⟨hpath, hsaved⟩ := cleanInode_cleaned hclean
      cases clean with
      | false =>
          simp only [Bool.false_eq_true, if_false, pure_run, Res.ok.injEq] at h
          obtain ⟨rfl, rfl⟩ := h
          exact .busy (hturn.trans hpath)
      | true =>
          simp only [if_true, bind_eq_ok] at h
          obtain ⟨⟨found', dev', nr'⟩, s₃, hfind, h⟩ := h
          obtain ⟨rfl, hlookup, hsame⟩ := findInode_found hfind
          cases found' with
          | some j =>
              simp only [pure_run, Res.ok.injEq] at h
              obtain ⟨rfl, rfl⟩ := h
              exact .busy (hturn.trans hpath)
          | none =>
              simp only [update_bind, pure_run, Res.ok.injEq] at h
              obtain ⟨rfl, rfl⟩ := h
              obtain ⟨hclean, hsaved⟩ := hsaved rfl
              refine .made (hturn.trans hpath) ⟨?_, hclean, hlookup⟩ (fun hdirty => ?_) fun hflat =>
                hsame (hflat.steady (hturn.trans hpath))
              · rw [hpath.count]
                exact hcount i rfl
              · obtain ⟨t, bh, ht, heq, htable, hrest⟩ := hsaved hdirty
                exact ⟨t, bh, hturn.trans ht, heq, htable, hrest⟩

/-! ## Taking and giving back -/

/-- How a reference to an inode is handed out: its entry is found, or one is made. -/
inductive InodeTaken (env : Env n) (s : Sys n) (dev nr : ℕ) : Fin nrInode → Sys n → Prop
  | found {t : Sys n} {i : Fin nrInode} {dev' nr' : ℕ} : Steadily env s t →
      (t.inode i).Is dev' nr' → t.intr = false → (s.Flat → dev' = dev ∧ nr' = nr) →
      InodeTaken env s dev nr i (t.inodeUp i)
  | made {t : Sys n} {i : Fin nrInode} {dev' nr' : ℕ} : Steadily env s t →
      Reclaimable t i dev' nr' → (s.Flat → dev' = dev ∧ nr' = nr) →
      InodeTaken env s dev nr i (t.claimInode i dev' nr')

theorem getInode_taken (h : getInode dev nr env k s = .ok i s') :
    InodeTaken env s dev nr i s' := by
  refine iterate_ensures
    (I := fun x t => Steadily env s t ∧ (s.Flat → x.1 = dev ∧ x.2 = nr))
    (Q := InodeTaken env s dev nr) ?_ ?_ ⟨.refl, fun _ => ⟨rfl, rfl⟩⟩ h
  · rintro ⟨d₀, r₀⟩ t ⟨d₂, r₂⟩ t' ⟨hpath, hflat⟩ hbody
    obtain ⟨⟨found, d, r⟩, t₁, hretain, hbody⟩ := bind_eq_ok.mp hbody
    obtain ⟨hretained, hsame⟩ := retainInode_retained hretain
    cases hretained with
    | found _ _ _ => simp at hbody
    | missing hsubmits _ =>
        have hpath₁ : Steadily env t t₁ := Steadily.of_submits hsubmits
        obtain ⟨made, t₂, hnew, hbody⟩ := bind_eq_ok.mp hbody
        cases newInode_made hnew with
        | made _ _ _ _ => simp at hbody
        | busy hpath₂ =>
            -- somebody else took the inode in while `new_inode` slept: once more
            simp only [pure_run, Res.ok.injEq, Sum.inl.injEq, Prod.mk.injEq] at hbody
            obtain ⟨⟨rfl, rfl⟩, rfl⟩ := hbody
            refine ⟨(hpath.trans hpath₁).trans hpath₂, fun hf => ?_⟩
            obtain ⟨rfl, rfl⟩ := hsame (hf.steady hpath)
            exact hflat hf
  · rintro ⟨d₀, r₀⟩ t i t' ⟨hpath, hflat⟩ hbody
    obtain ⟨⟨found, d, r⟩, t₁, hretain, hbody⟩ := bind_eq_ok.mp hbody
    obtain ⟨hretained, hsame⟩ := retainInode_retained hretain
    have hkeys : s.Flat → d = dev ∧ r = nr := fun hf => by
      obtain ⟨rfl, rfl⟩ := hsame (hf.steady hpath)
      exact hflat hf
    cases hretained with
    | found hpath₁ his hintr =>
        -- the scan found the entry
        simp only [pure_run, Res.ok.injEq, Sum.inr.injEq] at hbody
        obtain ⟨rfl, rfl⟩ := hbody
        exact .found (hpath.trans (Steadily.of_submits hpath₁)) his hintr hkeys
    | missing hsubmits _ =>
        have hpath₁ : Steadily env t t₁ := Steadily.of_submits hsubmits
        obtain ⟨made, t₂, hnew, hbody⟩ := bind_eq_ok.mp hbody
        cases newInode_made hnew with
        | busy _ => simp at hbody
        | made hpath₂ hrec _ hsame₂ =>
            -- an entry was made for it
            simp only [pure_run, Res.ok.injEq, Sum.inr.injEq] at hbody
            obtain ⟨rfl, rfl⟩ := hbody
            refine .made ((hpath.trans hpath₁).trans hpath₂) hrec fun hf => ?_
            obtain ⟨rfl, rfl⟩ := hsame₂ (hf.steady (hpath.trans hpath₁))
            exact hkeys hf

/-- `read_inode` gets the inode, and reads it if it has no links. -/
theorem readInode_got {dev nr : ℤ} (h : readInode dev nr env k s = .ok i s') :
    ∃ t, getInode (unsigned dev) (unsigned nr) env k s = .ok i t ∧
      ((t.inode i).iNlinks = 0 ∧ InodeFilled env t i s' ∨
        (t.inode i).iNlinks ≠ 0 ∧ s' = t) := by
  obtain ⟨j, t, hget, h⟩ := bind_eq_ok.mp h
  rw [read_bind, ite_run] at h
  split at h
  · rename_i hlinks
    simp only [bind_eq_ok, pure_run, Res.ok.injEq] at h
    obtain ⟨⟨⟩, t', hfill, rfl, rfl⟩ := h
    exact ⟨t, hget, .inl ⟨hlinks, readInodeFromBuff_filled hfill⟩⟩
  · rename_i hlinks
    simp only [pure_run, Res.ok.injEq] at h
    obtain ⟨rfl, rfl⟩ := h
    exact ⟨t, hget, .inr ⟨hlinks, rfl⟩⟩

theorem deleteInode_erased {u : Unit} (h : deleteInode (some i) env k s = .ok u s') :
    ∃ t, Steadily env s t ∧ s' = t.setInode i fun _ => MInode.zero := by
  simp only [deleteInode, panic, read_bind, ite_run, halt_run, update_run] at h
  split at h
  · simp only [Res.ok.injEq, true_and] at h
    exact ⟨s, .refl, h.symm⟩
  · split at h
    · simp at h
    · split at h
      · simp at h
      · simp only [bind_eq_ok, update_run, Res.ok.injEq, true_and] at h
        obtain ⟨⟨⟩, t, hfree, rfl⟩ := h
        exact ⟨t, freeInodeBitmap_steady.path hfree, rfl⟩

/-- What `put_inode` does: it counts the reference down, or erases the entry if the inode has
no links and this is the last reference. -/
inductive InodePut (env : Env n) (s : Sys n) (i : Fin nrInode) : Sys n → Prop
  | dropped {t : Sys n} : Steadily env s t → (t.inode i).iCount ≠ 0 →
      InodePut env s i (t.inodeDown i)
  | erased {t : Sys n} : Steadily env s t → (t.inode i).iCount = 1 →
      InodePut env s i (t.setInode i fun _ => MInode.zero)

theorem putInode_put {u : Unit} (h : putInode (some i) env k s = .ok u s') :
    InodePut env s i s' := by
  simp only [putInode, panic, bind_eq_ok, read_bind, ite_run, halt_run] at h
  obtain ⟨⟨⟩, s₁, hwait, h⟩ := h
  split at h
  · simp at h
  rename_i hcount
  refine iterate_ensures
    (I := fun _ t => Steadily env s t ∧ (t.inode i).iCount ≠ 0)
    (Q := fun _ t => InodePut env s i t) ?_ ?_
    ⟨Steadily.of_submits (waitOnInode_submits hwait), hcount⟩ h
  · intro _ t _ t' ⟨hpath, hne⟩ hbody
    rw [read_bind, ite_run] at hbody
    split at hbody
    · simp only [bind_eq_ok, pure_run, Res.ok.injEq] at hbody
      simp at hbody
    · rw [ite_run] at hbody
      split at hbody
      · simp only [bind_eq_ok, pure_run, Res.ok.injEq] at hbody
        obtain ⟨⟨⟩, t₁, hsync, ⟨⟩, t₂, hwait₂, -, rfl⟩ := hbody
        have hpath' : Steadily env t t₂ := (syncInodeToBuff_synced hsync).steady.trans
          (Steadily.of_submits (waitOnInode_submits hwait₂))
        exact ⟨hpath.trans hpath', by rwa [hpath'.count]⟩
      · simp at hbody
  · intro _ t _ t' ⟨hpath, hne⟩ hbody
    rw [read_bind, ite_run] at hbody
    split at hbody
    · rename_i hlast
      simp only [bind_eq_ok, pure_run, Res.ok.injEq] at hbody
      obtain ⟨⟨⟩, t₁, htruncate, ⟨⟩, t₂, hdelete, -, rfl⟩ := hbody
      obtain ⟨t₃, hpath₃, rfl⟩ := deleteInode_erased hdelete
      have hpath' : Steadily env t t₃ := (truncate_steady.path htruncate).trans hpath₃
      exact .erased (hpath.trans hpath') (by rw [hpath'.count]; exact hlast.1)
    · rw [ite_run] at hbody
      split at hbody
      · simp only [bind_eq_ok, pure_run, Res.ok.injEq] at hbody
        simp at hbody
      · simp only [update_bind, pure_run, Res.ok.injEq, true_and] at hbody
        exact hbody ▸ .dropped hpath hne

/-- The number that `add_inode_bitmap` gives fits into the field `i_num`. -/
theorem addInodeBitmap_lt {num : ℕ} (h : addInodeBitmap dev env k s = .ok num s') :
    num < 65536 := by
  obtain ⟨found, t, hfind, h⟩ := bind_eq_ok.mp h
  cases found with
  | none => simp [panic] at h
  | some sb =>
      simp only [bind_eq_ok, read_bind] at h
      obtain ⟨found, t₁, hscan, h⟩ := h
      obtain ⟨-, hfound⟩ := scanMaps_found hscan
      cases found with
      | none =>
          simp only [pure_run, Res.ok.injEq] at h
          omega
      | some x =>
          obtain ⟨i, bh, j⟩ := x
          obtain ⟨-, ⟨hi, -⟩, -, hj⟩ := hfound i bh j rfl
          simp only [ite_run, pure_run] at h
          split at h
          · simp only [Res.ok.injEq] at h
            omega
          · obtain ⟨⟨⟩, t₂, -, h⟩ := bind_eq_ok.mp h
            simp only [pure_run, Res.ok.injEq] at h
            simp only [mapSlots] at hi
            omega

/-- What `create_inode` does: it takes a number from the bitmap and makes an entry for it. -/
inductive InodeCreated (env : Env n) (s : Sys n) (dev : ℕ) : Option (Fin nrInode) → Sys n → Prop
  | failed {s' : Sys n} : Steadily env s s' → InodeCreated env s dev none s'
  | made {t : Sys n} {i : Fin nrInode} {nr dev' nr' : ℕ} : Steadily env s t → nr ≠ 0 →
      nr < 65536 → Reclaimable t i dev' nr' → (s.Flat → dev' = dev ∧ nr' = nr) →
      InodeCreated env s dev (some i) ((t.claimInode i dev' nr').setInode i fun x =>
        { x with iNlinks := 1, iDirt := true })

theorem createInode_created {found : Option (Fin nrInode)}
    (h : createInode dev env k s = .ok found s') : InodeCreated env s dev found s' := by
  obtain ⟨num, s₁, hadd, h⟩ := bind_eq_ok.mp h
  have hpath := addInodeBitmap_steady.path hadd
  rw [ite_run] at h
  split at h
  · simp only [pure_run, Res.ok.injEq] at h
    obtain ⟨rfl, rfl⟩ := h
    exact .failed hpath
  · rename_i hnum
    obtain ⟨made, s₂, hnew, h⟩ := bind_eq_ok.mp h
    cases newInode_made hnew with
    | busy hpath' =>
        simp only [pure_run, Res.ok.injEq] at h
        obtain ⟨rfl, rfl⟩ := h
        exact .failed (hpath.trans hpath')
    | made hpath' hrec _ hsame =>
        simp only [update_bind, pure_run, Res.ok.injEq] at h
        obtain ⟨rfl, rfl⟩ := h
        exact .made (hpath.trans hpath') hnum (addInodeBitmap_lt hadd) hrec fun hf =>
          hsame (hf.steady hpath)

end EgGS
