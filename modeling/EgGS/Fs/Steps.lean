import EgGS.Fs.Locks

/-!
# What the file system can do

`Steady` lists the steps of the file system that leave the identity and the count of
every in-memory inode alone: whatever the buffer cache does, locks, changes of the disk
part of an inode, its write-back, and super blocks.  Every function of `zone.c`,
`super.c` and `inode.c` that takes and gives back no inode is a path of such steps, and
each is walked through once, here.
-/

namespace EgGS

open Lib Prog Relation

variable {n : ℕ} {env : Env n} {k : ℕ} {s s' : Sys n}

/-- A step of the buffer cache, with any change of contents. -/
abbrev AnyCacheStep (env : Env n) : Sys n → Sys n → Prop :=
  CacheStep env (fun _ _ => True) fun _ _ => True

/-- A path of such steps. -/
abbrev CachePath (env : Env n) : Sys n → Sys n → Prop := ReflTransGen (AnyCacheStep env)

/-- The buffer cache does not touch the file system's tables. -/
theorem CacheStep.tables {asked : ℕ → ℕ → Prop} {may : Sys n → Change n → Prop}
    (h : CacheStep env asked may s s') :
    s'.inode = s.inode ∧ s'.superBlock = s.superBlock ∧ s'.lastInode = s.lastInode := by
  cases h with
  | block hpath =>
      have hrest := hpath.rest
      exact ⟨congrArg Rest.inode hrest, congrArg Rest.superBlock hrest,
        congrArg Rest.lastInode hrest⟩
  | reuse _ _ hreuse =>
      obtain ⟨hstate, -, -⟩ := reuse_spec hreuse
      exact ⟨by rw [hstate], by rw [hstate], by rw [hstate]⟩
  | _ => exact ⟨rfl, rfl, rfl⟩

/-- So does no path of them. -/
theorem CachePath.tables (h : CachePath env s s') :
    s'.inode = s.inode ∧ s'.superBlock = s.superBlock := by
  induction h with
  | refl => exact ⟨rfl, rfl⟩
  | tail _ hstep ih => exact ⟨hstep.tables.1.trans ih.1, hstep.tables.2.1.trans ih.2⟩

/-- The steps of the file system that keep device, number and count of every inode. -/
inductive Steady (env : Env n) : Sys n → Sys n → Prop
  | cache {s s' : Sys n} : AnyCacheStep env s s' → Steady env s s'
  | lockInode {s s' : Sys n} {i : Fin nrInode} {k : ℕ} : lockInode i env k s = .ok () s' →
      Steady env s s'
  | unlockInode {s : Sys n} (i : Fin nrInode) : Steady env s (unlockInode i s)
  | assign {s : Sys n} (i : Fin nrInode) (d : DInode) (dirt : Bool) :
      ((s.inode i).iDirt = true → dirt = true) →
      Steady env s (s.setInode i fun x => { x with toDInode := d, iDirt := dirt })
  | copy {s : Sys n} (i : Fin nrInode) (bh : Fin n) : Steady env s (s.copyInode i bh)
  | turn {s : Sys n} (lastInode : Fin nrInode) : Steady env s { s with lastInode }
  | lockSuper {s s' : Sys n} {sb : Fin nrSuper} {k : ℕ} : lockSuper sb env k s = .ok () s' →
      Steady env s s'
  | unlockSuper {s s' : Sys n} {sb : Fin nrSuper} {k : ℕ} : unlockSuper sb env k s = .ok () s' →
      Steady env s s'
  | super {s : Sys n} (sb : Fin nrSuper) (f : SuperBlock n → SuperBlock n) :
      (∀ p, (f p).sLock = p.sLock) → Steady env s (s.setSuper sb f)
  | mark {s : Sys n} (bh : Fin n) :
      Steady env s (s.setBuf bh fun h => { h with bData := h.bData.setBit 0 })

/-- A path of steady steps. -/
abbrev Steadily (env : Env n) : Sys n → Sys n → Prop := ReflTransGen (Steady env)

theorem Steadily.of_cache (h : CachePath env s s') :
    Steadily env s s' := h.lift id fun _ _ => Steady.cache

theorem Steadily.of_submits (h : Submits env (.idle, s) (.idle, s')) : Steadily env s s' :=
  .single (.cache (.block h))

/-! ## The buffer cache -/

section Steady

variable {dev block : ℕ} {i : Fin nrInode}

theorem waitOnInode_steady : Traces (Steady env) env (waitOnInode i) :=
  fun _ _ _ _ h => Steadily.of_submits (waitOnInode_submits h)

theorem lockSuper_steady {sb : Fin nrSuper} : Traces (Steady env) env (lockSuper sb) :=
  fun _ _ _ _ h => .single (.lockSuper h)

theorem unlockSuper_steady {sb : Fin nrSuper} : Traces (Steady env) env (unlockSuper sb) :=
  fun _ _ _ _ h => .single (.unlockSuper h)

theorem findSuper_steady : Traces (Steady env) env (findSuper dev) :=
  fun _ _ _ _ h => Steadily.of_submits (findSuper_found h).1

theorem getBuff_steady : Traces (Steady env) env (getBuff dev block) :=
  fun _ _ _ _ h => Steadily.of_cache ((getBuff_taken h).steps trivial)

theorem readBuff_steady : Traces (Steady env) env (readBuff dev block) :=
  fun _ _ _ _ h => Steadily.of_cache (readBuff_steps trivial h)

theorem putBuff_steady (buf : Option (Fin n)) : Traces (Steady env) env (putBuff buf) := by
  cases buf with
  | none => exact .pure ()
  | some b => exact fun _ _ _ _ h => Steadily.of_cache (putBuff_steps h)

theorem invalidateBuff_steady : Traces (Steady env) env (invalidateBuff dev block) :=
  fun _ _ _ _ h => Steadily.of_cache ((invalidateBuff_invalidated h).steps fun _ _ => trivial)

theorem createBlock_steady : Traces (Steady env) env (createBlock dev) :=
  fun _ _ _ _ h => Steadily.of_cache (createBlock_steps h (fun _ _ _ _ _ => trivial)
    (fun _ _ _ _ _ => trivial) fun _ _ _ _ _ _ => trivial)

theorem store_steady (bh : Fin n) (f : Sys n → Block) :
    Traces (Steady env) env (Prog.update fun s => store bh (f s) s) :=
  .update fun s => .single (.cache (.store (f s) trivial))

/-! ## Bitmaps -/

theorem scanMaps_steady {map : Fin mapSlots → Option (Fin n)} {blocks : ℕ} :
    Traces (Steady env) env (scanMaps map blocks) :=
  fun _ _ _ _ h => (scanMaps_found h).1 ▸ .refl

theorem markBit_steady {bh : Fin n} {j : ℕ} {message : String} :
    Traces (Steady env) env (markBit bh j message) :=
  fun _ _ _ _ h => (markBit_eq_ok h).2 ▸ .single (.cache (.store _ trivial))

theorem unmarkBit_steady {bh : Fin n} {j : ℕ} : Traces (Steady env) env (unmarkBit bh j) :=
  .bind .read fun _ => store_steady bh _

theorem addInodeBitmap_steady : Traces (Steady env) env (addInodeBitmap dev) := by
  refine .bind findSuper_steady fun found => ?_
  cases found with
  | none => exact .halt _
  | some sb =>
      refine .bind .read fun s => .bind scanMaps_steady fun found => ?_
      cases found with
      | none => exact .pure 0
      | some x =>
          obtain ⟨i, bh, j⟩ := x
          exact .ite _ (fun _ => .pure 0) fun _ => .bind markBit_steady fun _ => .pure _

theorem freeInodeBitmap_steady {num : ℕ} : Traces (Steady env) env (freeInodeBitmap dev num) := by
  refine .bind findSuper_steady fun found => ?_
  cases found with
  | none => exact .halt _
  | some sb =>
      refine .bind .read fun s => .ite _ (fun _ => .halt _) fun _ => ?_
      split
      · split
        · exact .halt _
        · exact unmarkBit_steady
      · exact .halt _

theorem freeZoneBitmap_steady : Traces (Steady env) env (freeZoneBitmap dev block) := by
  refine .bind findSuper_steady fun found => ?_
  cases found with
  | none => exact .halt _
  | some sb =>
      refine .bind .read fun s => .ite _ (fun _ => .halt _) fun _ => ?_
      dsimp only
      split
      · split
        · exact .halt _
        · exact unmarkBit_steady
      · exact .halt _

/-! ## Zones -/

theorem deleteBlock_steady : Traces (Steady env) env (deleteBlock dev block) :=
  .bind invalidateBuff_steady fun _ => freeZoneBitmap_steady

theorem forEachZone_steady {bh : Fin n} {body : ℕ → P n Unit}
    (hbody : ∀ zone, Traces (Steady env) env (body zone)) :
    Traces (Steady env) env (forEachZone bh body) :=
  .forEach (fun _ => .bind .read fun _ => .ite _ (fun _ => .pure ()) fun _ => hbody _) _

theorem deleteIndirecteBlock_steady : Traces (Steady env) env (deleteIndirecteBlock dev block) := by
  refine .ite _ (fun _ => .pure ()) fun _ => .bind readBuff_steady fun found => ?_
  cases found with
  | none => exact deleteBlock_steady
  | some bh =>
      exact .bind (forEachZone_steady fun _ => deleteBlock_steady) fun _ =>
        .bind (putBuff_steady _) fun _ => deleteBlock_steady

theorem deleteDoubleIndirecteBlock_steady :
    Traces (Steady env) env (deleteDoubleIndirecteBlock dev block) := by
  refine .ite _ (fun _ => .pure ()) fun _ => .bind readBuff_steady fun found => ?_
  cases found with
  | none => exact deleteBlock_steady
  | some bh =>
      exact .bind (forEachZone_steady fun _ => deleteIndirecteBlock_steady) fun _ =>
        .bind (putBuff_steady _) fun _ => deleteBlock_steady

/-! ## Changing an inode -/

/-- The disk part of an inode changes, and the inode may become dirty. -/
theorem assign_steady (i : Fin nrInode) {f : MInode → MInode}
    (hf : ∀ x, ∃ d dirt, f x = { x with toDInode := d, iDirt := dirt } ∧
      (x.iDirt = true → dirt = true)) :
    Traces (Steady env) env (Prog.update fun s : Sys n => s.setInode i f) := by
  refine .update fun s => ?_
  obtain ⟨d, dirt, heq, hdirt⟩ := hf (s.inode i)
  have hset : s.setInode i f = s.setInode i fun x => { x with toDInode := d, iDirt := dirt } := by
    simp only [Sys.setInode, heq]
  exact hset ▸ .single (.assign i d dirt hdirt)

theorem truncate_steady : Traces (Steady env) env (truncate i) := by
  refine .bind .read fun s => .ite _ (fun _ => .pure ()) fun _ => .bind (.forEach (fun z => ?_) _)
    fun _ => .bind .read fun _ => .bind deleteIndirecteBlock_steady fun _ => .bind .read fun _ =>
    .bind deleteDoubleIndirecteBlock_steady fun _ => assign_steady i fun x =>
    ⟨_, true, rfl, fun _ => rfl⟩
  exact .bind .read fun _ => .ite _ (fun _ => .pure ()) fun _ => .bind deleteBlock_steady fun _ =>
    assign_steady i fun x => ⟨_, x.iDirt, rfl, id⟩

theorem createZone_steady {z : Fin 9} {create : Bool} :
    Traces (Steady env) env (createZone i z create) := by
  refine .bind .read fun s => .ite _
    (fun _ => .bind createBlock_steady fun zone => .bind ?_ fun _ => ?_)
    fun _ => .pure ()
  · exact assign_steady i fun x => ⟨_, x.iDirt, rfl, id⟩
  · exact .ite _ (fun _ => assign_steady i fun x => ⟨_, true, rfl, fun _ => rfl⟩) fun _ => .pure ()

theorem indexedZone_steady {bh : Fin n} {w : ℕ} {create : Bool} :
    Traces (Steady env) env (indexedZone i bh w create) := by
  refine .bind .read fun s => .ite _ (fun _ => .bind createBlock_steady fun zone => ?_) fun _ => ?_
  · exact .ite _ (fun _ => .bind (store_steady bh _) fun _ => .bind (putBuff_steady _) fun _ =>
      .pure _)
      fun _ => .bind (putBuff_steady _) fun _ => .pure _
  · exact .bind (putBuff_steady _) fun _ => .pure _

theorem locateByInode_steady {b : ℤ} {create : Bool} :
    Traces (Steady env) env (locateByInode i b create) := by
  refine .ite _ (fun _ => .halt _) fun _ => .ite _ (fun _ => .halt _) fun _ => ?_
  split
  · exact .bind createZone_steady fun _ => .bind .read fun _ => .pure _
  · refine .ite _ (fun _ => ?_) fun _ => ?_
    · refine .bind createZone_steady fun _ => .bind .read fun _ => .ite _
        (fun _ => .pure _) fun _ =>
        .bind readBuff_steady fun found => ?_
      cases found with
      | none => exact .pure 0
      | some bh => exact indexedZone_steady
    · refine .bind createZone_steady fun _ => .bind .read fun _ => .ite _
        (fun _ => .pure _) fun _ =>
        .bind readBuff_steady fun found => ?_
      cases found with
      | none => exact .pure 0
      | some bh =>
          refine .bind indexedZone_steady fun zone => .ite _ (fun _ => .pure _) fun _ =>
            .bind .read fun _ => .bind readBuff_steady fun found => ?_
          cases found with
          | none => exact .pure 0
          | some bh => exact indexedZone_steady

/-! ## Between the table and the disk -/

/-- `bh` is the buffer of the block of the inode table with the inode `x`. -/
structure TableBuffer (s : Sys n) (x : MInode) (bh : Fin n) : Prop where
  uptodate : (s.buf bh).bUptodate = true
  lock : (s.buf bh).bLock = false
  key : x.iDev < 65536 → ∃ sb, (s.superBlock sb).sDev = x.iDev ∧
    s.Keyed bh x.iDev ((s.superBlock sb).inodeBlock x.iNum)

/-- What `read_buff` hands out is up to date, unlocked and the buffer of the block. -/
theorem readBuff_good {bh : Fin n} (h : readBuff dev block env k s = .ok (some bh) s') :
    CachePath env s s' ∧ (s'.buf bh).bUptodate = true ∧ (s'.buf bh).bLock = false ∧
      (dev < 65536 → s'.Keyed bh dev block) := by
  obtain ⟨b, t, t', htaken, hpath, hdone⟩ := readBuff_taken h
  cases hdone with
  | good hup hlock =>
      exact ⟨(htaken.steps trivial).tail (.block hpath), hup, hlock, fun hdev =>
        hpath.keyed (htaken.keyed hdev)⟩

/-- The search for the buffer of an inode, up to `read_buff`. -/
theorem tableBuffer_found {x : MInode} {sb : Fin nrSuper} {bh : Fin n} {t : Sys n}
    (hfind : findSuper x.iDev env k s = .ok (some sb) t)
    (hread : readBuff x.iDev ((t.superBlock sb).inodeBlock x.iNum) env k t = .ok (some bh) s') :
    CachePath env s s' ∧ TableBuffer s' x bh := by
  obtain ⟨hpath, hsuper⟩ := findSuper_found hfind
  obtain ⟨hpath', hup, hlock, hkey⟩ := readBuff_good hread
  refine ⟨(CacheSteps.of_submits hpath).trans hpath', hup, hlock, fun hdev => ⟨sb, ?_, ?_⟩⟩
  · rw [CachePath.tables hpath' |>.2]
    exact (hsuper sb rfl).1
  · rw [CachePath.tables hpath' |>.2]
    exact hkey hdev

/-- What `read_inode_from_buff` does: the disk part of the inode is taken from its slot. -/
inductive InodeFilled (env : Env n) (s : Sys n) (i : Fin nrInode) : Sys n → Prop
  | mk {t t' : Sys n} {bh : Fin n} : (s.inode i).iLock = false → CachePath env s t →
      TableBuffer t (s.inode i) bh → CachePath env (t.setInode i fun x =>
        { x with toDInode := (t.buf bh).bData.dInode (inodeSlot x.iNum) }) t' → t'.intr = false →
      InodeFilled env s i (unlockInode i t')

theorem setIntr_path (s : Sys n) (on : Bool) : CachePath env s (s.setIntr on) :=
  CacheSteps.of_submits (setIntr_submits on)

theorem readInodeFromBuff_filled {u : Unit} (h : readInodeFromBuff i env k s = .ok u s') :
    InodeFilled env s i s' := by
  unfold readInodeFromBuff at h
  obtain ⟨⟨⟩, s₁, hlock, h⟩ := bind_eq_ok.mp h
  obtain ⟨rfl, hclear⟩ := lockInode_eq hlock
  rw [read_bind] at h
  obtain ⟨found, s₂, hfind, h⟩ := bind_eq_ok.mp h
  cases found with
  | none => simp [panic] at h
  | some sb =>
      simp only [read_bind] at h
      obtain ⟨found, s₃, hread, h⟩ := bind_eq_ok.mp h
      cases found with
      | none => simp [panic] at h
      | some bh =>
          have hsame : s₂.inode = s.inode :=
            (CachePath.tables (CacheSteps.of_submits (findSuper_found hfind).1)).1
          rw [hsame] at hread
          obtain ⟨hpath, htable⟩ := tableBuffer_found hfind hread
          simp only [update_bind, bind_eq_ok, update_run, Res.ok.injEq, true_and] at h
          obtain ⟨⟨⟩, s₄, hput, rfl⟩ := h
          exact .mk hclear ((setIntr_path s true).trans hpath) htable (putBuff_steps hput)
            (putBuff_quiet hput htable.lock)

/-- What `sync_inode_to_buff` does: it copies the inode to its slot, unless it is clean or has
no device. -/
inductive InodeSynced (env : Env n) (s : Sys n) (i : Fin nrInode) : Sys n → Prop
  | skipped : (s.inode i).iLock = false → (s.inode i).iDirt = false ∨ (s.inode i).iDev = 0 →
      InodeSynced env s i (unlockInode i (s.setIntr true))
  | copied {t t' : Sys n} {bh : Fin n} : (s.inode i).iDirt = true → (s.inode i).iDev ≠ 0 →
      CachePath env s t → TableBuffer t (s.inode i) bh → CachePath env (t.copyInode i bh) t' →
      t'.intr = false → InodeSynced env s i (unlockInode i t')

theorem syncInodeToBuff_synced {u : Unit} (h : syncInodeToBuff i env k s = .ok u s') :
    InodeSynced env s i s' := by
  unfold syncInodeToBuff at h
  obtain ⟨⟨⟩, s₁, hlock, h⟩ := bind_eq_ok.mp h
  obtain ⟨rfl, hclear⟩ := lockInode_eq hlock
  rw [read_bind, ite_run] at h
  split at h
  · rename_i hskip
    simp only [update_run, Res.ok.injEq, true_and] at h
    exact h ▸ .skipped hclear (by simpa using hskip)
  · rename_i hskip
    have hdirty : (s.inode i).iDirt = true ∧ (s.inode i).iDev ≠ 0 := by simpa using hskip
    obtain ⟨found, s₂, hfind, h⟩ := bind_eq_ok.mp h
    cases found with
    | none => simp [panic] at h
    | some sb =>
        simp only [read_bind] at h
        obtain ⟨found, s₃, hread, h⟩ := bind_eq_ok.mp h
        cases found with
        | none => simp [panic] at h
        | some bh =>
            have hsame : s₂.inode = s.inode :=
              (CachePath.tables (CacheSteps.of_submits (findSuper_found hfind).1)).1
            rw [hsame] at hread
            obtain ⟨hpath, htable⟩ := tableBuffer_found hfind hread
            simp only [update_bind, bind_eq_ok, update_run, Res.ok.injEq, true_and] at h
            obtain ⟨⟨⟩, s₄, hput, rfl⟩ := h
            have hlock : ((s₃.copyInode i bh).buf bh).bLock = false := by
              simpa [Sys.copyInode, store] using htable.lock
            exact .copied hdirty.1 hdirty.2 ((setIntr_path s true).trans hpath) htable
              (putBuff_steps hput) (putBuff_quiet hput hlock)

theorem InodeFilled.steady (h : InodeFilled env s i s') : Steadily env s s' := by
  cases h with
  | @mk t t' bh _ hpath _ hpath' _ =>
      have hfill : Steady env t (t.setInode i fun x =>
          { x with toDInode := (t.buf bh).bData.dInode (inodeSlot x.iNum) }) :=
        .assign i _ (t.inode i).iDirt id
      exact (((Steadily.of_cache hpath).tail hfill).trans (Steadily.of_cache hpath')).tail
        (.unlockInode i)

theorem InodeSynced.steady (h : InodeSynced env s i s') : Steadily env s s' := by
  cases h with
  | skipped _ _ => exact (Steadily.of_cache (setIntr_path s true)).tail (.unlockInode i)
  | copied _ _ hpath _ hpath' _ =>
      exact (((Steadily.of_cache hpath).tail (.copy i _)).trans (Steadily.of_cache hpath')).tail
        (.unlockInode i)

theorem syncInodeToBuff_steady : Traces (Steady env) env (syncInodeToBuff i) :=
  fun _ _ _ _ h => (syncInodeToBuff_synced h).steady

theorem syncAllInodesToBuff_steady : Traces (Steady env) env syncAllInodesToBuff :=
  .forEach (fun _ => .bind waitOnInode_steady fun _ => .bind .read fun _ =>
    .ite _ (fun _ => syncInodeToBuff_steady) fun _ => .pure ()) _

/-! ## Super blocks -/

section Super

variable {sb : Fin nrSuper} {kind : MapKind}

theorem SuperBlock.setMap_lock (p : SuperBlock n) (kind : MapKind) (j : Fin mapSlots)
    (bh : Option (Fin n)) : (p.setMap kind j bh).sLock = p.sLock := by
  cases kind <;> rfl

theorem setSuper_steady (sb : Fin nrSuper) {f : SuperBlock n → SuperBlock n}
    (hf : ∀ p, (f p).sLock = p.sLock) :
    Traces (Steady env) env (Prog.update fun s : Sys n => s.setSuper sb f) :=
  .update fun _ => .single (.super sb f hf)

theorem loadMap_steady : Traces (Steady env) env (loadMap sb dev kind block) := by
  refine .iterate (fun x => .bind .read fun s => .ite _ (fun _ => ?_) fun _ => .pure _) _
  refine .bind readBuff_steady fun bh => ?_
  split
  · refine .bind (setSuper_steady sb fun p => p.setMap_lock kind _ bh) fun _ => ?_
    cases bh with
    | none => exact .pure _
    | some b => exact .pure _
  · exact .halt _

theorem putMap_steady : Traces (Steady env) env (putMap sb kind) :=
  .forEach (fun _ => .bind .read fun _ => putBuff_steady _) _

theorem markFirst_steady : Traces (Steady env) env (markFirst sb kind) := by
  refine .bind .read fun s => ?_
  split
  · exact .halt _
  · exact .update fun _ => .single (.mark _)

theorem abandonSuper_steady : Traces (Steady env) env (abandonSuper sb) :=
  .bind (setSuper_steady sb fun _ => rfl) fun _ => .bind unlockSuper_steady fun _ => .pure none

theorem loadMaps_steady : Traces (Steady env) env (loadMaps sb dev) := by
  refine .bind (setSuper_steady sb fun _ => rfl) fun _ => .bind loadMap_steady fun block =>
    .bind loadMap_steady fun block => .bind .read fun s => .ite _ (fun _ => ?_) fun _ => ?_
  · exact .bind putMap_steady fun _ => .bind putMap_steady fun _ => abandonSuper_steady
  · exact .bind markFirst_steady fun _ => .bind markFirst_steady fun _ =>
      .bind unlockSuper_steady fun _ => .pure _

theorem parseSuper_steady {bh : Fin n} : Traces (Steady env) env (parseSuper sb dev bh) :=
  .bind (.update fun _ => .single (.super sb _ fun _ => rfl)) fun _ => .bind (putBuff_steady _)
    fun _ => .bind .read fun _ => .ite _ (fun _ => abandonSuper_steady) fun _ => loadMaps_steady

theorem fillSuper_steady : Traces (Steady env) env (fillSuper sb dev) := by
  refine .bind lockSuper_steady fun _ => .bind readBuff_steady fun found => ?_
  cases found with
  | none => exact abandonSuper_steady
  | some bh => exact parseSuper_steady

theorem readSuper_steady : Traces (Steady env) env (readSuper dev) := by
  refine .ite _ (fun _ => .pure none) fun _ => .bind findSuper_steady fun found => ?_
  cases found with
  | some sb => exact .pure _
  | none =>
      refine .bind .read fun s => ?_
      split
      · exact .pure none
      · exact .bind (setSuper_steady _ fun _ => rfl) fun _ => fillSuper_steady

theorem releaseSuper_steady : Traces (Steady env) env (releaseSuper sb) :=
  .bind lockSuper_steady fun _ => .bind (setSuper_steady sb fun _ => rfl) fun _ =>
    .bind putMap_steady fun _ => .bind putMap_steady fun _ => unlockSuper_steady

theorem putSuper_steady : Traces (Steady env) env (putSuper dev) := by
  refine .ite _ (fun _ => .pure ()) fun _ => .bind findSuper_steady fun found => ?_
  cases found with
  | none => exact .pure ()
  | some sb => exact .bind .read fun _ => .ite _ (fun _ => .pure ()) fun _ => releaseSuper_steady

end Super

end Steady

end EgGS
