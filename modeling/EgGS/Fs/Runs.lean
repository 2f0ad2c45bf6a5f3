import EgGS.Block.Runs
import EgGS.Fs.Inodes

/-!
# Runs of the file system

`FsStep` adds to the steady steps what happens to the count of an inode: it goes up or
down, the entry is given to another inode or erased, or a directory grows by an empty
entry.  Every function of the file system is a path of such steps.

A run starts from a kernel in which no lock is set and consists of calls of these
functions and of changes that the holders of inodes and buffers make.
-/

namespace EgGS

open Lib Prog Relation

variable {n : ℕ} {env : Env n} {k : ℕ} {s s' t : Sys n} {i : Fin nrInode} {dev nr : ℕ}

/-- The steps of the file system. -/
inductive FsStep (env : Env n) : Sys n → Sys n → Prop
  | steady {s s' : Sys n} : Steady env s s' → FsStep env s s'
  | up {s : Sys n} (i : Fin nrInode) : FsStep env s (s.inodeUp i)
  | down {s : Sys n} (i : Fin nrInode) : FsStep env s (s.inodeDown i)
  | claim {s : Sys n} (i : Fin nrInode) (dev nr : ℕ) : FsStep env s (s.claimInode i dev nr)
  | erase {s : Sys n} (i : Fin nrInode) : FsStep env s (s.setInode i fun _ => MInode.zero)
  | grow {s : Sys n} (inode : Fin nrInode) (i e : ℕ) (bh : Fin n) :
      FsStep env s (s.growDir inode i e bh)

/-- A path of such steps. -/
abbrev FsSteps (env : Env n) : Sys n → Sys n → Prop := ReflTransGen (FsStep env)

theorem Steadily.fs (h : Steadily env s s') : FsSteps env s s' :=
  h.lift id fun _ _ => FsStep.steady

section Paths

variable {α : Type} {m : P n α}

/-- What is steady is a path of steps of the file system. -/
theorem fs_of_steady (h : Traces (Steady env) env m) : Traces (FsStep env) env m :=
  h.mono fun _ _ hstep => .single (.steady hstep)

theorem InodeTaken.fs (h : InodeTaken env s dev nr i s') : FsSteps env s s' := by
  cases h with
  | found hpath _ _ _ => exact hpath.fs.tail (.up i)
  | made hpath _ _ => exact hpath.fs.tail (.claim i _ _)

theorem InodePut.fs (h : InodePut env s i s') : FsSteps env s s' := by
  cases h with
  | dropped hpath _ => exact hpath.fs.tail (.down i)
  | erased hpath _ => exact hpath.fs.tail (.erase i)

theorem InodeCreated.fs {found : Option (Fin nrInode)} (h : InodeCreated env s dev found s') :
    FsSteps env s s' := by
  cases h with
  | failed hpath => exact hpath.fs
  | @made t i _ dev' nr' hpath _ _ _ _ =>
      have hlink : Steady env (t.claimInode i dev' nr') _ :=
        .assign i { ((t.claimInode i dev' nr').inode i).toDInode with iNlinks := 1 } true fun _ =>
        rfl
      exact (hpath.fs.tail (.claim i dev' nr')).tail (.steady hlink)

theorem readInode_fs {dev nr : ℤ} : Traces (FsStep env) env (readInode dev nr) := by
  intro k s i s' h
  obtain ⟨t, hget, hfill⟩ := readInode_got h
  have hpath := (getInode_taken hget).fs
  rcases hfill with ⟨-, hfill⟩ | ⟨-, rfl⟩
  · exact hpath.trans hfill.steady.fs
  · exact hpath

theorem putInode_fs (inode : Option (Fin nrInode)) : Traces (FsStep env) env (putInode inode) := by
  cases inode with
  | none => exact .pure ()
  | some i => exact fun _ _ _ _ h => (putInode_put h).fs

theorem createInode_fs : Traces (FsStep env) env (createInode dev) :=
  fun _ _ _ _ h => (createInode_created h).fs

theorem upInode_fs : Traces (FsStep env) env (Prog.update fun s : Sys n => s.inodeUp i) :=
  .update fun _ => .single (.up i)

/-! ## Names and paths -/

theorem crossMount_fs {inode : Fin nrInode} : Traces (FsStep env) env (crossMount inode) := by
  refine .bind .read fun s => .ite _ (fun _ => ?_) fun _ => .pure _
  refine .bind (fs_of_steady findSuper_steady) fun found => ?_
  cases found with
  | none => exact .halt _
  | some sb =>
      refine .bind .read fun s => ?_
      split
      · exact .pure _
      · exact .bind (putInode_fs _) fun _ => .bind upInode_fs fun _ => .pure _

theorem checkEntry_steady {name : ℕ → UInt8} {namelen j e : ℕ} {bh : Fin n} :
    Traces (Steady env) env (checkEntry name namelen j e bh) :=
  .bind .read fun _ => .ite _ (fun _ => .pure _) fun _ => .pure _

theorem scanEntries_steady {inode : Fin nrInode} {name : ℕ → UInt8} {namelen entries : ℕ}
    {bh : Fin n} : Traces (Steady env) env (scanEntries inode name namelen entries bh) := by
  refine .iterate (fun x => ?_) _
  obtain ⟨j, e, buf⟩ := x
  refine .ite _ (fun _ => ?_) fun _ => .pure _
  cases buf with
  | none => exact .halt _
  | some bh =>
      refine .ite _ (fun _ => ?_) fun _ => checkEntry_steady
      refine .bind (putBuff_steady _) fun _ => .bind locateByInode_steady fun block =>
        .ite _ (fun _ => .pure _) fun _ => .bind .read fun s => .bind readBuff_steady fun found =>
        ?_
      cases found with
      | none => exact .pure _
      | some bh => exact checkEntry_steady

theorem lookupName_fs {inode : Fin nrInode} {name : ℕ → UInt8} {namelen entries : ℕ} :
    Traces (FsStep env) env (lookupName inode name namelen entries) := by
  refine .bind .read fun s => .ite _ (fun _ => .pure _) fun _ => ?_
  refine .bind (fs_of_steady readBuff_steady) fun found => ?_
  cases found with
  | none => exact .pure _
  | some bh =>
      refine .bind (fs_of_steady scanEntries_steady) fun x => .bind
        (fs_of_steady (putBuff_steady _))
        fun _ => ?_
      split
      · exact .pure _
      · exact .bind .read fun s => .bind readInode_fs fun found => .pure _

theorem retainInodeByName_fs {inode : Fin nrInode} {name : ℕ → UInt8} {namelen : ℕ} :
    Traces (FsStep env) env (retainInodeByName inode name namelen) := by
  refine .bind .read fun s => .ite _ (fun _ => .pure _) fun _ => .bind ?_ fun inode => lookupName_fs
  exact .ite _ (fun _ => crossMount_fs) fun _ => .pure _

theorem retainInodeByPath_fs {inode : Fin nrInode} {pathname : ℕ → UInt8} :
    Traces (FsStep env) env (retainInodeByPath inode pathname) := by
  refine .ite _ (fun _ => .pure _) fun _ => .bind upInode_fs fun _ => .iterate (fun x => ?_) _
  obtain ⟨resInode, thisname, namelen, pos⟩ := x
  refine .ite _ (fun _ => .pure _) fun _ => .ite _ (fun _ => .pure _) fun _ => .bind .read fun s =>
    .ite _ (fun _ => .pure _) fun _ => .bind retainInodeByName_fs fun found => ?_
  obtain ⟨inode', found⟩ := found
  cases found with
  | none => exact .pure _
  | some tmp => exact .bind (putInode_fs _) fun _ => .pure _

/-! ## New names -/

section Names

variable {inode : Fin nrInode} {name : ℕ → UInt8} {namelen e : ℕ} {bh : Fin n}

theorem coverEntry_fs {i : ℕ} : Traces (FsStep env) env (coverEntry inode i e bh) :=
  .bind .read fun _ => .ite _ (fun _ => .update fun _ => .single (.grow inode i e bh)) fun _ =>
  .pure _

theorem fillEntry_fs : Traces (FsStep env) env (fillEntry inode name namelen e bh) := by
  refine .bind .read fun s => .bind createInode_fs fun made => ?_
  cases made with
  | none => exact .bind (fs_of_steady (putBuff_steady _)) fun _ => .pure _
  | some new =>
      have hdirt : Traces (Steady env) env (Prog.update fun s : Sys n =>
          s.setInode new fun x => { x with iDirt := true }) :=
        assign_steady new fun x => ⟨x.toDInode, true, rfl, fun _ => rfl⟩
      refine .bind (fs_of_steady hdirt) fun _ => .bind (fs_of_steady (store_steady bh _)) fun _ =>
        ?_
      exact .bind (fs_of_steady (putBuff_steady _)) fun _ => .pure _

theorem tryEntry_fs {i : ℕ} : Traces (FsStep env) env (tryEntry inode name namelen i e bh) :=
  .bind coverEntry_fs fun _ => .bind .read fun _ =>
    .ite _ (fun _ => .bind fillEntry_fs fun _ => .pure _) fun _ => .pure _

theorem placeEntry_fs : Traces (FsStep env) env (placeEntry inode name namelen bh) := by
  refine .iterate (fun x => ?_) _
  obtain ⟨i, e, buf⟩ := x
  cases buf with
  | none => exact .halt _
  | some bh =>
      refine .ite _ (fun _ => ?_) fun _ => tryEntry_fs
      refine .bind (fs_of_steady (putBuff_steady _)) fun _ => ?_
      refine .bind (fs_of_steady locateByInode_steady) fun block => .ite _
        (fun _ => .pure _) fun _ => ?_
      refine .bind .read fun s => .bind (fs_of_steady readBuff_steady) fun found => ?_
      cases found with
      | none => exact .pure _
      | some bh => exact tryEntry_fs

theorem createInodeByName_fs : Traces (FsStep env) env (createInodeByName inode name namelen) := by
  refine .ite _ (fun _ => .pure _) fun _ => .bind .read fun s => .ite _ (fun _ => .pure _) fun _ =>
    ?_
  refine .bind (fs_of_steady readBuff_steady) fun found => ?_
  cases found with
  | none => exact .pure _
  | some bh => exact placeEntry_fs

end Names

end Paths

/-! ## Calls -/

/-- The calls of the file system, and what callers do to the inodes and buffers they hold. -/
inductive FsCall (n : ℕ) where
  | readInode (dev nr : ℤ)
  | createInode (dev : ℕ)
  | putInode (i : Option (Fin nrInode))
  | truncate (i : Fin nrInode)
  | locate (i : Fin nrInode) (block : ℤ) (create : Bool)
  | syncInodes
  | findSuper (dev : ℕ)
  | readSuper (dev : ℕ)
  | putSuper (dev : ℕ)
  | byName (inode : Fin nrInode) (name : ℕ → UInt8) (namelen : ℕ)
  | byPath (inode : Fin nrInode) (pathname : ℕ → UInt8)
  | createByName (inode : Fin nrInode) (name : ℕ → UInt8) (namelen : ℕ)
  | getBuff (dev block : ℕ)
  | readBuff (dev block : ℕ)
  | putBuff (bh : Option (Fin n))
  | syncDev (dev : ℕ)
  | change (i : Fin nrInode) (contents : DInode)
  | store (bh : Fin n) (data : Block)
  | idle

namespace FsCall

/-- The call, without what it returns. -/
def exec : FsCall n → P n Unit
  | readInode dev nr => do let _ ← EgGS.readInode dev nr
  | createInode dev => do let _ ← EgGS.createInode dev
  | putInode i => EgGS.putInode i
  | truncate i => EgGS.truncate i
  | locate i block create => do let _ ← locateByInode i block create
  | syncInodes => syncAllInodesToBuff
  | findSuper dev => do let _ ← EgGS.findSuper dev
  | readSuper dev => do let _ ← EgGS.readSuper dev
  | putSuper dev => EgGS.putSuper dev
  | byName inode name namelen => do let _ ← retainInodeByName inode name namelen
  | byPath inode pathname => do let _ ← retainInodeByPath inode pathname
  | createByName inode name namelen => do let _ ← createInodeByName inode name namelen
  | getBuff dev block => do let _ ← EgGS.getBuff dev block
  | readBuff dev block => do let _ ← EgGS.readBuff dev block
  | putBuff bh => EgGS.putBuff bh
  | syncDev dev => EgGS.syncDev dev
  | change i contents => Prog.update (Sys.setInode · i fun x =>
      { x with toDInode := contents, iDirt := true })
  | store bh data => Prog.update (EgGS.store bh data)
  | idle => EgGS.idle

/-- Every call is a path of steps. -/
theorem steps (c : FsCall n) : Traces (FsStep env) env c.exec := by
  cases c with
  | readInode dev nr => exact .bind readInode_fs fun _ => .pure ()
  | createInode dev => exact .bind createInode_fs fun _ => .pure ()
  | putInode i => exact putInode_fs i
  | truncate i => exact fs_of_steady truncate_steady
  | locate i block create => exact .bind (fs_of_steady locateByInode_steady) fun _ => .pure ()
  | syncInodes => exact fs_of_steady syncAllInodesToBuff_steady
  | findSuper dev => exact .bind (fs_of_steady findSuper_steady) fun _ => .pure ()
  | readSuper dev => exact .bind (fs_of_steady readSuper_steady) fun _ => .pure ()
  | putSuper dev => exact fs_of_steady putSuper_steady
  | byName inode name namelen => exact .bind retainInodeByName_fs fun _ => .pure ()
  | byPath inode pathname => exact .bind retainInodeByPath_fs fun _ => .pure ()
  | createByName inode name namelen => exact .bind createInodeByName_fs fun _ => .pure ()
  | getBuff dev block => exact .bind (fs_of_steady getBuff_steady) fun _ => .pure ()
  | readBuff dev block => exact .bind (fs_of_steady readBuff_steady) fun _ => .pure ()
  | putBuff bh => exact fs_of_steady (putBuff_steady bh)
  | syncDev dev => exact fun _ _ _ _ h => (Steadily.of_submits (syncDev_submits h)).fs
  | change i contents =>
      exact fs_of_steady (assign_steady i fun x => ⟨contents, true, rfl, fun _ => rfl⟩)
  | store bh data => exact fs_of_steady (store_steady bh fun _ => data)
  | idle => exact fun _ _ _ _ h => (Steadily.of_submits (idle_submits h)).fs

end FsCall

/-- The tables of inodes and super blocks are as the kernel is loaded. -/
structure Sys.Fresh (s : Sys n) : Prop where
  inode : ∀ i, s.inode i = MInode.zero
  super : ∀ sb, (s.superBlock sb).sDev = 0 ∧ (s.superBlock sb).sLock = false

/-- The states a run of the file system can be in. -/
inductive FsReach (env : Env n) : Sys n → Prop
  | start {s : Sys n} : s.Fresh → FsReach env s
  | call {s s' : Sys n} {k : ℕ} (c : FsCall n) : FsReach env s → c.exec env k s = .ok () s' →
      FsReach env s'

/-! ## No lock is ever set -/

/-- No inode and no super block is locked. -/
structure Sys.NoLocks (s : Sys n) : Prop where
  inode : ∀ i, (s.inode i).iLock = false
  super : ∀ sb, (s.superBlock sb).sLock = false

namespace Sys.NoLocks

theorem setInode (h : s.NoLocks) (i : Fin nrInode) {f : MInode → MInode}
    (hf : (s.inode i).iLock = false → (f (s.inode i)).iLock = false) :
    (s.setInode i f).NoLocks where
  inode j := by
    rw [Sys.setInode_at MInode.iLock]
    split
    · rename_i hij
      exact hij ▸ hf (h.inode i)
    · exact h.inode j
  super := h.super

theorem setSuper (h : s.NoLocks) (sb : Fin nrSuper) {f : SuperBlock n → SuperBlock n}
    (hf : ∀ p, p.sLock = false → (f p).sLock = false) : (s.setSuper sb f).NoLocks where
  inode := h.inode
  super p := by
    by_cases hp : p = sb
    · subst hp
      simpa using hf _ (h.super p)
    · simpa [hp] using h.super p

/-- The lock calls do not set the lock, and nothing else does. -/
theorem step (h : s.NoLocks) (hstep : FsStep env s s') : s'.NoLocks := by
  cases hstep with
  | up i => exact h.setInode i id
  | down i => exact h.setInode i id
  | claim i dev nr => exact h.setInode i fun _ => rfl
  | erase i => exact h.setInode i fun _ => rfl
  | grow inode i e bh =>
      have hbuf : (s.setBuf bh fun h => { h with bData := h.bData.setWord (16 * e) 0 }).NoLocks :=
        ⟨h.inode, h.super⟩
      exact hbuf.setInode inode id
  | steady hsteady =>
      refine ⟨hsteady.unlocked h.inode, ?_⟩
      cases hsteady with
      | cache hcache => exact fun sb => hcache.tables.2.1 ▸ h.super sb
      | lockInode hlock => exact (lockInode_eq hlock).1 ▸ h.super
      | unlockInode _ => exact h.super
      | assign _ _ _ _ => exact h.super
      | copy _ _ => exact h.super
      | turn _ => exact h.super
      | lockSuper hlock => exact (lockSuper_eq hlock).1 ▸ h.super
      | @unlockSuper _ sb _ hunlock =>
          have hset : (s.setSuper sb fun p => { p with sLock := false }).NoLocks :=
            h.setSuper sb fun _ _ => rfl
          exact unlockSuper_eq hunlock ▸ hset.super
      | super sb f hf => exact (h.setSuper sb fun p hp => (hf p).trans hp).super
      | mark _ => exact h.super

theorem steps (h : s.NoLocks) (hpath : FsSteps env s s') : s'.NoLocks := by
  induction hpath with
  | refl => exact h
  | tail _ hstep ih => exact ih.step hstep

end Sys.NoLocks

theorem FsReach.noLocks (h : FsReach env s) : s.NoLocks := by
  induction h with
  | start hfresh =>
      exact ⟨fun i => by rw [hfresh.inode i]; rfl, fun sb => (hfresh.super sb).2⟩
  | call c _ hexec ih => exact ih.steps (c.steps.path hexec)

end EgGS
