import EgGS.Fs.Runs

/-!
# The locks of inodes and super blocks

Four functions work between a lock call and an unlock call: `read_inode_from_buff`,
`sync_inode_to_buff`, `read_super` and `put_super`.  In no state that the file system can
be in does the lock call leave the lock set, and a second context gets past it.

The assignment of the flag is the body of the loop that waits for it, and a loop that finds the flag
clear does not come to its body.  `Critical` lists the four functions with the entry that they lock,
and `program_eq` shows each as its lock call and the rest.  `flag_clear` is the invariant: no step
of the file system sets a lock flag, so there is never one to wait for.
-/

namespace EgGS

open Lib Prog Relation

variable {n : ℕ} {env : Env n} {k : ℕ} {s s' t : Sys n}

/-- What is locked: an inode or a super block. -/
inductive Lockable where
  | inode (i : Fin nrInode)
  | super (sb : Fin nrSuper)

namespace Lockable

/-- `i_lock` or `s_lock` -/
def flag : Lockable → Sys n → Bool
  | inode i, s => (s.inode i).iLock
  | super sb, s => (s.superBlock sb).sLock

/-- `lock_inode` or `lock_super` -/
def lock : Lockable → P n Unit
  | inode i => lockInode i
  | super sb => lockSuper sb

/-- `wait_on_inode` or `wait_on_super` -/
def wait : Lockable → P n Unit
  | inode i => waitOnInode i
  | super sb => waitOnSuper sb

theorem lock_evals {x : Lockable} (h : x.flag s = false) : Evals x.lock env s ()
    (s.setIntr true) := by
  cases x with
  | inode i => exact lockInode_evals h
  | super sb => exact lockSuper_evals h

theorem wait_evals {x : Lockable} (h : x.flag s = false) :
    Evals x.wait env s () (s.setIntr false) := by
  cases x with
  | inode i => exact waitOnInode_evals h
  | super sb => exact waitOnSuper_evals h

theorem flag_clear (x : Lockable) (h : s.NoLocks) : x.flag s = false := by
  cases x with
  | inode i => exact h.inode i
  | super sb => exact h.super sb

end Lockable

/-- The functions that work between a lock call and an unlock call, from the lock call on. -/
inductive Critical where
  | readInode (i : Fin nrInode)
  | syncInode (i : Fin nrInode)
  | readSuper (sb : Fin nrSuper) (dev : ℕ)
  | putSuper (sb : Fin nrSuper)

namespace Critical

/-- What the function locks. -/
def object : Critical → Lockable
  | readInode i => .inode i
  | syncInode i => .inode i
  | readSuper sb _ => .super sb
  | putSuper sb => .super sb

/-- What the function returns. -/
abbrev Result : Critical → Type
  | readSuper _ _ => Option (Fin nrSuper)
  | _ => Unit

/-- The function, from the lock call on. -/
def program : (c : Critical) → P n c.Result
  | readInode i => readInodeFromBuff i
  | syncInode i => syncInodeToBuff i
  | readSuper sb dev => fillSuper sb dev
  | putSuper sb => releaseSuper sb

/-- The first thing the function does is to lock its object. -/
theorem program_eq (c : Critical) : ∃ rest : P n c.Result,
    (c.program : P n c.Result) = c.object.lock >>= fun _ => rest := by
  cases c <;> exact ⟨_, rfl⟩

end Critical

/-- The lock of the function's object is set when its lock call returns. -/
def LockTaken (env : Env n) (c : Critical) (s : Sys n) : Prop :=
  ∃ t, Evals c.object.lock env s () t ∧ c.object.flag t = true

/-- A second context that locks the object or waits for it behind the lock call of the
function gets past it. -/
def Entered (env : Env n) (c : Critical) (s : Sys n) : Prop :=
  ∃ t t', Evals c.object.lock env s () t ∧ Evals c.object.lock env t () t' ∧
    Evals c.object.wait env t () (t.setIntr false)

theorem Evals.unique {α : Type} {m : P n α} {a a' : α} (h : Evals m env s a s')
    (h' : Evals m env s a' t) : s' = t := by
  obtain ⟨N, hN⟩ := h
  obtain ⟨M, hM⟩ := h'
  have heq := (hN _ (le_max_left N M)).symm.trans (hM _ (le_max_right N M))
  simp only [Res.ok.injEq] at heq
  exact heq.2

/-- **The locks never lock.**  Wherever a run of the file system comes to one of these
functions, its lock call returns and leaves the lock clear, and a second context gets past
it. -/
theorem locks_never_taken (h : FsReach env s) (hpath : FsSteps env s t) (c : Critical) :
    (∃ rest : P n c.Result, (c.program : P n c.Result) = c.object.lock >>= fun _ => rest) ∧
      ¬ LockTaken env c t ∧ Entered env c t := by
  have hlocks := h.noLocks.steps hpath
  have hlock : Evals c.object.lock env t () (t.setIntr true) :=
    Lockable.lock_evals (c.object.flag_clear hlocks)
  have hclear : c.object.flag (t.setIntr true) = false :=
    c.object.flag_clear ⟨hlocks.inode, hlocks.super⟩
  refine ⟨c.program_eq, ?_, t.setIntr true, _, hlock, Lockable.lock_evals hclear,
    Lockable.wait_evals hclear⟩
  rintro ⟨u, hu, hset⟩
  rw [← Evals.unique hlock hu, hclear] at hset
  exact absurd hset (by decide)

/-- The first inode has changed. -/
def strayChanged : Sys 1 :=
  (initBuff (initRequestQueue (Sys.load fun _ _ _ => 7))).setInode 0 fun x =>
    { x with toDInode := { x.toDInode with iMode := 0x8000 }, iDirt := true }

/-- The inodes are written back. -/
def straySynced : Sys 1 := (syncAllInodesToBuff (Env.diligent 0x50) 40 strayChanged).state

theorem locks_never_taken_synced : ¬ LockTaken (Env.diligent 0x50) (.syncInode 0) straySynced ∧
    Entered (Env.diligent 0x50) (.syncInode 0) straySynced := by
  have hchanged : FsReach (Env.diligent 0x50) strayChanged :=
    .call (k := 40) (.change 0 { MInode.zero.toDInode with iMode := 0x8000 })
      (.start ⟨fun _ => rfl, fun _ => ⟨rfl, rfl⟩⟩) rfl
  have hrun : syncAllInodesToBuff (Env.diligent 0x50) 40 strayChanged = .ok () straySynced :=
    Res.eq_ok (by decide +kernel)
  have hpath : FsSteps (Env.diligent 0x50) strayChanged straySynced :=
    (FsCall.steps .syncInodes).path hrun
  exact (locks_never_taken hchanged hpath (.syncInode 0)).2

/-- In the first state of the kernel `lock_inode` returns with the lock clear. -/
theorem first_lock_open :
    ¬ ∀ (env : Env 1) (s t : Sys 1) (c : Critical), FsReach env s → FsSteps env s t →
      LockTaken env c t ∧ ¬ Entered env c t := by
  intro h
  have hstart : FsReach (Env.diligent 0x50) (Sys.load fun _ _ _ => 7 : Sys 1) :=
    .start ⟨fun _ => rfl, fun _ => ⟨rfl, rfl⟩⟩
  obtain ⟨u, hu, hset⟩ := (h _ _ _ (.readInode 0) hstart .refl).1
  have hlock : Evals (lockInode 0) (Env.diligent 0x50) (Sys.load fun _ _ _ => 7 : Sys 1) ()
      ((Sys.load fun _ _ _ => 7).setIntr true) := lockInode_evals rfl
  rw [← Evals.unique hlock hu] at hset
  exact absurd hset (by decide)

end EgGS
