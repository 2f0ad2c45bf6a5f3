import EgGS.Cache.Create
import EgGS.Model.Mount
import EgGS.Model.Path

/-!
# Locks and waits

The loops of `lock_inode` and `lock_super` set the lock that they test, so they end only
if it was clear, and then without setting it.  The loops of `wait_on_buff`,
`wait_on_inode` and `wait_on_super` enable interrupts only while the lock is set: who
waits for something that is not locked goes on with interrupts disabled.
-/

namespace EgGS

open Lib Prog Relation

variable {n : ℕ} {env : Env n} {k : ℕ} {s s' : Sys n}

/-! ## The two loops -/

/-- `while (lock) lock = 1;` -/
def setLoop (flag : Sys n → Bool) (set : Sys n → Sys n) : P n Unit :=
  Prog.iterate (fun _ => do
    let s ← Prog.read
    if flag s then do
      Prog.update set
      pure (.inl ())
    else
      pure (.inr ())) ()

/-- `while (lock) sti();`, with interrupts arriving where they are enabled. -/
def waitLoop (flag : Sys n → Bool) : P n Unit :=
  Prog.iterate (fun _ => do
    let s ← Prog.read
    if flag s then do
      sti
      poll
      pure (.inl ())
    else
      pure (.inr ())) ()

section Loops

variable (flag : Sys n → Bool) {set : Sys n → Sys n} {u : Unit}

/-- The first loop ends only if the lock is clear, and changes nothing. -/
theorem setLoop_eq (hset : ∀ t, flag (set t) = true) (h : setLoop flag set env k s = .ok u s') :
    s' = s ∧ flag s = false := by
  cases hlock : flag s with
  | true =>
      refine absurd (iterate_ensures (I := fun _ t => flag t = true) (Q := fun _ _ => False)
        ?_ ?_ hlock h) id
      · intro _ t _ t' ht hbody
        simp only [read_bind, ite_run, ht, if_true, update_bind, pure_run, Res.ok.injEq] at hbody
        exact hbody.2 ▸ hset t
      · intro _ t _ t' ht hbody
        simp [ht] at hbody
  | false =>
      refine ⟨iterate_ensures (I := fun _ t => t = s) (Q := fun _ t => t = s) ?_ ?_ rfl h, rfl⟩
      · rintro _ t _ t' rfl hbody
        simp [hlock] at hbody
      · rintro _ t _ t' rfl hbody
        simp only [read_bind, ite_run, hlock, Bool.false_eq_true, if_false, pure_run,
          Res.ok.injEq] at hbody
        exact hbody.2.symm

theorem setLoop_evals (hclear : flag s = false) : Evals (setLoop flag set) env s () s := by
  refine ⟨1, fun k hk => ?_⟩
  obtain ⟨k, rfl⟩ : ∃ j, k = j + 1 := ⟨k - 1, by omega⟩
  simp [setLoop, iterate, rounds, bind_run, hclear]

/-- The second loop ends with interrupts enabled if it had to wait, and changes nothing if
it had not. -/
theorem waitLoop_intr (h : waitLoop flag env k s = .ok u s') :
    (flag s = true → s'.intr = true) ∧ (flag s = false → s' = s) := by
  refine iterate_ensures
    (I := fun _ t => t = s ∨ flag s = true ∧ t.intr = true)
    (Q := fun _ t => (flag s = true → t.intr = true) ∧ (flag s = false → t = s)) ?_ ?_ (.inl rfl) h
  · intro _ t _ t' hI hbody
    simp only [read_bind, ite_run] at hbody
    split at hbody
    · rename_i hflag
      simp only [sti, update_bind, bind_eq_ok, pure_run, Res.ok.injEq] at hbody
      obtain ⟨⟨⟩, t₁, hpoll, -, rfl⟩ := hbody
      have hintr : t₁.intr = true := poll_intr.eq hpoll
      rcases hI with rfl | hI
      · exact .inr ⟨hflag, hintr⟩
      · exact .inr ⟨hI.1, hintr⟩
    · simp at hbody
  · intro _ t _ t' hI hbody
    simp only [read_bind, ite_run] at hbody
    split at hbody
    · simp only [bind_eq_ok, pure_run, Res.ok.injEq] at hbody
      simp at hbody
    · rename_i hclear
      simp only [pure_run, Res.ok.injEq] at hbody
      obtain ⟨-, rfl⟩ := hbody
      rcases hI with rfl | ⟨hset, hintr⟩
      · exact ⟨fun hset => absurd hset hclear, fun _ => rfl⟩
      · exact ⟨fun _ => hintr, fun hclear => absurd (hset.symm.trans hclear) (by decide)⟩

theorem waitLoop_evals (hclear : flag s = false) : Evals (waitLoop flag) env s () s := by
  refine ⟨1, fun k hk => ?_⟩
  obtain ⟨k, rfl⟩ : ∃ j, k = j + 1 := ⟨k - 1, by omega⟩
  simp [waitLoop, iterate, rounds, bind_run, hclear]

end Loops

/-! ## The locks of inodes and super blocks -/

section Locks

variable {i : Fin nrInode} {sb : Fin nrSuper} {b : Fin n} {u : Unit}

theorem lockInode_eq (h : lockInode i env k s = .ok u s') :
    s' = s.setIntr true ∧ (s.inode i).iLock = false := by
  unfold lockInode cli sti at h
  simp only [update_bind, bind_eq_ok, update_run, Res.ok.injEq, true_and] at h
  obtain ⟨⟨⟩, t, hloop, rfl⟩ := h
  obtain ⟨rfl, hclear⟩ := setLoop_eq (fun s : Sys n => (s.inode i).iLock) (by simp) hloop
  exact ⟨rfl, hclear⟩

theorem lockSuper_eq (h : lockSuper sb env k s = .ok u s') :
    s' = s.setIntr true ∧ (s.superBlock sb).sLock = false := by
  unfold lockSuper cli sti at h
  simp only [update_bind, bind_eq_ok, update_run, Res.ok.injEq, true_and] at h
  obtain ⟨⟨⟩, t, hloop, rfl⟩ := h
  obtain ⟨rfl, hclear⟩ := setLoop_eq (fun s : Sys n => (s.superBlock sb).sLock) (by simp) hloop
  exact ⟨rfl, hclear⟩

theorem unlockSuper_eq (h : unlockSuper sb env k s = .ok u s') :
    s' = (s.setSuper sb fun p => { p with sLock := false }).setIntr true := by
  unfold unlockSuper cli sti at h
  simp only [update_bind, update_run, Res.ok.injEq, true_and] at h
  exact h.symm

/-- A lock that is clear is got past, by who would set it and by who waits for it. -/
theorem lockInode_evals (hclear : (s.inode i).iLock = false) :
    Evals (lockInode i) env s () (s.setIntr true) :=
  (Evals.of_eq fun _ => rfl).bind <|
    (setLoop_evals (fun s : Sys n => (s.inode i).iLock) (s := s.setIntr false) hclear).bind <|
    .of_eq fun _ => rfl

theorem waitOnInode_evals (hclear : (s.inode i).iLock = false) :
    Evals (waitOnInode i) env s () (s.setIntr false) :=
  (Evals.of_eq fun _ => rfl).bind <|
    waitLoop_evals (fun s : Sys n => (s.inode i).iLock) (s := s.setIntr false) hclear

theorem lockSuper_evals (hclear : (s.superBlock sb).sLock = false) :
    Evals (lockSuper sb) env s () (s.setIntr true) :=
  (Evals.of_eq fun _ => rfl).bind <|
    (setLoop_evals (fun s : Sys n => (s.superBlock sb).sLock) (s := s.setIntr false) hclear).bind <|
    .of_eq fun _ => rfl

theorem waitOnSuper_evals (hclear : (s.superBlock sb).sLock = false) :
    Evals (waitOnSuper sb) env s () (s.setIntr false) :=
  (Evals.of_eq fun _ => rfl).bind <|
    waitLoop_evals (fun s : Sys n => (s.superBlock sb).sLock) (s := s.setIntr false) hclear

theorem waitOnInode_submits {u : Unit} (h : waitOnInode i env k s = .ok u s') :
    Submits env (.idle, s) (.idle, s') := by
  unfold waitOnInode cli sti at h
  simp only [update_bind] at h
  refine iterate_ensures (I := fun _ t => Submits env (.idle, s) (.idle, t))
    (Q := fun _ t => Submits env (.idle, s) (.idle, t)) ?_ ?_ (setIntr_submits false) h
  · intro _ t _ t' hI hbody
    simp only [read_bind, ite_run, update_bind, pure_run] at hbody
    split at hbody
    · obtain ⟨⟨⟩, t₁, hpoll, hret⟩ := bind_eq_ok.mp hbody
      simp only [pure_run, Res.ok.injEq, true_and] at hret
      exact hret ▸ (hI.trans (setIntr_submits true)).trans (poll_submits hpoll)
    · simp at hbody
  · intro _ t _ t' hI hbody
    simp only [read_bind, ite_run, update_bind, pure_run] at hbody
    split at hbody
    · simp only [bind_eq_ok, pure_run, Res.ok.injEq] at hbody
      simp at hbody
    · simp only [Res.ok.injEq] at hbody
      exact hbody.2 ▸ hI

/-- Who waits goes on when the lock is clear. -/
theorem waitLoop_clear (flag : Sys n → Bool) {u : Unit} (h : waitLoop flag env k s = .ok u s') :
    flag s' = false := by
  refine iterate_ensures (I := fun _ _ => True) (Q := fun _ t => flag t = false)
    (fun _ _ _ _ _ _ => trivial) ?_ trivial h
  intro _ t _ t' _ hbody
  simp only [read_bind, ite_run] at hbody
  split at hbody
  · simp only [bind_eq_ok, pure_run, Res.ok.injEq] at hbody
    simp at hbody
  · rename_i hclear
    simp only [pure_run, Res.ok.injEq] at hbody
    exact hbody.2 ▸ by simpa using hclear

/-- After `wait_on_buff` interrupts are enabled if the buffer was locked, and disabled if it
was not. -/
theorem waitOnBuff_intr (h : waitOnBuff b env k s = .ok u s') :
    s'.intr = true ↔ (s.buf b).bLock = true := by
  unfold waitOnBuff cli at h
  rw [update_bind] at h
  obtain ⟨hset, hclear⟩ := waitLoop_intr (fun s : Sys n => (s.buf b).bLock) h
  cases hlock : (s.buf b).bLock with
  | true => exact ⟨fun _ => rfl, fun _ => hset hlock⟩
  | false =>
      rw [hclear hlock]
      simp

theorem putBuff_intr (h : putBuff (some b) env k s = .ok u s') :
    s'.intr = true ↔ (s.buf b).bLock = true := by
  obtain ⟨⟨⟩, t, hwait, h⟩ := bind_eq_ok.mp h
  simp only [read_bind, ite_run, panic, halt_run, update_run] at h
  split at h
  · simp at h
  · simp only [Res.ok.injEq, true_and] at h
    subst h
    show t.intr = true ↔ _
    exact waitOnBuff_intr hwait

/-- Who gives back a buffer that is not locked goes on with interrupts disabled. -/
theorem putBuff_quiet (h : putBuff (some b) env k s = .ok u s') (hlock : (s.buf b).bLock = false) :
    s'.intr = false := by
  simpa [hlock] using putBuff_intr h

/-- Nobody unlocks an inode during a wait, so who comes back did not have to wait and has
interrupts disabled. -/
theorem waitOnInode_intr (h : waitOnInode i env k s = .ok u s') : s'.intr = false := by
  have hsame : s'.inode = s.inode := congrArg Rest.inode (waitOnInode_submits h).rest
  unfold waitOnInode cli at h
  rw [update_bind] at h
  have hclear := waitLoop_clear (fun s : Sys n => (s.inode i).iLock) h
  rw [hsame] at hclear
  rw [(waitLoop_intr (fun s : Sys n => (s.inode i).iLock) h).2 hclear]
  rfl

theorem waitOnSuper_intr (h : waitOnSuper sb env k s = .ok u s') : s'.intr = false := by
  have hsame : s'.superBlock = s.superBlock := congrArg Rest.superBlock (waitOnSuper_submits h).rest
  unfold waitOnSuper cli at h
  rw [update_bind] at h
  have hclear := waitLoop_clear (fun s : Sys n => (s.superBlock sb).sLock) h
  rw [hsame] at hclear
  rw [(waitLoop_intr (fun s : Sys n => (s.superBlock sb).sLock) h).2 hclear]
  rfl

end Locks

end EgGS
