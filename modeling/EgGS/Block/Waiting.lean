import EgGS.Block.Effect

/-!
# What waiting can do

While the code waits for the lock of a buffer, nothing but interrupts happens.  An interrupt
touches the buffers of queued requests, and these are locked.  So a buffer that is not locked
stays as it is, and nobody but `add_request` clears `b_dirt`.

`Passed` collects what may have happened while `wait_on_buff` slept, and `Serving.waitOnBuff` shows
that it has: the effects of some interrupts and nothing else.
-/

namespace EgGS

open Lib Prog Relation

variable {n : ℕ} {env : Env n} {k : ℕ} {s s' : Sys n}
variable {sub : Submission n} {b c : Fin n}

/-! ## Interrupts -/

/-- The request layer serves on, and only the driver was at work. -/
structure Passed (sub : Submission n) (s s' : Sys n) : Prop where
  serving : Serving sub s'
  effects : Effects sub s s'

theorem Passed.trans {t : Sys n} (h : Passed sub s t) (h' : Passed sub t s') : Passed sub s s' :=
  ⟨h'.serving, h.effects.trans h'.effects⟩

/-- The clock and the interrupt flag are nothing to the driver. -/
theorem Serving.time (h : Serving sub s) (clock : ℕ) (intr : Bool) :
    Passed sub s { s with clock, intr } :=
  ⟨⟨h.pooled.congr (.of_buf rfl rfl rfl),
    h.transfer.congr rfl rfl rfl rfl rfl (fun _ _ => ⟨_, rfl⟩) fun _ _ _ _ => .of_eq rfl⟩,
    .single (.of_same rfl rfl rfl rfl (.refl rfl))⟩

theorem Serving.interrupts (henv : env.Answers) (j : ℕ) (h : Serving sub s)
    (hrun : interrupts j env k s = .ok () s') : Passed sub s s' := by
  induction j generalizing s with
  | zero =>
      simp only [EgGS.interrupts, pure_run, Res.ok.injEq, true_and] at hrun
      exact hrun ▸ ⟨h, .refl⟩
  | succ j ih =>
      simp only [EgGS.interrupts, ask_bind] at hrun
      cases hirq : env.irq s with
      | none =>
          simp only [hirq, pure_run, Res.ok.injEq, true_and] at hrun
          exact hrun ▸ ⟨h, .refl⟩
      | some i =>
          simp only [hirq, bind_eq_ok, update_bind] at hrun
          obtain ⟨⟨⟩, s₁, hint, hrest⟩ := hrun
          have hout := henv s i hirq
          have hfirst : Passed sub s s₁ := ⟨h.interrupt hout hint, h.interrupt_effects hout hint⟩
          have htick := hfirst.trans (hfirst.serving.time (s₁.clock + 1) s₁.intr)
          exact htick.trans (ih htick.serving hrest)

theorem Serving.poll (henv : env.Answers) (h : Serving sub s)
    (hrun : poll env k s = .ok () s') : Passed sub s s' := by
  unfold EgGS.poll at hrun
  simp only [update_bind, read_bind, ite_run, ask_bind, pure_run] at hrun
  have htick := h.time (s.clock + 1) s.intr
  split at hrun
  · exact htick.trans (htick.serving.interrupts henv _ hrun)
  · simp only [Res.ok.injEq, true_and] at hrun
    exact hrun ▸ htick

/-- **Waiting for a buffer.** -/
theorem Serving.waitOnBuff (henv : env.Answers) (h : Serving sub s) {u : Unit}
    (hrun : waitOnBuff b env k s = .ok u s') : Passed sub s s' ∧ (s'.buf b).bLock = false := by
  unfold EgGS.waitOnBuff cli sti at hrun
  simp only [update_bind] at hrun
  refine iterate_ensures (I := fun _ t => Passed sub s t)
    (Q := fun _ t => Passed sub s t ∧ (t.buf b).bLock = false) ?_ ?_ (h.time s.clock false) hrun
  · intro _ t _ t' hI hbody
    simp only [read_bind, ite_run, update_bind, pure_run] at hbody
    split at hbody
    · obtain ⟨⟨⟩, t₁, hpoll, hret⟩ := bind_eq_ok.mp hbody
      simp only [pure_run, Res.ok.injEq, true_and] at hret
      have hopen := hI.trans (hI.serving.time t.clock true)
      exact hret ▸ hopen.trans (hopen.serving.poll henv hpoll)
    · simp at hbody
  · intro _ t _ t' hI hbody
    simp only [read_bind, ite_run, update_bind, pure_run] at hbody
    split at hbody
    · simp at hbody
    · rename_i hlock
      simp only [Res.ok.injEq] at hbody
      exact hbody.2 ▸ ⟨hI, by simpa using hlock⟩

/-! ## What an interrupt leaves alone -/

/-- The driver leaves the rest of the kernel alone. -/
theorem Effect.rest (h : Effect sub s s') : s'.rest = s.rest := by
  cases h with
  | none hrest _ _ _ _ => exact hrest
  | load hrest _ _ _ _ _ _ _ => exact hrest
  | save hrest _ _ _ _ _ _ => exact hrest
  | done hrest _ _ _ _ _ _ _ _ => exact hrest

theorem Effects.rest (h : Effects sub s s') : s'.rest = s.rest := by
  induction h with
  | refl => rfl
  | tail _ hstep ih => exact hstep.rest.trans ih

/-- The driver does not set or clear `b_dirt`. -/
theorem Effect.dirt (h : Effect sub s s') (c : Fin n) : (s'.buf c).bDirt = (s.buf c).bDirt := by
  cases h with
  | none _ hbuf _ _ _ => rw [hbuf]
  | save _ _ _ hbuf _ _ _ => rw [hbuf]
  | @load b _ _ _ hother hself _ _ _ =>
      by_cases hcb : c = b
      · subst hcb
        rw [hself]
      · rw [hother c hcb]
  | @done b _ _ _ _ _ _ hbuf _ _ _ _ =>
      by_cases hcb : c = b
      · subst hcb
        simp [hbuf]
      · simp [hbuf, hcb]

/-- A buffer that no queued request has is left alone, and gets no request. -/
theorem Effect.unqueued (h : Effect sub s s') (hc : ∀ cmd, ¬ s.Queued c cmd) :
    s'.buf c = s.buf c ∧ ∀ cmd, ¬ s'.Queued c cmd := by
  cases h with
  | none _ hbuf _ hqueue _ => exact ⟨by rw [hbuf], fun cmd => (hqueue c cmd).not.mpr (hc cmd)⟩
  | save _ _ _ hbuf _ hqueue _ =>
      exact ⟨by rw [hbuf], fun cmd => (hqueue c cmd).not.mpr (hc cmd)⟩
  | @load b _ hb _ hother _ _ hqueue _ =>
      have hcb : c ≠ b := fun heq => hc .read (heq ▸ hb)
      exact ⟨hother c hcb, fun cmd => (hqueue c cmd).not.mpr (hc cmd)⟩
  | @done b cmd _ _ hb _ _ hbuf _ hqueue _ _ =>
      have hcb : c ≠ b := fun heq => hc cmd (heq ▸ hb)
      exact ⟨by simp [hbuf, hcb], fun cmd' hq => hc cmd' ((hqueue c cmd').mp hq).1⟩

theorem Effects.unqueued (h : Effects sub s s') (hc : ∀ cmd, ¬ s.Queued c cmd) :
    s'.buf c = s.buf c := by
  have hboth : s'.buf c = s.buf c ∧ ∀ cmd, ¬ s'.Queued c cmd := by
    induction h with
    | refl => exact ⟨rfl, hc⟩
    | tail _ hstep ih =>
        obtain ⟨hsame, hnone⟩ := hstep.unqueued ih.2
        exact ⟨hsame.trans ih.1, hnone⟩
  exact hboth.1

end EgGS
