import EgGS.Block.Steps

/-!
# What a call of `ll_rw_block` can do

`ll_rw_block` locks its buffer, fills a slot and links it into the queue, with
interrupts in between.  `Submit` lists its steps and those of the interrupts;
`llRwBlock_submits` walks through the code once and shows that a call is a path
of such steps.  An invariant of the request layer is proved for each step.

Between its steps a call is described by a `Submission`: the buffer it has
locked, the command it has decided on and the slot it has filled.
-/

namespace EgGS

open Lib Prog Relation

variable {n : ℕ} {env : Env n} {k : ℕ} {s s' : Sys n}

/-- What a call of `ll_rw_block` has taken but not queued yet. -/
structure Submission (n : ℕ) where
  buf : Option (Fin n)
  cmd : Option Rw
  slot : Option (Fin nrRequest)

/-- No call of `ll_rw_block` is in progress. -/
abbrev Submission.idle : Submission n := ⟨none, none, none⟩

/-- The request in slot `r` is about to be queued. -/
def Sys.offer (s : Sys n) (r : Fin nrRequest) : Sys n :=
  Sys.clean ((s.setRequest r fun req => { req with next := none }).setIntr false) r

/-- The request `tmp` is on the queue from `head` on. -/
abbrev Sys.Behind (s : Sys n) (head tmp : Fin nrRequest) : Prop :=
  ReflTransGen (fun x y => (s.request x).next = some y) head tmp

/-- The steps of the request layer. -/
inductive Submit (env : Env n) : Submission n × Sys n → Submission n × Sys n → Prop
  | time {sub : Submission n} {s : Sys n} (clock : ℕ) (intr : Bool) :
      Submit env (sub, s) (sub, { s with clock, intr })
  | interrupt {sub : Submission n} {s s' : Sys n} {i : Irq} {k : ℕ} : env.irq s = some i →
      hdInterrupt i env k s = .ok () s' → Submit env (sub, s) (sub, s')
  | lock {s : Sys n} {b : Fin n} : (s.buf b).bLock = false → major (s.buf b).bDev = 3 →
      s.hdEnabled = true →
      Submit env (.idle, s)
        (⟨some b, none, none⟩, s.setBuf b fun bh => { bh with bLock := true })
  | check {s : Sys n} {b : Fin n} {rw : Rw} : rw = .read ∨ rw = .write →
      (rw = .write → (s.buf b).bDirt = true) → (rw = .read → (s.buf b).bUptodate = false) →
      Submit env (⟨some b, none, none⟩, s) (⟨some b, some rw, none⟩, s)
  | giveUp {s : Sys n} {b : Fin n} {cmd : Option Rw} :
      Submit env (⟨some b, cmd, none⟩, s) (.idle, unlockBuff b s)
  | fill {s : Sys n} {b : Fin n} {rw : Rw} {r : Fin nrRequest} : freeSlot s rw = some r →
      Submit env (⟨some b, some rw, none⟩, s)
        (⟨some b, some rw, some r⟩, s.setRequest r fun _ => makeRequest s rw b)
  | start {s s' : Sys n} {b : Option (Fin n)} {cmd : Option Rw} {r : Fin nrRequest} {k : ℕ} :
      s.current = none →
      doHdRequest env k (((s.offer r).start r).setIntr true) = .ok () s' →
      Submit env (⟨b, cmd, some r⟩, s) (.idle, s')
  | queue {s : Sys n} {b : Option (Fin n)} {cmd : Option Rw} {r head tmp : Fin nrRequest}
      {e : Env n} {k : ℕ} : s.current = some head →
      elevator r head e k (s.offer r) = .ok tmp (s.offer r) →
      Submit env (⟨b, cmd, some r⟩, s) (.idle, ((s.offer r).linkBehind tmp r).setIntr true)

/-- A path of steps of the request layer. -/
abbrev Submits (env : Env n) : Submission n × Sys n → Submission n × Sys n → Prop :=
  ReflTransGen (Submit env)

/-- What every step keeps, a path keeps. -/
theorem Submits.invariant {I : Submission n → Sys n → Prop} {x y : Submission n × Sys n}
    (hpath : Submits env x y)
    (hstep : ∀ {x y}, I x.1 x.2 → Submit env x y → I y.1 y.2) (h : I x.1 x.2) : I y.1 y.2 := by
  induction hpath with
  | refl => exact h
  | tail _ hxy ih => exact hstep ih hxy

variable {sub : Submission n} {b : Fin n} {rw : Rw}

/-! ## Interrupts and waiting -/

/-- The kernel waits: time passes, or an interrupt comes. -/
inductive Wait (env : Env n) : Sys n → Sys n → Prop
  | time {s : Sys n} (clock : ℕ) (intr : Bool) : Wait env s { s with clock, intr }
  | interrupt {s s' : Sys n} {i : Irq} {k : ℕ} : env.irq s = some i →
      hdInterrupt i env k s = .ok () s' → Wait env s s'

/-- The kernel waits for some time. -/
abbrev Waits (env : Env n) : Sys n → Sys n → Prop := ReflTransGen (Wait env)

/-- It can wait at every point of a call. -/
theorem Waits.submits (sub : Submission n) (h : Waits env s s') : Submits env (sub, s) (sub, s') :=
  h.lift (fun s => (sub, s)) fun _ _ hwait => by
    cases hwait with
    | time clock intr => exact .time clock intr
    | interrupt hirq hint => exact .interrupt hirq hint

theorem setIntr_waits (on : Bool) : Waits env s (s.setIntr on) := .single (.time s.clock on)

theorem setIntr_submits (on : Bool) : Submits env (sub, s) (sub, s.setIntr on) :=
  (setIntr_waits on).submits sub

theorem interrupts_waits (j : ℕ) (h : interrupts j env k s = .ok () s') : Waits env s s' := by
  induction j generalizing s with
  | zero =>
      simp only [interrupts, pure_run, Res.ok.injEq, true_and] at h
      exact h ▸ .refl
  | succ j ih =>
      simp only [interrupts, ask_bind] at h
      cases hirq : env.irq s with
      | none =>
          simp only [hirq, pure_run, Res.ok.injEq, true_and] at h
          exact h ▸ .refl
      | some i =>
          simp only [hirq, bind_eq_ok, update_bind] at h
          obtain ⟨⟨⟩, s₁, hint, hrest⟩ := h
          exact .head (.interrupt hirq hint) (.head (.time (s₁.clock + 1) s₁.intr) (ih hrest))

theorem poll_waits (h : poll env k s = .ok () s') : Waits env s s' := by
  unfold poll at h
  simp only [update_bind, read_bind, ite_run, ask_bind, pure_run] at h
  refine .head (.time (s.clock + 1) s.intr) ?_
  split at h
  · exact interrupts_waits _ h
  · simp only [Res.ok.injEq, true_and] at h
    exact h ▸ .refl

theorem poll_submits (h : poll env k s = .ok () s') : Submits env (sub, s) (sub, s') :=
  (poll_waits h).submits sub

/-- After `wait_on_buff` the buffer is unlocked. -/
theorem waitOnBuff_waits {u : Unit} (h : waitOnBuff b env k s = .ok u s') :
    Waits env s s' ∧ (s'.buf b).bLock = false := by
  unfold waitOnBuff cli sti at h
  simp only [update_bind] at h
  refine iterate_ensures (I := fun _ t => Waits env s t)
    (Q := fun _ t => Waits env s t ∧ (t.buf b).bLock = false) ?_ ?_ (setIntr_waits false) h
  · intro _ t _ t' hI hbody
    simp only [read_bind, ite_run, update_bind, pure_run] at hbody
    split at hbody
    · obtain ⟨⟨⟩, t₁, hpoll, hret⟩ := bind_eq_ok.mp hbody
      simp only [pure_run, Res.ok.injEq, true_and] at hret
      exact hret ▸ (hI.trans (setIntr_waits true)).trans (poll_waits hpoll)
    · simp at hbody
  · intro _ t _ t' hI hbody
    simp only [read_bind, ite_run, update_bind, pure_run] at hbody
    split at hbody
    · simp at hbody
    · rename_i hlock
      simp only [Res.ok.injEq] at hbody
      exact hbody.2 ▸ ⟨hI, by simpa using hlock⟩

theorem waitOnBuff_submits (sub : Submission n) {u : Unit} (h : waitOnBuff b env k s = .ok u s') :
    Submits env (sub, s) (sub, s') ∧ (s'.buf b).bLock = false := by
  obtain ⟨hwaits, hlock⟩ := waitOnBuff_waits h
  exact ⟨hwaits.submits sub, hlock⟩

/-! ## `ll_rw_block` -/

theorem findSlot_submits {slot : Option (Fin nrRequest)} {ahead : Bool}
    (h : findSlot rw ahead env k s = .ok slot s') :
    Submits env (sub, s) (sub, s') ∧ ∀ r, slot = some r → freeSlot s' rw = some r := by
  unfold findSlot at h
  refine iterate_ensures (I := fun _ t => Submits env (sub, s) (sub, t))
    (Q := fun slot t => Submits env (sub, s) (sub, t) ∧
      ∀ r, slot = some r → freeSlot t rw = some r) ?_ ?_ .refl h
  · intro _ t _ t' hI hbody
    rw [read_bind] at hbody
    cases hfree : freeSlot t rw with
    | some r => simp [hfree] at hbody
    | none =>
        simp only [hfree, ite_run, pure_run] at hbody
        split at hbody
        · simp at hbody
        · obtain ⟨⟨⟩, t₁, hpoll, hret⟩ := bind_eq_ok.mp hbody
          simp only [pure_run, Res.ok.injEq, true_and] at hret
          exact hret ▸ hI.trans (poll_submits hpoll)
  · intro _ t slot t' hI hbody
    rw [read_bind] at hbody
    cases hfree : freeSlot t rw with
    | some r =>
        simp only [hfree, pure_run, Res.ok.injEq, Sum.inr.injEq] at hbody
        obtain ⟨rfl, rfl⟩ := hbody
        exact ⟨hI, fun r' hr' => hr' ▸ hfree⟩
    | none =>
        simp only [hfree, ite_run, pure_run] at hbody
        split at hbody
        · simp only [Res.ok.injEq, Sum.inr.injEq] at hbody
          obtain ⟨rfl, rfl⟩ := hbody
          exact ⟨hI, fun r' hr' => absurd hr' (by simp)⟩
        · simp at hbody

/-- The elevator changes nothing and settles on a request of the queue. -/
theorem elevator_behind {req head tmp : Fin nrRequest}
    (h : elevator req head env k s = .ok tmp s') : s' = s ∧ s.Behind head tmp := by
  unfold elevator at h
  refine iterate_ensures (I := fun x t => t = s ∧ s.Behind head x)
    (Q := fun x t => t = s ∧ s.Behind head x) ?_ ?_ ⟨rfl, .refl⟩ h
  · rintro x t y t' ⟨rfl, hI⟩ hbody
    rw [read_bind] at hbody
    cases hnext : (t.request x).next with
    | none => simp [hnext] at hbody
    | some z =>
        simp only [hnext, ite_run, pure_run] at hbody
        split at hbody
        · simp at hbody
        · simp only [Res.ok.injEq, Sum.inl.injEq] at hbody
          obtain ⟨rfl, rfl⟩ := hbody
          exact ⟨rfl, hI.tail hnext⟩
  · rintro x t y t' ⟨rfl, hI⟩ hbody
    rw [read_bind] at hbody
    cases hnext : (t.request x).next with
    | none =>
        simp only [hnext, pure_run, Res.ok.injEq, Sum.inr.injEq] at hbody
        obtain ⟨rfl, rfl⟩ := hbody
        exact ⟨rfl, hI⟩
    | some z =>
        simp only [hnext, ite_run, pure_run] at hbody
        split at hbody
        · simp only [Res.ok.injEq, Sum.inr.injEq] at hbody
          obtain ⟨rfl, rfl⟩ := hbody
          exact ⟨rfl, hI⟩
        · simp at hbody

@[simp] theorem Sys.clean_current (r : Fin nrRequest) : (s.clean r).current = s.current := by
  unfold Sys.clean
  split <;> rfl

/-- Behind its assignments, `add_request` starts the queue or asks the elevator. -/
theorem addRequest_run (r : Fin nrRequest) : addRequest r env k s = (match s.current with
    | none => do
        Prog.update (Sys.start · r)
        sti
        doHdRequest
    | some head => do
        let tmp ← elevator r head
        Prog.update (Sys.linkBehind · tmp r)
        sti : P n Unit) env k (s.offer r) := by
  have hcurrent : (s.offer r).current = s.current := by simp [Sys.offer]
  rw [← hcurrent]
  unfold addRequest cli sti
  simp only [update_bind, read_bind]
  rfl

theorem addRequest_submits {r : Fin nrRequest} {buf : Option (Fin n)} {cmd : Option Rw}
    (h : addRequest r env k s = .ok () s') :
    Submits env (⟨buf, cmd, some r⟩, s) (.idle, s') := by
  rw [addRequest_run] at h
  unfold sti at h
  cases hcur : s.current with
  | none =>
      simp only [hcur, update_bind] at h
      exact .single (.start hcur h)
  | some head =>
      simp only [hcur, bind_eq_ok, update_run, update_bind, Res.ok.injEq, true_and] at h
      obtain ⟨tmp, s₁, helev, rfl⟩ := h
      obtain ⟨rfl, -⟩ := elevator_behind helev
      exact .single (.queue hcur helev)

theorem Rw.plain_cases (rw : Rw) : rw.plain = .read ∨ rw.plain = .write := by
  cases rw <;> simp [Rw.plain]

/-- **A call of `ll_rw_block`** on an unlocked buffer is a path of `Submit` steps. -/
theorem llRwBlock_submits {u : Unit} (hlock : (s.buf b).bLock = false)
    (h : llRwBlock rw b env k s = .ok u s') : Submits env (.idle, s) (.idle, s') := by
  unfold llRwBlock at h
  simp only [read_bind, ite_run, pure_run] at h
  split at h
  · simp only [Res.ok.injEq] at h
    exact h.2 ▸ .refl
  rename_i hdev
  simp only [not_or, not_not] at hdev
  split at h
  · simp only [Res.ok.injEq] at h
    exact h.2 ▸ .refl
  rw [bind_eq_ok] at h
  obtain ⟨⟨⟩, s₁, hl, h⟩ := h
  rw [bind_eq_ok] at h
  obtain ⟨⟨⟩, t, hpoll, h⟩ := h
  simp only [lockBuff, cli, sti, update_bind, update_run, Res.ok.injEq, true_and] at hl
  subst hl
  -- locked, and the interrupts up to the look at the flags
  have hlocked : Submits env (.idle, s) (⟨some b, none, none⟩, t) := by
    refine .trans ?_ (poll_submits hpoll)
    refine .head (.time s.clock false) (.head (.lock (b := b) hlock hdev.2.1 hdev.2.2) ?_)
    exact setIntr_submits true
  refine hlocked.trans ?_
  simp only [read_bind, ite_run, update_run] at h
  split at h
  · simp only [Res.ok.injEq] at h
    exact h.2 ▸ .single .giveUp
  rename_i hflags
  simp only [not_or, not_and, Bool.not_eq_true, Bool.not_eq_false'] at hflags
  refine .head (.check rw.plain_cases hflags.1 hflags.2) ?_
  obtain ⟨slot, s₂, hslot, h⟩ := bind_eq_ok.mp h
  obtain ⟨hpath, hfree⟩ := findSlot_submits hslot
  refine hpath.trans ?_
  cases slot with
  | none =>
      simp only [update_run, Res.ok.injEq] at h
      exact h.2 ▸ .single .giveUp
  | some r =>
      simp only [update_bind, bind_eq_ok] at h
      obtain ⟨⟨⟩, s₃, hpoll₂, hadd⟩ := h
      exact .head (.fill (hfree r rfl)) ((poll_submits hpoll₂).trans (addRequest_submits hadd))

end EgGS
