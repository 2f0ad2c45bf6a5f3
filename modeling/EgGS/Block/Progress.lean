import EgGS.Block.Runs

/-!
# Requests come to an end

How many interrupts a request can take.  A good sector resets the errors of a read, and an
error past the third asks for a reset and a recalibration, which can fail in turn.
`Sys.attempts` bounds the interrupts that a request in service can still have: 22 for
every sector after the first, three for every error it may still have, and those of the
reset and the recalibration that are under way.  Every interrupt after which the request
is still in service makes it smaller.

`do_hd_request` goes back to `repeat` only when it has ended a request or counted an
error, so it leaves its loop whatever the queue.
-/

namespace EgGS

open Lib Prog

variable {n : ℕ} {env : Env n} {k : ℕ} {s s' s₀ : Sys n}
variable {sub : Submission n} {r : Fin nrRequest} {q : List (Fin nrRequest)} {m : ℕ}

/-! ## The measure -/

/-- What the errors and the sectors that are left allow the request in slot `r`. -/
def Sys.effort (s : Sys n) (r : Fin nrRequest) : ℕ :=
  ((s.request r).nrSectors - 1) * 22 + (maxErrors - (s.request r).errors) * 3

/-- The commands that come before the next transfer: `WIN_SPECIFY` and `WIN_RESTORE`. -/
def Sys.due (s : Sys n) : ℕ := if s.reset then 2 else if s.recalibrate then 1 else 0

/-- A bound on the interrupts left to the request in slot `r`. -/
def Sys.attempts (s : Sys n) (r : Fin nrRequest) : ℕ :=
  s.effort r + if s.handler = .recalIntr then s.due + 1 else 0

theorem Sys.due_le (s : Sys n) : s.due ≤ 2 := by
  unfold Sys.due
  split_ifs <;> omega

theorem Sys.effort_congr (hreq : ∃ next, s'.request r = { s.request r with next }) :
    s'.effort r = s.effort r := by
  obtain ⟨next, heq⟩ := hreq
  simp only [Sys.effort, heq]

theorem Pool.attempts_le (h : Pool sub s (r :: q)) : s.attempts r ≤ 46 := by
  obtain ⟨b, hb⟩ := h.goodMem (List.mem_cons_self ..)
  have hleft := hb.left
  have hdue := s.due_le
  unfold Sys.attempts Sys.effort maxErrors
  split <;> omega

/-! ## Passes of `do_hd_request` -/

/-- Where `do_hd_request` looks at the queue: the request in slot `r` has ended, or it is in
service and fewer than `m` interrupts are left to it. -/
def Rationed (sub : Submission n) (r : Fin nrRequest) (m : ℕ) (s : Sys n) : Prop :=
  ∃ q, Pool sub s q ∧ (r ∈ q → s.current = some r ∧ s.effort r + s.due < m)

/-- A request that has ended is not in the queue any more. -/
theorem Pool.rationed_ended (ok : Bool) (h : Pool sub s (r :: q))
    (same : SamePool (EgGS.endRequest ok s) s') : Rationed sub r m s' :=
  ⟨q, (h.endRequest ok).congr same, fun hr => absurd hr (List.nodup_cons.mp h.nodup).1⟩

theorem addError_effort (herrors : (s.request r).errors + 1 < maxErrors) :
    (addError r s).effort r + 3 = s.effort r := by
  simp only [addError, Sys.effort, Sys.setRequest_request, Function.update_self]
  omega

/-- A failed transfer ends the request in service or counts an error. -/
theorem Pool.rationed_failed (h : Pool sub s q)
    (hr : r ∈ q → s.current = some r ∧ s.effort r ≤ m) (hf : Failed s s') :
    Rationed sub r m s' := by
  cases hf with
  | null hcur =>
      obtain rfl := h.eq_nil hcur
      exact ⟨[], h.congr (.of_buf rfl rfl rfl), fun hmem => absurd hmem (by simp)⟩
  | @retry r' reset hcur herrors _ =>
      obtain ⟨q, rfl⟩ := h.eq_cons hcur
      refine ⟨_, h.addError.congr (.of_buf rfl rfl rfl), fun hmem => ?_⟩
      obtain ⟨hcur', heffort⟩ := hr hmem
      obtain rfl : r = r' := Option.some.inj (hcur'.symm.trans hcur)
      have hdown : (EgGS.addError r s).effort r + 3 = s.effort r := addError_effort herrors
      have hdue := Sys.due_le { EgGS.addError r s with reset }
      have hsame :
          Sys.effort { EgGS.addError r s with reset } r = (EgGS.addError r s).effort r := rfl
      exact ⟨hcur, by omega⟩
  | @giveUp r' reset j hcur _ _ =>
      obtain ⟨q, rfl⟩ := h.eq_cons hcur
      have hsame : SamePool (EgGS.endRequest false (EgGS.addError r' s))
          { EgGS.endRequest false (EgGS.addError r' s) with
            reset
            log := List.replicate j .nullAccess ++
              (EgGS.endRequest false (EgGS.addError r' s)).log } :=
        .of_buf rfl rfl rfl
      have hq := (h.addError.endRequest false).congr hsame
      refine ⟨q, hq, fun hmem => ?_⟩
      have hcur' := (hr (List.mem_cons_of_mem _ hmem)).1
      obtain rfl : r = r' := Option.some.inj (hcur'.symm.trans hcur)
      exact absurd hmem (List.nodup_cons.mp h.nodup).1

theorem Rationed.again (h : Rationed sub r m s) (hp : Pass env s (.inl ()) s') :
    Rationed sub r m s' := by
  obtain ⟨q, hq, hr⟩ := h
  cases hp with
  | @reject r' hcur _ =>
      obtain ⟨q, rfl⟩ := hq.eq_cons hcur
      refine ⟨q, hq.endRequest false, fun hmem => ?_⟩
      have hcur' := (hr (List.mem_cons_of_mem _ hmem)).1
      obtain rfl : r = r' := Option.some.inj (hcur'.symm.trans hcur)
      exact absurd hmem (List.nodup_cons.mp hq.nodup).1
  | @timeout r' _ _ _ _ _ =>
      have hsent : Pool sub (s.issue (s.transferCommand r' .write) .writeIntr).drop q :=
        hq.congr (.of_buf rfl rfl rfl)
      refine hsent.rationed_failed (fun hmem => ?_) (failed_cases env _)
      obtain ⟨hcur, hless⟩ := hr hmem
      have hsame :
          (s.issue (s.transferCommand r' .write) .writeIntr).drop.effort r = s.effort r := rfl
      exact ⟨hcur, by omega⟩

/-- The command that `do_hd_request` sends leaves fewer than `m` interrupts. -/
theorem Rationed.returns (h : Rationed sub r m s) (hp : Pass env s (.inr ()) s')
    (hcur : s'.current = some r) : s'.attempts r < m := by
  obtain ⟨q, hq, hr⟩ := h
  have hmem : s.current = some r → s.effort r + s.due < m := by
    intro hcur
    obtain ⟨q, rfl⟩ := hq.eq_cons hcur
    exact (hr (List.mem_cons_self ..)).2
  cases hp with
  | idle hnone => exact absurd (hnone.symm.trans hcur) (by simp)
  | @reset r' c _ hreset _ =>
      have hless := hmem hcur
      have hdue : s.due = 2 := by simp [Sys.due, hreset]
      have hattempts : Sys.attempts (Sys.issue { s with reset := false, recalibrate := true } c
          .recalIntr) r = s.effort r + 2 := by
        simp [Sys.attempts, Sys.due, Sys.effort]
      omega
  | @recalibrate r' c _ hreset hrecal _ =>
      have hless := hmem hcur
      have hdue : s.due = 1 := by simp [Sys.due, hreset, hrecal]
      have hattempts : Sys.attempts (Sys.issue { s with recalibrate := false } c .recalIntr) r =
          s.effort r + 1 := by
        simp [Sys.attempts, Sys.due, Sys.effort, hreset]
      omega
  | @read r' _ _ _ _ =>
      have hless := hmem hcur
      have hattempts :
          (s.issue (s.transferCommand r' .read) .readIntr).attempts r = s.effort r := by
        simp [Sys.attempts, Sys.effort]
      omega
  | @write r' _ _ _ _ _ =>
      have hless := hmem (by simpa using hcur)
      have hattempts : (portWrite (s.request r').buffer
          (s.issue (s.transferCommand r' .write) .writeIntr)).attempts r = s.effort r := by
        cases (s.request r').buffer <;> simp [portWrite, Sys.attempts, Sys.effort]
      omega

/-! ## Interrupts -/

theorem Pooled.rationed {ok : Bool} (h : Pooled sub s)
    (hcur : s.current = some r) (hh : Handled env ok s true s') :
    Rationed sub r (s.attempts r) s' := by
  obtain ⟨q, hq⟩ := h
  obtain ⟨q, rfl⟩ := hq.eq_cons hcur
  have hq' : Pool sub (s.answer ok) (r :: q) := hq.congr (.of_buf rfl rfl rfl)
  have heffort : (s.answer ok).effort r = s.effort r := rfl
  cases hh with
  | fail _ _ =>
      refine hq'.rationed_failed (fun _ => ⟨hcur, ?_⟩) (failed_cases env _)
      rw [heffort]
      exact Nat.le_add_right _ _
  | recal _ hrecal =>
      refine ⟨_, hq', fun _ => ⟨hcur, ?_⟩⟩
      have hdue : (s.answer ok).due = s.due := rfl
      simp only [Sys.attempts, hrecal, if_true]
      omega
  | @readLast r' _ _ hcur' _ =>
      obtain rfl : r = r' := Option.some.inj (hcur.symm.trans hcur')
      exact hq'.rationed_ended true hq'.readLast_same
  | @writeLast r' _ _ hcur' _ =>
      obtain rfl : r = r' := Option.some.inj (hcur.symm.trans hcur')
      exact hq'.rationed_ended true hq'.writeLast_same

/-- A sector that is not the last one, after which the command goes on. -/
theorem Serving.sector_attempts {ok : Bool} (h : Serving sub s) (hout : s.ctl.outstanding = true)
    (hcur : s.current = some r) (hh : Handled env ok s false s') :
    s'.attempts r < s.attempts r := by
  obtain ⟨r₀, b, q, hq, hb, hserve⟩ := h.command hout
  obtain rfl : r = r₀ := Option.some.inj (hcur.symm.trans hq.chain.1)
  cases hh with
  | unhandled hnone => exact absurd hnone hserve.handled
  | nullRead _ _ hnull => exact absurd (hcur.symm.trans hnull) (by simp)
  | nullWrite _ _ hnull => exact absurd (hcur.symm.trans hnull) (by simp)
  | @readMore r' _ hread hcur' hmore =>
      obtain rfl : r = r' := Option.some.inj (hcur.symm.trans hcur')
      have htwo := two_of_more hb hmore
      have hafter :
          Sys.attempts { readSector r (s.answer ok) with handler := .readIntr } r = 21 := by
        simp [Sys.attempts, Sys.effort, readSector, htwo, oneLess, maxErrors]
      rw [hafter, Sys.attempts, Sys.effort, htwo]
      omega
  | @writeMore r' _ hwrite hcur' hmore =>
      obtain rfl : r = r' := Option.some.inj (hcur.symm.trans hcur')
      have htwo := two_of_more hb hmore
      have hhandler : (writeNext r (s.answer ok)).handler = .writeIntr := by
        simp only [writeNext]
        cases (((countSector r
          (s.answer ok)).setRequest r Request.advance).request r).buffer <;> rfl
      have hafter : (writeNext r (s.answer ok)).effort r =
        (maxErrors - (s.request r).errors) * 3 := by
        simp [Sys.effort, writeNext, countSector, Request.advance, htwo, oneLess]
      rw [Sys.attempts, hafter, hhandler, Sys.attempts, Sys.effort, htwo]
      simp only [reduceCtorEq, if_false]
      omega

/-- **The step.**  An interrupt after which the request is still in service leaves it
fewer interrupts. -/
theorem Serving.interrupt_attempts {i : Irq} (h : Serving sub s) (hout : s.ctl.outstanding = true)
    (hcur : s.current = some r) (hint : hdInterrupt i env k s = .ok () s')
    (hcur' : s'.current = some r) : s'.attempts r < s.attempts r := by
  rcases hdInterrupt_handled hint with hh | ⟨t, hh, hdo⟩
  · exact h.sector_attempts hout hcur hh
  · exact doHdRequest_ensures (I := Rationed sub r (s.attempts r))
      (Q := fun t => t.current = some r → t.attempts r < s.attempts r)
      (fun hI hp => hI.again hp) (fun hI hp => hI.returns hp) (h.pooled.rationed hcur hh) hdo hcur'

/-! ## Runs with one request in service -/

/-- The hardware of `env` without its interrupts. -/
def Env.silent (env : Env n) : Env n := { env with irq := fun _ => none }

/-- The request in slot `r` stays in service from `x` on, while `j` interrupts are handled
and the rest of the kernel goes on. -/
inductive Attended (env : Env n) (r : Fin nrRequest) (x : Submission n × Sys n) :
    ℕ → Submission n × Sys n → Prop
  | start : x.2.current = some r → Attended env r x 0 x
  | interrupt {j k : ℕ} {sub : Submission n} {s s' : Sys n} {i : Irq} :
      Attended env r x j (sub, s) → env.irq s = some i → hdInterrupt i env k s = .ok () s' →
      s'.current = some r → Attended env r x (j + 1) (sub, s')
  | other {j : ℕ} {y z : Submission n × Sys n} : Attended env r x j y →
      Submit env.silent y z → Attended env r x j z
  | elsewhere {j : ℕ} {s s' : Sys n} : Attended env r x j (.idle, s) → Elsewhere s s' →
      Attended env r x j (.idle, s')

theorem Attended.current {x y : Submission n × Sys n} {j : ℕ} (h : Attended env r x j y) :
    x.2.current = some r := by
  induction h with
  | start hcur => exact hcur
  | interrupt _ _ _ _ ih => exact ih
  | other _ _ ih => exact ih
  | elsewhere _ _ ih => exact ih

/-- Without an interrupt the request in service stays where it is. -/
theorem Pooled.silent_attempts {x y : Submission n × Sys n} (h : Pooled x.1 x.2)
    (hcur : x.2.current = some r) (hstep : Submit env.silent x y) :
    y.2.current = some r ∧ y.2.attempts r = x.2.attempts r := by
  cases hstep with
  | time _ _ => exact ⟨hcur, rfl⟩
  | interrupt hirq _ => exact absurd hirq (by simp [Env.silent])
  | lock _ _ _ => exact ⟨hcur, rfl⟩
  | check _ _ _ => exact ⟨hcur, rfl⟩
  | giveUp => exact ⟨hcur, rfl⟩
  | @fill s b rw r' hfree =>
      obtain ⟨q, hq⟩ := h
      obtain ⟨q, rfl⟩ := hq.eq_cons hcur
      have hused : 0 ≤ (s.request r).dev := (hq.slots r).mpr (.inl (List.mem_cons_self ..))
      have hdev := (freeSlot_eq_some hfree).2
      have hne : r ≠ r' := by
        rintro rfl
        omega
      refine ⟨hcur, ?_⟩
      simp [Sys.attempts, Sys.effort, Sys.due, hne]
  | start hnone _ => exact absurd (hnone.symm.trans hcur) (by simp)
  | @queue s buf cmd r' head tmp _ _ _ _ =>
      have hflags : (((s.offer r').linkBehind tmp r').setIntr true).handler = s.handler ∧
          (((s.offer r').linkBehind tmp r').setIntr true).due = s.due := by
        unfold Sys.linkBehind Sys.offer Sys.clean
        split <;> exact ⟨rfl, rfl⟩
      obtain ⟨next, hnext⟩ := (s.offer r').linkBehind_next tmp r' r
      obtain ⟨next', hnext'⟩ := s.offer_next r' r
      have heffort : (((s.offer r').linkBehind tmp r').setIntr true).effort r = s.effort r :=
        Sys.effort_congr ⟨next, by rw [Sys.setIntr_request, hnext, hnext']⟩
      refine ⟨by simpa [Sys.linkBehind] using hcur, ?_⟩
      simp only [Sys.attempts, heffort, hflags]

/-- **The run.**  The interrupts handled so far and those that are left. -/
theorem Attended.attempts {x y : Submission n × Sys n} {j : ℕ} (henv : env.Answers)
    (hserving : Serving x.1 x.2) (h : Attended env r x j y) :
    Serving y.1 y.2 ∧ y.2.current = some r ∧ j + y.2.attempts r ≤ x.2.attempts r := by
  induction h with
  | start hcur => exact ⟨hserving, hcur, by omega⟩
  | interrupt _ hirq hint hcur' ih =>
      obtain ⟨hserving', hcur, hle⟩ := ih
      have hout := henv _ _ hirq
      have hless := hserving'.interrupt_attempts hout hcur hint hcur'
      refine ⟨hserving'.interrupt hout hint, hcur', ?_⟩
      simp only at hle hless ⊢
      omega
  | other _ hstep ih =>
      obtain ⟨hserving', hcur, hle⟩ := ih
      obtain ⟨hcur', heq⟩ := hserving'.pooled.silent_attempts hcur hstep
      have hsilent : env.silent.Answers := fun s i hirq => absurd hirq (by simp [Env.silent])
      exact ⟨(hserving'.submit hsilent hstep).1, hcur', heq ▸ hle⟩
  | @elsewhere j s s' _ helse ih =>
      obtain ⟨hserving', hcur, hle⟩ := ih
      refine ⟨hserving'.elsewhere helse, helse.current.trans hcur, ?_⟩
      have heq : s'.attempts r = s.attempts r := by
        simp only [Sys.attempts, Sys.effort, Sys.due, helse.request, helse.handler, helse.reset,
          helse.recalibrate]
      simp only at hle ⊢
      omega

/-! ## The loop of `do_hd_request` -/

/-- The queue of the hard disk is the finite list `q`. -/
abbrev Sys.Queue (s : Sys n) (q : List (Fin nrRequest)) : Prop :=
  Chain (fun r => (s.request r).next) s.current q

/-- The rank of a pass: the queue, and the errors the request in service may still have. -/
def Sys.rank (s : Sys n) (q : List (Fin nrRequest)) : ℕ :=
  8 * q.length + match s.current with
    | none => 0
    | some r => maxErrors - (s.request r).errors

theorem Sys.rank_le (s : Sys n) (q : List (Fin nrRequest)) : s.rank q ≤ 8 * q.length + 7 := by
  unfold Sys.rank maxErrors
  split <;> omega

theorem Sys.Queue.endRequest (h : s.Queue (r :: q)) (ok : Bool) :
    (EgGS.endRequest ok s).Queue q := by
  have hcur : s.current = some r := h.1
  have hafter : (EgGS.endRequest ok s).current = (s.request r).next ∧
      ∀ x, ((EgGS.endRequest ok s).request x).next = (s.request x).next := by
    unfold EgGS.endRequest
    simp only [hcur]
    split <;> refine ⟨rfl, fun x => ?_⟩ <;> by_cases hx : x = r <;> simp [unlockBuff, hx]
  rw [Sys.Queue, hafter.1]
  exact h.2.congr fun x _ => hafter.2 x

/-- A failed transfer ends a request or counts an error. -/
theorem Failed.rank {s t s' : Sys n} (hf : Failed t s') (hcur : s.current = some r)
    (htcur : t.current = s.current) (htreq : t.request = s.request) (h : s.Queue (r :: q)) :
    ∃ q', s'.Queue q' ∧ s'.rank q' < s.rank (r :: q) := by
  have ht : t.Queue (r :: q) := by
    rw [Sys.Queue, htcur, htreq]
    exact h
  cases hf with
  | null hnone => exact absurd (hnone.symm.trans (htcur.trans hcur)) (by simp)
  | @retry r' reset hcur' herrors _ =>
      obtain rfl : r = r' := Option.some.inj (ht.1.symm.trans hcur')
      refine ⟨r :: q, ?_, ?_⟩
      · refine ht.congr fun x _ => ?_
        by_cases hx : x = r <;> simp [addError, hx]
      · rw [htreq] at herrors
        simp only [Sys.rank, addError, Sys.setRequest_current, Sys.setRequest_request, htcur, hcur,
          htreq, Function.update_self]
        omega
  | @giveUp r' reset j hcur' _ _ =>
      obtain rfl : r = r' := Option.some.inj (ht.1.symm.trans hcur')
      have hcount : (addError r t).Queue (r :: q) := by
        refine ht.congr fun x _ => ?_
        by_cases hx : x = r <;> simp [addError, hx]
      refine ⟨q, hcount.endRequest false, ?_⟩
      have hle := Sys.rank_le { endRequest false (addError r t) with
        reset, log := List.replicate j .nullAccess ++ (endRequest false (addError r t)).log } q
      have hge : 8 * (q.length + 1) ≤ s.rank (r :: q) := Nat.le_add_right _ _
      omega

theorem Pass.rank (h : s.Queue q) (hp : Pass env s (.inl ()) s') :
    ∃ q', s'.Queue q' ∧ s'.rank q' < s.rank q := by
  cases hp with
  | @reject r hcur _ =>
      cases q with
      | nil => exact absurd (hcur.symm.trans h) (by simp)
      | cons r' q =>
          refine ⟨q, h.endRequest false, ?_⟩
          have hle := (endRequest false s).rank_le q
          have hge : 8 * (q.length + 1) ≤ s.rank (r' :: q) := Nat.le_add_right _ _
          omega
  | @timeout r served _ _ _ _ =>
      cases q with
      | nil => exact absurd (served.current.symm.trans h) (by simp)
      | cons r' q =>
          obtain rfl : r = r' := Option.some.inj (served.current.symm.trans h.1)
          exact (failed_cases env _).rank served.current rfl rfl h

theorem hdOut_settles (c : Command) (handler : Handler) : Settles (hdOut c handler) env s := by
  unfold hdOut
  refine Settles.ite (fun _ => Settles.halt (by simp) env s) fun _ => ?_
  refine Settles.bind (Settles.of_ok fun _ => ask_run ..) fun _ ready s' _ => ?_
  exact Settles.ite (fun _ => Settles.of_ok fun _ => rfl) fun _ => Settles.halt (by simp) env s'

/-- A pass has no loop of its own. -/
theorem hdRequestPass_settles : Settles hdRequestPass env s := by
  have hdone : ∀ (x : Unit ⊕ Unit) (t : Sys n), Settles (pure x : P n (Unit ⊕ Unit)) env t :=
    fun _ _ => Settles.of_ok fun _ => rfl
  have hout : ∀ (c : Command) (handler : Handler) (t : Sys n),
      Settles (hdOut c handler >>= fun _ => (pure (.inr ()) : P n (Unit ⊕ Unit))) env t :=
    fun c handler t => (hdOut_settles c handler).bind fun _ _ t' _ => hdone _ t'
  unfold hdRequestPass
  refine Settles.bind (Settles.of_ok fun _ => read_run ..) fun _ t t' ht => ?_
  simp only [read_run, Res.ok.injEq] at ht
  obtain ⟨rfl, rfl⟩ := ht
  cases hcur : s.current with
  | none => exact hdone _ s
  | some r =>
      refine Settles.ite (fun _ => Settles.halt (by simp) env s) fun _ => ?_
      refine Settles.ite (fun _ => Settles.halt (by simp) env s) fun _ => ?_
      refine Settles.ite (fun _ => ?_) fun _ => ?_
      · exact Settles.bind (Settles.of_ok fun _ => update_run ..) fun _ _ t' _ => hdone _ t'
      refine Settles.ite (fun _ => Settles.halt (by simp) env s) fun _ => ?_
      refine Settles.ite (fun _ => ?_) fun _ => ?_
      · refine Settles.bind (Settles.of_ok fun _ => update_run ..) fun _ _ t' _ => ?_
        refine Settles.bind ?_ fun _ _ t'' _ => hdone _ t''
        exact Settles.bind (Settles.of_ok fun _ => read_run ..) fun _ _ t'' _ => hdOut_settles _ _
      refine Settles.ite (fun _ => ?_) fun _ => ?_
      · exact Settles.bind (Settles.of_ok fun _ => update_run ..) fun _ _ t' _ => hout _ _ t'
      refine Settles.ite (fun _ => ?_) fun _ => ?_
      · refine (hdOut_settles _ _).bind fun _ _ t' _ => ?_
        refine Settles.bind (Settles.of_ok fun _ => ask_run ..) fun _ drq t'' _ => ?_
        refine Settles.ite (fun _ => ?_) fun _ => ?_
        · exact Settles.bind (Settles.of_ok fun _ => update_run ..) fun _ _ u _ => hdone _ u
        · refine Settles.bind (Settles.of_ok fun _ => update_run ..) fun _ _ u _ => ?_
          exact Settles.bind (Settles.of_ok fun _ => failed_run) fun _ _ u' _ => hdone _ u'
      · exact Settles.ite (fun _ => hout _ _ s) fun _ => Settles.halt (by simp) env s

/-- **`do_hd_request` leaves its loop**, whatever is in the queue. -/
theorem doHdRequest_settles (h : s.Queue q) : Settles doHdRequest env s := by
  refine iterate_settles (I := fun d _ t => ∃ q, t.Queue q ∧ t.rank q = d)
    (fun _ _ _ _ => hdRequestPass_settles) ?_ ⟨q, h, rfl⟩
  rintro d ⟨⟩ t ⟨⟩ t' k ⟨q, hq, rfl⟩ hbody
  obtain ⟨q', hq', hlt⟩ := (hdRequestPass_pass hbody).rank hq
  exact ⟨t'.rank q', hlt, q', hq', rfl⟩

/-! ## No request is retried for ever -/

/-- **Requests come to an end.**  While a request stays in service at most 64 interrupts
are handled, and every call of `do_hd_request` leaves its loop. -/
theorem requests_progress (hquiet : s₀.Quiet) (henv : env.Answers) :
    (∀ x y r j, Reached env (fun _ _ => True) s₀ x → Attended env r x j y → j ≤ 64) ∧
      ∀ s q, Sys.Queue s q → Settles doHdRequest env s := by
  refine ⟨fun x y r j hreached h => ?_, fun s q hq => doHdRequest_settles hq⟩
  have hserving := hreached.serving hquiet henv
  obtain ⟨-, -, hle⟩ := h.attempts henv hserving
  obtain ⟨q, hq⟩ := hserving.pooled
  obtain ⟨q, rfl⟩ := hq.eq_cons h.current
  have hbound := hq.attempts_le
  omega

/-- A controller that never succeeds. -/
theorem requests_progress_retry : ¬ ∃ x y r j,
    Reached (Env.diligent 0x51) (fun _ _ => True) oneBuffer x ∧
      Attended (Env.diligent 0x51) r x j y ∧ 64 < j :=
  fun ⟨x, y, r, j, hreached, hattended, hj⟩ => absurd
    ((requests_progress oneBuffer_quiet (diligent_answers 0x51)).1 x y r j hreached hattended)
    (not_le.mpr hj)

end EgGS
