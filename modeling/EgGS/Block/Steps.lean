import EgGS.Model.Blk
import Mathlib.Logic.Relation

/-!
# What an interrupt can do

Inversion of the driver: `Pass` lists what one pass of `do_hd_request` can do
and `Handled` what an interrupt handler does before it calls `do_hd_request`.
Every invariant of the driver is proved by cases on these two, never by
unfolding the functions again.
-/

namespace EgGS

open Lib Prog

variable {n : ℕ} {env : Env n} {k : ℕ} {s s' : Sys n}

/-! ## Data phases -/

section DataPhases

variable (ptr : Option (BufPtr n)) (s : Sys n)

@[simp] theorem portRead_request : (portRead ptr s).request = s.request := by
  cases ptr <;> rfl

@[simp] theorem portRead_current : (portRead ptr s).current = s.current := by
  cases ptr <;> rfl

@[simp] theorem portRead_disk : (portRead ptr s).disk = s.disk := by
  cases ptr <;> rfl

@[simp] theorem portRead_geo : (portRead ptr s).geo = s.geo := by
  cases ptr <;> rfl

theorem portRead_head (b : Fin n) :
    ((portRead ptr s).buf b) = { s.buf b with bData := ((portRead ptr s).buf b).bData } := by
  cases ptr with
  | none => rfl
  | some p =>
      by_cases hb : b = p.bh
      · subst hb; simp [portRead]
      · simp [portRead, hb]

@[simp] theorem portWrite_request : (portWrite ptr s).request = s.request := by
  cases ptr <;> rfl

@[simp] theorem portWrite_current : (portWrite ptr s).current = s.current := by
  cases ptr <;> rfl

@[simp] theorem portWrite_buf : (portWrite ptr s).buf = s.buf := by
  cases ptr <;> rfl

end DataPhases

/-! ## Passes of `do_hd_request` -/

/-- A request that gets as far as the controller. -/
structure Served (s : Sys n) (r : Fin nrRequest) : Prop where
  current : s.current = some r
  major : major (unsigned (s.request r).dev) = 3
  inRange : outOfPartition s.geo (unsigned (s.request r).dev) (s.request r).sector = false

/-- One pass of `do_hd_request`; `inl` goes back to `repeat`. -/
inductive Pass (env : Env n) (s : Sys n) : Unit ⊕ Unit → Sys n → Prop
  | idle : s.current = none → Pass env s (.inr ()) s
  | reject {r : Fin nrRequest} : s.current = some r →
      outOfPartition s.geo (unsigned (s.request r).dev) (s.request r).sector = true →
      Pass env s (.inl ()) (endRequest false s)
  | reset {r : Fin nrRequest} {c : Command} : Served s r → s.reset = true → c.cmd = .specify →
      Pass env s (.inr ()) (Sys.issue { s with reset := false, recalibrate := true } c .recalIntr)
  | recalibrate {r : Fin nrRequest} {c : Command} : Served s r → s.reset = false →
      s.recalibrate = true → c.cmd = .restore →
      Pass env s (.inr ()) (Sys.issue { s with recalibrate := false } c .recalIntr)
  | read {r : Fin nrRequest} : Served s r → s.reset = false → s.recalibrate = false →
      (s.request r).cmd = .read →
      Pass env s (.inr ()) (s.issue (s.transferCommand r .read) .readIntr)
  | write {r : Fin nrRequest} : Served s r → s.reset = false → s.recalibrate = false →
      (s.request r).cmd = .write →
      env.drq (s.issue (s.transferCommand r .write) .writeIntr) = true →
      Pass env s (.inr ())
        (portWrite (s.request r).buffer (s.issue (s.transferCommand r .write) .writeIntr))
  | timeout {r : Fin nrRequest} : Served s r → s.reset = false → s.recalibrate = false →
      (s.request r).cmd = .write →
      env.drq (s.issue (s.transferCommand r .write) .writeIntr) = false →
      Pass env s (.inl ())
        (printCurrent (badRwIntr env (s.issue (s.transferCommand r .write) .writeIntr).drop))

theorem hdOut_eq_ok {c : Command} {h : Handler} {u : Unit} :
    hdOut c h env k s = .ok u s' ↔
      ¬ (c.drive > 1 ∨ c.head > 15) ∧ env.ready s = true ∧ s' = s.issue c h := by
  unfold hdOut
  by_cases hc : c.drive > 1 ∨ c.head > 15
  · simp [hc, panic]
  · by_cases hr : env.ready s = true
    · simp [hc, hr, eq_comm]
    · simp [hc, hr, panic]

@[simp] theorem failed_run :
    failed env k s = .ok () (printCurrent (badRwIntr env s)) := rfl

theorem failed_bind {α : Type} (f : Unit → P n α) :
    (failed >>= f) env k s = f () env k (printCurrent (badRwIntr env s)) := rfl

theorem hdRequestPass_pass {x : Unit ⊕ Unit} (h : hdRequestPass env k s = .ok x s') :
    Pass env s x s' := by
  -- along the tests of the function, in the order of the source; a test that panics returns nothing
  unfold hdRequestPass at h
  rw [read_bind] at h
  cases hcur : s.current with
  | none =>
      simp only [hcur, pure_run, Res.ok.injEq] at h
      obtain ⟨rfl, rfl⟩ := h
      exact .idle hcur
  | some r =>
      simp only [hcur, ite_run] at h
      split at h
      · simp [panic] at h
      rename_i hmajor
      split at h
      · simp [panic] at h
      split at h
      · rename_i hout
        simp only [update_bind, pure_run, Res.ok.injEq] at h
        obtain ⟨rfl, rfl⟩ := h
        exact .reject hcur hout
      rename_i hin
      split at h
      · simp at h
      -- past the tests: what is in service is a request for the hard disk inside its partition
      have served : Served s r := ⟨hcur, not_not.mp hmajor, by simpa using hin⟩
      split at h
      · rename_i hreset
        simp only [update_bind, resetController, read_bind, bind_eq_ok, hdOut_eq_ok, pure_run,
          Res.ok.injEq] at h
        obtain ⟨-, s₁, ⟨-, -, rfl⟩, rfl, rfl⟩ := h
        exact .reset served hreset rfl
      rename_i hreset
      split at h
      · rename_i hrecal
        simp only [update_bind, bind_eq_ok, hdOut_eq_ok, pure_run, Res.ok.injEq] at h
        obtain ⟨-, s₁, ⟨-, -, rfl⟩, rfl, rfl⟩ := h
        exact .recalibrate served (by simpa using hreset) hrecal rfl
      rename_i hrecal
      replace hreset : s.reset = false := by simpa using hreset
      replace hrecal : s.recalibrate = false := by simpa using hrecal
      split at h
      · -- a `WRITE` waits for DRQ, which may not come
        rename_i hwrite
        simp only [bind_eq_ok, hdOut_eq_ok] at h
        obtain ⟨-, s₁, ⟨-, -, rfl⟩, h⟩ := h
        obtain ⟨drq, s₂, hdrq, h⟩ := h
        simp only [ask_run, Res.ok.injEq] at hdrq
        obtain ⟨rfl, rfl⟩ := hdrq
        split at h
        · rename_i hdrq
          simp only [update_bind, pure_run, Res.ok.injEq] at h
          obtain ⟨rfl, rfl⟩ := h
          exact .write served hreset hrecal hwrite hdrq
        · rename_i hdrq
          simp only [update_bind, failed_bind, pure_run, Res.ok.injEq] at h
          obtain ⟨rfl, rfl⟩ := h
          exact .timeout served hreset hrecal hwrite (by simpa using hdrq)
      · split at h
        · rename_i hread
          simp only [bind_eq_ok, hdOut_eq_ok, pure_run, Res.ok.injEq] at h
          obtain ⟨-, s₁, ⟨-, -, rfl⟩, rfl, rfl⟩ := h
          exact .read served hreset hrecal hread
        · simp [panic] at h

/-! ## Ending and failing a request -/

theorem endRequest_eq {r : Fin nrRequest} {b : Fin n} (uptodate : Bool)
    (hcur : s.current = some r) (hbh : (s.request r).bh = some b) :
    endRequest uptodate s =
      ((s.setBuf b fun bh => { bh with bUptodate := uptodate, bLock := false }).dequeue r).note
        (.ended b (s.request r).cmd uptodate (s.buf b).bData
          (s.diskBlock (s.buf b).bDev (s.buf b).bBlocknr)) := by
  simp only [endRequest, hcur, hbh, unlockBuff, Sys.setBuf, Function.update_self,
    Function.update_idem, Sys.diskBlock]

/-- One more error of the request in slot `r`. -/
def addError (r : Fin nrRequest) (s : Sys n) : Sys n :=
  s.setRequest r fun req => { req with errors := req.errors + 1 }

/-- What a failed transfer can do: nothing is in service, the request will be
tried again, or it is ended as failed.  Afterwards the code looks at
`CURRENT_REQUEST` again, whether there is one or not. -/
inductive Failed (s : Sys n) : Sys n → Prop
  | null {reset : Bool} {j : ℕ} : s.current = none →
      Failed s { s with reset, log := List.replicate (j + 1) .nullAccess ++ s.log }
  | retry {r : Fin nrRequest} {reset : Bool} : s.current = some r →
      (s.request r).errors + 1 < maxErrors →
      (maxErrors / 2 < (s.request r).errors + 1 → reset = true) →
      Failed s { addError r s with reset }
  | giveUp {r : Fin nrRequest} {reset : Bool} {j : ℕ} : s.current = some r →
      maxErrors ≤ (s.request r).errors + 1 →
      (j = 0 ↔ (endRequest false (addError r s)).current ≠ none) →
      Failed s { endRequest false (addError r s) with
        reset, log := List.replicate j .nullAccess ++ (endRequest false (addError r s)).log }

/-- The last line of `bad_rw_intr` and the message after it look at
`CURRENT_REQUEST` and may ask for a reset. -/
private theorem printCurrent_checkReset (env : Env n) (t : Sys n) : ∃ reset j,
    printCurrent (checkReset env t) =
      { t with reset, log := List.replicate j .nullAccess ++ t.log } ∧
    (j = 0 ↔ t.current ≠ none) ∧
    ∀ r, t.current = some r → maxErrors / 2 < (t.request r).errors → reset = true := by
  rcases Option.eq_none_or_eq_some t.current with hcur | ⟨r, hcur⟩
  · simp only [checkReset, currentErrors, hcur]
    split
    · exact ⟨true, 2, by simp [printCurrent, hcur, Sys.note, List.replicate], by simp, by simp⟩
    · exact ⟨t.reset, 2, by simp [printCurrent, hcur, Sys.note, List.replicate], by simp, by simp⟩
  · have herrors : currentErrors env t = (t, (t.request r).errors) := by
      simp [currentErrors, hcur]
    have hprint : ∀ u : Sys n, u.current = some r → printCurrent u = u := by
      intro u hu
      simp [printCurrent, hu]
    simp only [checkReset, herrors]
    split
    · exact ⟨true, 0, hprint _ hcur, by simp [hcur], by simp⟩
    · rename_i hfew
      refine ⟨t.reset, 0, hprint _ hcur, by simp [hcur], fun r' hr' hmany => ?_⟩
      obtain rfl : r = r' := Option.some.inj (hcur.symm.trans hr')
      exact absurd hmany hfew

theorem failed_cases (env : Env n) (s : Sys n) : Failed s (printCurrent (badRwIntr env s)) := by
  cases hcur : s.current with
  | none =>
      have hcount : countError env s = (s.note .nullAccess, env.nullErrors s + 1) := by
        simp [countError, hcur]
      obtain ⟨i, ht⟩ : ∃ i, (if maxErrors ≤ env.nullErrors s + 1
          then endRequest false (s.note .nullAccess) else s.note .nullAccess) =
          { s with log := List.replicate (i + 1) .nullAccess ++ s.log } := by
        split
        · exact ⟨1, by simp [endRequest, hcur, Sys.note, List.replicate]⟩
        · exact ⟨0, by simp [Sys.note]⟩
      obtain ⟨reset, j, heq, -, -⟩ := printCurrent_checkReset env
        { s with log := List.replicate (i + 1) .nullAccess ++ s.log }
      simp only [badRwIntr, hcount, ge_iff_le, ht, heq]
      rw [← List.append_assoc, List.replicate_append_replicate, ← Nat.add_assoc]
      exact .null hcur
  | some r =>
      have hcount : countError env s = (addError r s, (s.request r).errors + 1) := by
        simp [countError, hcur, addError]
      have hcur' : (addError r s).current = some r := by simpa [addError] using hcur
      by_cases hmax : maxErrors ≤ (s.request r).errors + 1
      · obtain ⟨reset, j, heq, hj, -⟩ := printCurrent_checkReset env
          (endRequest false (addError r s))
        simp only [badRwIntr, hcount, ge_iff_le, if_pos hmax, heq]
        exact .giveUp hcur hmax hj
      · obtain ⟨reset, j, heq, hj, hreset⟩ := printCurrent_checkReset env (addError r s)
        obtain rfl : j = 0 := hj.mpr (by simp [hcur'])
        simp only [badRwIntr, hcount, ge_iff_le, if_neg hmax, heq]
        exact .retry hcur (not_le.mp hmax) (by simpa [addError] using hreset r hcur')

/-- **The request loop.**  What every pass keeps when it repeats, and gives when
it returns, `do_hd_request` gives. -/
theorem doHdRequest_ensures {I Q : Sys n → Prop}
    (hnext : ∀ {s s'}, I s → Pass env s (.inl ()) s' → I s')
    (hexit : ∀ {s s'}, I s → Pass env s (.inr ()) s' → Q s')
    (hI : I s) (h : doHdRequest env k s = .ok () s') : Q s' :=
  iterate_ensures (I := fun _ => I) (Q := fun _ => Q)
    (fun _ _ _ _ hI hb => hnext hI (hdRequestPass_pass hb))
    (fun _ _ _ _ hI hb => hexit hI (hdRequestPass_pass hb)) hI h

/-! ## Handlers -/

/-- The answer of the controller reaches its own state. -/
@[simps] def Sys.answer (s : Sys n) (ok : Bool) : Sys n := { s with ctl := s.ctl.answer ok }

/-- `read_intr` took over a sector. -/
def readSector (r : Fin nrRequest) (s : Sys n) : Sys n :=
  (portRead (s.request r).buffer s).setRequest r fun req =>
    { req.advance with errors := 0, nrSectors := oneLess req.nrSectors }

/-- `write_intr` counts a sector that was written. -/
def countSector (r : Fin nrRequest) (s : Sys n) : Sys n :=
  s.setRequest r fun req => { req with nrSectors := oneLess req.nrSectors }

/-- `write_intr` goes on to the next sector. -/
def writeNext (r : Fin nrRequest) (s : Sys n) : Sys n :=
  let s := { (countSector r s).setRequest r Request.advance with handler := .writeIntr }
  portWrite (s.request r).buffer s

/-- An interrupt up to the call of `do_hd_request`, and whether there is one. -/
inductive Handled (env : Env n) (ok : Bool) (s : Sys n) : Bool → Sys n → Prop
  | unhandled : s.handler = .none → Handled env ok s false (s.answer ok)
  | fail : ok = false → s.handler ≠ .none →
      Handled env ok s true (printCurrent (badRwIntr env (s.answer ok)))
  | recal : ok = true → s.handler = .recalIntr → Handled env ok s true (s.answer ok)
  | nullRead : ok = true → s.handler = .readIntr → s.current = none →
      Handled env ok s false ((s.answer ok).note .nullAccess)
  | nullWrite : ok = true → s.handler = .writeIntr → s.current = none →
      Handled env ok s false ((s.answer ok).note .nullAccess)
  | readMore {r : Fin nrRequest} : ok = true → s.handler = .readIntr → s.current = some r →
      oneLess (s.request r).nrSectors ≠ 0 →
      Handled env ok s false { readSector r (s.answer ok) with handler := .readIntr }
  | readLast {r : Fin nrRequest} : ok = true → s.handler = .readIntr → s.current = some r →
      oneLess (s.request r).nrSectors = 0 →
      Handled env ok s true (endRequest true (readSector r (s.answer ok)))
  | writeMore {r : Fin nrRequest} : ok = true → s.handler = .writeIntr → s.current = some r →
      oneLess (s.request r).nrSectors ≠ 0 →
      Handled env ok s false (writeNext r (s.answer ok))
  | writeLast {r : Fin nrRequest} : ok = true → s.handler = .writeIntr → s.current = some r →
      oneLess (s.request r).nrSectors = 0 →
      Handled env ok s true (endRequest true (countSector r (s.answer ok)))

/-- **What an interrupt runs**: a `Handled` step, and then `do_hd_request` if that is called. -/
theorem hdInterrupt_run (i : Irq) (env : Env n) (s : Sys n) :
    (∃ s₁, Handled env (winResult i.status) s false s₁ ∧ ∀ k, hdInterrupt i env k s = .ok () s₁) ∨
      ∃ s₁, Handled env (winResult i.status) s true s₁ ∧
        ∀ k, hdInterrupt i env k s = doHdRequest env k s₁ := by
  unfold hdInterrupt
  simp only [update_bind, read_bind]
  have hanswer : ({ s with ctl := s.ctl.answer (winResult i.status) } : Sys n) =
      s.answer (winResult i.status) := rfl
  rw [hanswer]
  generalize winResult i.status = ok
  -- by the handler that is installed, then by the status; a handler that ends its request or
  -- sees a failure goes on with `do_hd_request`
  cases hh : s.handler with
  | none =>
      left
      exact ⟨_, .unhandled hh, fun k => by simp⟩
  | recalIntr =>
      right
      cases ok with
      | true => exact ⟨_, .recal rfl hh, fun k => by simp [recalIntr]⟩
      | false => exact ⟨_, .fail rfl (by simp [hh]), fun k => by simp [recalIntr, failed_bind]⟩
  | readIntr =>
      cases ok with
      | false =>
          right
          exact ⟨_, .fail rfl (by simp [hh]), fun k => by simp [readIntr, failed_bind]⟩
      | true =>
          cases hcur : s.current with
          | none =>
              left
              exact ⟨_, .nullRead rfl hh hcur, fun k => by simp [readIntr, hcur]⟩
          | some r =>
              by_cases hleft : oneLess (s.request r).nrSectors = 0
              · right
                exact ⟨_, .readLast rfl hh hcur hleft, fun k => by
                  simp [readIntr, hcur, hleft, readSector]⟩
              · left
                exact ⟨_, .readMore rfl hh hcur hleft, fun k => by
                  simp [readIntr, hcur, hleft, readSector]⟩
  | writeIntr =>
      cases ok with
      | false =>
          right
          exact ⟨_, .fail rfl (by simp [hh]), fun k => by simp [writeIntr, failed_bind]⟩
      | true =>
          cases hcur : s.current with
          | none =>
              left
              exact ⟨_, .nullWrite rfl hh hcur, fun k => by simp [writeIntr, hcur]⟩
          | some r =>
              by_cases hleft : oneLess (s.request r).nrSectors = 0
              · right
                exact ⟨_, .writeLast rfl hh hcur hleft, fun k => by
                  simp [writeIntr, hcur, hleft, countSector]⟩
              · left
                exact ⟨_, .writeMore rfl hh hcur hleft,
                  fun k => by simp [writeIntr, hcur, hleft, writeNext, countSector]⟩

/-- An interrupt is a `Handled` step, followed by `do_hd_request` if that is called. -/
theorem hdInterrupt_handled {i : Irq} (h : hdInterrupt i env k s = .ok () s') :
    Handled env (winResult i.status) s false s' ∨
      ∃ s₁, Handled env (winResult i.status) s true s₁ ∧ doHdRequest env k s₁ = .ok () s' := by
  rcases hdInterrupt_run i env s with ⟨s₁, hh, hrun⟩ | ⟨s₁, hh, hrun⟩
  · rw [hrun, Res.ok.injEq] at h
    exact .inl (h.2 ▸ hh)
  · exact .inr ⟨s₁, hh, hrun k ▸ h⟩

/-- **Interrupts.**  `I` is an invariant of the driver between interrupts and `J`
what holds, in addition, when `do_hd_request` looks at the queue. -/
theorem hdInterrupt_ensures {i : Irq} {I J : Sys n → Prop}
    (hdone : ∀ {s'}, Handled env (winResult i.status) s false s' → I s')
    (hcalled : ∀ {s'}, Handled env (winResult i.status) s true s' → J s')
    (hrepeat : ∀ {s s'}, J s → Pass env s (.inl ()) s' → J s')
    (hreturn : ∀ {s s'}, J s → Pass env s (.inr ()) s' → I s')
    (h : hdInterrupt i env k s = .ok () s') : I s' := by
  rcases hdInterrupt_handled h with h | ⟨s₁, h₁, h⟩
  · exact hdone h
  · exact doHdRequest_ensures hrepeat hreturn (hcalled h₁) h

end EgGS
