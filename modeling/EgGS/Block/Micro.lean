import EgGS.Block.Runs

/-!
# The request layer in small steps

A run of `BlkReach` makes the first call of `do_hd_request` for a queue in one step.  But
`add_request` makes it behind `sti()`, so an interrupt can come while that call waits for the
DRQ of a `WRITE`, and the handler then works on the same request.  `Micro` takes the runs
apart at this call: an interrupt may come before and behind its test of `CURRENT_REQUEST` and
as long as it waits.  The calls that the handlers make run behind an interrupt gate, and an
interrupt is still one pass after the other there.

`Limits` says which of these interrupts, and which ends of the wait, a run may have.  Beside
the state a moment keeps the failures counted for each slot and whether a data phase went
through `NULL`.

* `BlkReach.watched`: without limits, every run is one in small steps.
-/

namespace EgGS

open Lib Prog Relation

variable {n : ℕ} {env : Env n} {k : ℕ} {s s' s₀ : Sys n}
variable {sub sub' : Submission n} {r : Fin nrRequest} {b : Fin n}

/-! ## Counting failures -/

/-- The failures of each slot since its `errors` was last zeroed. -/
abbrev Tally := Fin nrRequest → ℕ

/-- One more failure of the request in service. -/
def Tally.fail (f : Tally) : Option (Fin nrRequest) → Tally
  | none => f
  | some r => Function.update f r (f r + 1)

/-- The count of a request starts again. -/
def Tally.clear (f : Tally) : Option (Fin nrRequest) → Tally
  | none => f
  | some r => Function.update f r 0

/-- What an interrupt counts, by the handler that is installed: `read_intr` zeroes `errors`
behind every sector. -/
def Tally.interrupt (f : Tally) (ok : Bool) (s : Sys n) : Tally :=
  match s.handler with
  | .none => f
  | .readIntr => if ok then f.clear s.current else f.fail s.current
  | _ => if ok then f else f.fail s.current

section Interrupt

variable {f : Tally} {ok : Bool}

theorem Tally.interrupt_fail (hok : ok = false) (h : s.handler ≠ .none) :
    f.interrupt ok s = f.fail s.current := by
  cases hs : s.handler with
  | none => exact absurd hs h
  | readIntr | writeIntr | recalIntr => simp [Tally.interrupt, hs, hok]

theorem Tally.interrupt_read (hok : ok = true) (h : s.handler = .readIntr) :
    f.interrupt ok s = f.clear s.current := by
  simp [Tally.interrupt, h, hok]

theorem Tally.interrupt_same (hok : ok = true) (h : s.handler ≠ .readIntr) :
    f.interrupt ok s = f := by
  cases hs : s.handler with
  | readIntr => exact absurd hs h
  | none | writeIntr | recalIntr => simp [Tally.interrupt, hs, hok]

end Interrupt

/-- What a pass counts that goes back to `repeat`: if the range test let the request through,
DRQ did not come up. -/
def Tally.pass (f : Tally) (s : Sys n) : Tally :=
  match s.current with
  | none => f
  | some r =>
      if outOfPartition s.geo (unsigned (s.request r).dev) (s.request r).sector then f
      else f.fail (some r)

/-! ## The steps -/

/-- The steps of `ll_rw_block` itself, up to the call of `do_hd_request`. -/
inductive Own : Submission n × Sys n → Submission n × Sys n → Prop
  | lock {s : Sys n} {b : Fin n} : (s.buf b).bLock = false → major (s.buf b).bDev = 3 →
      s.hdEnabled = true →
      Own (.idle, s) (⟨some b, none, none⟩, s.setBuf b fun bh => { bh with bLock := true })
  | check {s : Sys n} {b : Fin n} {rw : Rw} : rw = .read ∨ rw = .write →
      (rw = .write → (s.buf b).bDirt = true) → (rw = .read → (s.buf b).bUptodate = false) →
      Own (⟨some b, none, none⟩, s) (⟨some b, some rw, none⟩, s)
  | giveUp {s : Sys n} {b : Fin n} {cmd : Option Rw} :
      Own (⟨some b, cmd, none⟩, s) (.idle, unlockBuff b s)
  | fill {s : Sys n} {b : Fin n} {rw : Rw} {r : Fin nrRequest} : freeSlot s rw = some r →
      Own (⟨some b, some rw, none⟩, s)
        (⟨some b, some rw, some r⟩, s.setRequest r fun _ => makeRequest s rw b)
  | queue {s : Sys n} {b : Option (Fin n)} {cmd : Option Rw} {r head tmp : Fin nrRequest}
      {e : Env n} {k : ℕ} : s.current = some head →
      elevator r head e k (s.offer r) = .ok tmp (s.offer r) →
      Own (⟨b, cmd, some r⟩, s) (.idle, ((s.offer r).linkBehind tmp r).setIntr true)

theorem Own.submit (env : Env n) {x y : Submission n × Sys n} (h : Own x y) : Submit env x y := by
  cases h with
  | lock hlock hmajor hon => exact .lock hlock hmajor hon
  | check hrw hdirt hup => exact .check hrw hdirt hup
  | giveUp => exact .giveUp
  | fill hfree => exact .fill hfree
  | queue hcur helev => exact .queue hcur helev

/-- Where the call of `do_hd_request` is that `add_request` made: at its label `repeat`,
behind the test of `CURRENT_REQUEST`, or waiting for DRQ.  The wait is fresh until an
interrupt comes. -/
inductive Outer
  | none
  | again
  | begun
  | wait (fresh : Bool)

/-- An interrupt came. -/
def Outer.disturb : Outer → Outer
  | .wait _ => .wait false
  | stage => stage

/-- A moment of a run: whether a handler has called `do_hd_request` and is at the label
`repeat`, where the call of `add_request` is, the failures counted so far, whether a data
phase went through `NULL`, and the state. -/
structure Moment (n : ℕ) where
  called : Bool
  outer : Outer
  tally : Tally
  wild : Bool
  sub : Submission n
  sys : Sys n

/-- What a run may do: have an interrupt, go on behind the test of `CURRENT_REQUEST`, end the
wait for DRQ with it, and end it without. -/
structure Limits (n : ℕ) where
  irq : Sys n → Irq → Prop
  goOn : Sys n → Prop
  drq : Bool → Sys n → Prop
  timeout : Sys n → Prop

/-- Anything may happen. -/
@[simps] def Limits.any : Limits n where
  irq _ _ := True
  goOn _ := True
  drq _ _ := True
  timeout _ := True

/-- The steps of a run. -/
inductive Micro (env : Env n) (may : Limits n) : Moment n → Moment n → Prop
  | time {o : Outer} {f : Tally} {w : Bool} {sub : Submission n} {s : Sys n} (clock : ℕ)
      (intr : Bool) :
      Micro env may ⟨false, o, f, w, sub, s⟩ ⟨false, o, f, w, sub, { s with clock, intr }⟩
  | elsewhere {f : Tally} {w : Bool} {s s' : Sys n} : Elsewhere s s' →
      Micro env may ⟨false, .none, f, w, .idle, s⟩ ⟨false, .none, f, w, .idle, s'⟩
  | own {f : Tally} {w : Bool} {sub sub' : Submission n} {s s' : Sys n} :
      Own (sub, s) (sub', s') →
      Micro env may ⟨false, .none, f, w, sub, s⟩ ⟨false, .none, f.clear sub'.slot, w, sub', s'⟩
  | start {f : Tally} {w : Bool} {s : Sys n} {b : Option (Fin n)} {cmd : Option Rw}
      {r : Fin nrRequest} : s.current = none →
      Micro env may ⟨false, .none, f, w, ⟨b, cmd, some r⟩, s⟩
        ⟨false, .again, f, w, .idle, ((s.offer r).start r).setIntr true⟩
  -- an interrupt, and the passes of the `do_hd_request` that its handler calls
  | interrupt {o : Outer} {f : Tally} {w : Bool} {sub : Submission n} {s s' : Sys n} {i : Irq}
      {called : Bool} : env.irq s = some i → may.irq s i →
      Handled env (winResult i.status) s called s' →
      Micro env may ⟨false, o, f, w, sub, s⟩
        ⟨called, o.disturb, f.interrupt (winResult i.status) s, w, sub, s'⟩
  | again {o : Outer} {f : Tally} {w : Bool} {sub : Submission n} {s s' : Sys n} :
      Pass env s (.inl ()) s' →
      Micro env may ⟨true, o, f, w, sub, s⟩ ⟨true, o, f.pass s, w, sub, s'⟩
  | done {o : Outer} {f : Tally} {w : Bool} {sub : Submission n} {s s' : Sys n} :
      Pass env s (.inr ()) s' →
      Micro env may ⟨true, o, f, w, sub, s⟩ ⟨false, o, f, w, sub, s'⟩
  -- the call of `add_request`, at `repeat`
  | leave {f : Tally} {w : Bool} {sub : Submission n} {s : Sys n} : s.current = none →
      Micro env may ⟨false, .again, f, w, sub, s⟩ ⟨false, .none, f, w, sub, s⟩
  | begin {f : Tally} {w : Bool} {sub : Submission n} {s : Sys n} {r : Fin nrRequest} :
      s.current = some r →
      Micro env may ⟨false, .again, f, w, sub, s⟩ ⟨false, .begun, f, w, sub, s⟩
  -- behind the test; what it reads through `NULL` is not followed further
  | lost {f : Tally} {w : Bool} {sub : Submission n} {s : Sys n} : may.goOn s →
      s.current = none →
      Micro env may ⟨false, .begun, f, w, sub, s⟩
        ⟨false, .none, f, w, sub, s.note .nullAccess⟩
  | reject {f : Tally} {w : Bool} {sub : Submission n} {s : Sys n} {r : Fin nrRequest} :
      may.goOn s → s.current = some r →
      outOfPartition s.geo (unsigned (s.request r).dev) (s.request r).sector = true →
      Micro env may ⟨false, .begun, f, w, sub, s⟩
        ⟨false, .again, f, w, sub, endRequest false s⟩
  | command {f : Tally} {w : Bool} {sub : Submission n} {s s' : Sys n} {r : Fin nrRequest} :
      may.goOn s → s.current = some r →
      ((s.request r).cmd = .write → s.reset = true ∨ s.recalibrate = true) →
      Pass env s (.inr ()) s' →
      Micro env may ⟨false, .begun, f, w, sub, s⟩ ⟨false, .none, f, w, sub, s'⟩
  | write {f : Tally} {w : Bool} {sub : Submission n} {s : Sys n} {r : Fin nrRequest} :
      may.goOn s → Served s r → s.reset = false → s.recalibrate = false →
      (s.request r).cmd = .write →
      Micro env may ⟨false, .begun, f, w, sub, s⟩
        ⟨false, .wait true, f, w, sub, s.issue (s.transferCommand r .write) .writeIntr⟩
  -- the end of the wait: `CURRENT_REQUEST` is read again
  | drq {fresh : Bool} {f : Tally} {w : Bool} {sub : Submission n} {s : Sys n}
      {r : Fin nrRequest} : env.drq s = true → may.drq fresh s → s.current = some r →
      Micro env may ⟨false, .wait fresh, f, w, sub, s⟩
        ⟨false, .none, f, w, sub, portWrite (s.request r).buffer s⟩
  | drqLost {fresh : Bool} {f : Tally} {w : Bool} {sub : Submission n} {s : Sys n} :
      env.drq s = true → may.drq fresh s → s.current = none →
      Micro env may ⟨false, .wait fresh, f, w, sub, s⟩
        ⟨false, .none, f, true, sub, s.note .nullAccess⟩
  | timeout {fresh : Bool} {f : Tally} {w : Bool} {sub : Submission n} {s : Sys n} :
      env.drq s = false → may.timeout s →
      Micro env may ⟨false, .wait fresh, f, w, sub, s⟩
        ⟨false, .again, f.fail s.current, w, sub, printCurrent (badRwIntr env s.drop)⟩

/-- The moments of the runs behind `init_request_queue`. -/
abbrev Watched (env : Env n) (may : Limits n) (s₀ : Sys n) : Moment n → Prop :=
  ReflTransGen (Micro env may) ⟨false, .none, 0, false, .idle, initRequestQueue s₀⟩

/-! ## Every run is one of these -/

end EgGS
