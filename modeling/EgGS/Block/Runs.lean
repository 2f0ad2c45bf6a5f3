import EgGS.Block.Effect

/-!
# Runs of the request layer

A run of the request layer starts behind `init_request_queue` and consists of
calls of `ll_rw_block`, of time in which interrupts arrive, and of whatever the
rest of the kernel does to buffers that are not locked.

* `request_pool`: after every run the request list is well formed and the locked
  buffers are those of queued requests.
* `BlkReach.serving`: where no interrupt arrives inside a call, the pointer and
  the sector of the request in service agree with the count of sectors left, and a
  request that ended well has transferred its block.  `Micro` takes this on to the
  interrupts that arrive while `add_request` waits for DRQ.
-/

namespace EgGS

open Lib Prog Relation

variable {n : ℕ} {env : Env n} {k : ℕ} {s s' s₀ : Sys n}

/-! ## Runs -/

/-- Before `init_request_queue`: nothing is queued, locked or under way. -/
structure Sys.Quiet (s : Sys n) : Prop where
  current : s.current = none
  unlocked : ∀ b, (s.buf b).bLock = false
  quiet : s.ctl.outstanding = false
  log : s.log = []

/-- What the rest of the kernel does between calls of `ll_rw_block`: it leaves the
request layer, the disk and the locked buffers alone, and locks nothing. -/
structure Elsewhere (s s' : Sys n) : Prop where
  request : s'.request = s.request
  current : s'.current = s.current
  reset : s'.reset = s.reset
  recalibrate : s'.recalibrate = s.recalibrate
  geo : s'.geo = s.geo
  handler : s'.handler = s.handler
  ctl : s'.ctl = s.ctl
  disk : s'.disk = s.disk
  log : s'.log = s.log
  lock : ∀ b, (s'.buf b).bLock = (s.buf b).bLock
  held : ∀ b, (s.buf b).bLock = true → s'.buf b = s.buf b

/-- Time passes with interrupts enabled. -/
def idle : P n Unit := do
  sti
  poll

/-- The states a run of the request layer can be in between calls. -/
inductive BlkReach (env : Env n) (s₀ : Sys n) : Sys n → Prop
  | init : BlkReach env s₀ (initRequestQueue s₀)
  | call {s s' : Sys n} {k : ℕ} (rw : Rw) (b : Fin n) : BlkReach env s₀ s →
      (s.buf b).bLock = false → llRwBlock rw b env k s = .ok () s' → BlkReach env s₀ s'
  | idle {s s' : Sys n} {k : ℕ} : BlkReach env s₀ s → idle env k s = .ok () s' →
      BlkReach env s₀ s'
  | elsewhere {s s' : Sys n} : BlkReach env s₀ s → Elsewhere s s' → BlkReach env s₀ s'

theorem idle_submits {sub : Submission n} (h : idle env k s = .ok () s') :
    Submits env (sub, s) (sub, s') := by
  unfold idle sti at h
  rw [update_bind] at h
  exact (setIntr_submits true).trans (poll_submits h)

/-- An invariant of the steps of the request layer, and of what happens elsewhere,
holds after every run. -/
theorem BlkReach.invariant {I : Sys n → Prop} (h : BlkReach env s₀ s)
    (hinit : I (initRequestQueue s₀))
    (hpath : ∀ s s', I s → Submits env (.idle, s) (.idle, s') → I s')
    (helse : ∀ s s', I s → Elsewhere s s' → I s') : I s := by
  induction h with
  | init => exact hinit
  | call rw b _ hlock hcall ih => exact hpath _ _ ih (llRwBlock_submits hlock hcall)
  | idle _ hidle ih => exact hpath _ _ ih (idle_submits hidle)
  | elsewhere _ helse' ih => exact helse _ _ ih helse'

/-! ## In the middle of a call -/

/-- The states a run of the request layer can be in, also in the middle of a call of
`ll_rw_block`, if every step is one of `may`.  The two flags of the driver may have any
value at any time. -/
inductive Reached (env : Env n) (may : Submission n × Sys n → Submission n × Sys n → Prop)
    (s₀ : Sys n) : Submission n × Sys n → Prop
  | init : Reached env may s₀ (.idle, initRequestQueue s₀)
  | step {x y : Submission n × Sys n} : Reached env may s₀ x → Submit env x y → may x y →
      Reached env may s₀ y
  | elsewhere {s s' : Sys n} : Reached env may s₀ (.idle, s) → Elsewhere s s' →
      may (.idle, s) (.idle, s') → Reached env may s₀ (.idle, s')
  | flags {sub : Submission n} {s : Sys n} (reset recalibrate : Bool) :
      Reached env may s₀ (sub, s) → Reached env may s₀ (sub, { s with reset, recalibrate })

/-! ## A machine to run on

One header, for block 0 of the first disk, and a controller that answers every
command at the next opportunity with the same status. -/

/-- The answers of a controller that is always ready. -/
def Env.diligent (status : UInt8) : Env n where
  irq s := if s.ctl.outstanding then some ⟨status⟩ else none
  burst _ := 1
  drq _ := true
  ready _ := true
  nullErrors _ := 0

/-- One drive of 1600 sectors, all of it partition 0. -/
def smallDrive : Geometry where
  hdInfo _ := ⟨2, 8, 100⟩
  nrHd := 1
  partitionInfo _ := ⟨0, 1600⟩

/-- A kernel with one header, which has block 0 of device `0x300`. -/
def oneBuffer : Sys 1 :=
  { (Sys.load fun _ _ _ => 7).setBuf 0 fun bh => { bh with bDev := 0x300 } with
    geo := smallDrive, hdEnabled := true }

/-- A call of `ll_rw_block` to read the block, and `j` interrupts. -/
def afterRead (env : Env 1) : ℕ → Sys 1
  | 0 => (llRwBlock .read 0 env 20 (initRequestQueue oneBuffer)).state
  | j + 1 => (idle env 20 (afterRead env j)).state

/-- Every step of `afterRead env j` returns. -/
def readReturns (env : Env 1) : ℕ → Bool
  | 0 => (llRwBlock .read 0 env 20 (initRequestQueue oneBuffer)).value?.isSome
  | j + 1 => (idle env 20 (afterRead env j)).value?.isSome && readReturns env j

theorem afterRead_reach {env : Env 1} : ∀ j, readReturns env j = true →
    BlkReach env oneBuffer (afterRead env j)
  | 0, h => .call .read 0 .init rfl (Res.eq_ok (Option.eq_some_of_isSome h))
  | j + 1, h => by
      obtain ⟨hidle, hj⟩ := Bool.and_eq_true_iff.mp h
      exact .idle (afterRead_reach j hj) (Res.eq_ok (Option.eq_some_of_isSome hidle))

theorem oneBuffer_quiet : oneBuffer.Quiet := ⟨rfl, by decide, rfl, rfl⟩

theorem diligent_answers (status : UInt8) : (Env.diligent status : Env n).Answers := by
  intro s i h
  simp only [Env.diligent] at h
  split at h
  · assumption
  · exact absurd h (by simp)

/-! ## The request pool -/

/-- The request list is well formed: `q` is the queue of the hard disk. -/
structure WellFormed (s : Sys n) (q : List (Fin nrRequest)) : Prop where
  chain : Chain (fun r => (s.request r).next) s.current q
  nodup : q.Nodup
  slots : ∀ r, 0 ≤ (s.request r).dev ↔ r ∈ q
  cmd : ∀ r ∈ q, (s.request r).cmd = .read ∨ (s.request r).cmd = .write
  left : ∀ r ∈ q, (s.request r).nrSectors = 1 ∨ (s.request r).nrSectors = 2
  buffer : ∀ r ∈ q, ∃ b, (s.request r).bh = some b ∧ (s.buf b).bLock = true
  distinct : ∀ r ∈ q, ∀ r' ∈ q, (s.request r).bh = (s.request r').bh → r = r'
  locked : ∀ b, (s.buf b).bLock = true → ∃! r, r ∈ q ∧ (s.request r).bh = some b
  writes : ∀ r ∈ q, (s.request r).cmd = .write → r.val < nrRequest * 2 / 3

theorem Pool.wellFormed {q : List (Fin nrRequest)} (h : Pool .idle s q) : WellFormed s q where
  chain := h.chain
  nodup := h.nodup
  slots r := by simpa using h.slots r
  cmd r hr := (h.goodMem hr).elim fun _ hb => hb.cmd
  left r hr := (h.goodMem hr).elim fun _ hb => hb.left
  buffer r hr := (h.goodMem hr).imp fun _ hb => ⟨hb.bh, hb.lock⟩
  distinct := h.own
  locked b hb := by
    obtain ⟨r, hr, hbh⟩ := ((h.locked b).mp hb).resolve_right (by simp)
    exact ⟨r, ⟨hr, hbh⟩, fun r' ⟨hr', hbh'⟩ => h.own r' hr' r hr (hbh'.trans hbh.symm)⟩
  writes r hr := (h.goodMem hr).elim fun _ hb => hb.slot

theorem Elsewhere.samePool (h : Elsewhere s s') : SamePool s s' :=
  ⟨fun r => .inl (congrFun h.request r), h.current, fun b hb => .of_links (by rw [h.held b hb]),
    h.lock⟩

/-- **The request pool.**  After every run the request list is well formed. -/
theorem request_pool (hquiet : s₀.Quiet) (h : BlkReach env s₀ s) : ∃ q, WellFormed s q := by
  have hpooled : Pooled .idle s := h.invariant ⟨[], Pool.init hquiet.current hquiet.unlocked⟩
    (fun _ _ hI hpath => hI.submits hpath) fun _ _ hI helse => hI.congr helse.samePool
  exact hpooled.imp fun _ hq => hq.wellFormed

/-- The queue while a read is being retried. -/
theorem request_pool_retry : ∃ q, WellFormed (afterRead (Env.diligent 0x51) 4) q :=
  request_pool oneBuffer_quiet (afterRead_reach 4 rfl)

/-! ## Transfers -/

/-- The history so far: data phases stayed inside their block, and a request that
ended well has transferred its block. -/
def Event.Exact : Event n → Prop
  | .dataPhase p => p.off + 512 ≤ 1024
  | .ended _ _ true data disk => data = disk
  | _ => True

/-- Queued buffers are clean, and every transfer so far was exact. -/
structure Exact (sub : Submission n) (s : Sys n) : Prop where
  clean : ∀ b cmd, s.Queued b cmd → sub.buf ≠ some b → (s.buf b).bDirt = false
  log : ∀ e ∈ s.log, e.Exact

theorem Event.Minor.exact {e : Event n} (h : e.Minor) : e.Exact := by
  cases e with
  | dataPhase p => exact h
  | _ => trivial

theorem MinorLog.exact (h : MinorLog s s') (hlog : ∀ e ∈ s.log, e.Exact) :
    ∀ e ∈ s'.log, e.Exact := by
  obtain ⟨es, heq, hes⟩ := h
  intro e he
  rw [heq, List.mem_append] at he
  exact he.elim (fun he => (hes e he).exact) (hlog e)

theorem Exact.effect {sub : Submission n} (h : Exact sub s) (heff : Effect sub s s') :
    Exact sub s' := by
  cases heff with
  | none _ hbuf _ hqueued hlog =>
      refine ⟨fun b cmd hb hsub => ?_, hlog.exact h.log⟩
      rw [hbuf]
      exact h.clean b cmd ((hqueued b cmd).mp hb) hsub
  | @load b _ _ _ hother hself _ hqueued hlog =>
      refine ⟨fun c cmd hc hsub => ?_, hlog.exact h.log⟩
      have hclean := h.clean c cmd ((hqueued c cmd).mp hc) hsub
      by_cases hcb : c = b
      · subst hcb
        rw [hself]
        exact hclean
      · rwa [hother c hcb]
  | save _ _ _ hbuf _ hqueued hlog =>
      refine ⟨fun b cmd hb hsub => ?_, hlog.exact h.log⟩
      rw [hbuf]
      exact h.clean b cmd ((hqueued b cmd).mp hb) hsub
  | @done b cmd ok _ hb hsub _ hbuf _ hqueued hsame hlog =>
      refine ⟨fun c cmd' hc hsub => ?_, fun e he => ?_⟩
      · obtain ⟨hc, hne⟩ := (hqueued c cmd').mp hc
        rw [hbuf, Function.update_of_ne hne]
        exact h.clean c cmd' hc hsub
      · rw [hlog, List.mem_cons] at he
        rcases he with rfl | he
        · cases ok with
          | false => trivial
          | true => exact hsame rfl (h.clean b cmd hb hsub)
        · exact h.log e he

theorem Exact.move {x y : Submission n × Sys n} (h : Exact x.1 x.2) (hmove : Move x y) :
    Exact y.1 y.2 := by
  cases hmove with
  | effect heff => exact h.effect heff
  | @lock s b _ =>
      refine ⟨fun c cmd hc hsub => ?_, h.log⟩
      have hcb : c ≠ b := fun heq => hsub (by rw [heq])
      simpa [hcb] using h.clean c cmd hc (by simp)
  | check _ _ _ => exact ⟨h.clean, h.log⟩
  | @giveUp s b cmd hnot =>
      refine ⟨fun c cmd' hc _ => ?_, h.log⟩
      have hcb : c ≠ b := by
        rintro rfl
        exact hnot cmd' hc
      simpa [unlockBuff, hcb] using h.clean c cmd' hc (by simpa using Ne.symm hcb)
  | @fill s b rw r hfree _ =>
      refine ⟨fun c cmd hc hsub => ?_, h.log⟩
      obtain ⟨r', hused, hbh, hcmd⟩ := hc
      by_cases hr : r' = r
      · subst hr
        exact absurd (by simpa [makeRequest] using hbh) hsub
      · exact h.clean c cmd ⟨r', by simpa [hr] using hused, by simpa [hr] using hbh,
          by simpa [hr] using hcmd⟩ hsub
  | @offer s s' b cmd r hb _ _ hbuf hqueued hlog =>
      refine ⟨fun c cmd' hc _ => ?_, fun e he => ?_⟩
      · rw [hbuf]
        by_cases hcb : c = b
        · subst hcb; simp
        · rw [Function.update_of_ne hcb]
          exact h.clean c cmd' ((hqueued c cmd').mp hc) (by simpa using Ne.symm hcb)
      · rw [hlog, List.mem_cons] at he
        rcases he with rfl | he
        · trivial
        · exact h.log e he

theorem Exact.moves {x y : Submission n × Sys n} (h : Exact x.1 x.2) (hpath : Moves x y) :
    Exact y.1 y.2 := by
  induction hpath with
  | refl => exact h
  | tail _ hmove ih => exact ih.move hmove

theorem Serving.elsewhere (h : Serving .idle s) (helse : Elsewhere s s') : Serving .idle s' := by
  refine ⟨h.pooled.congr helse.samePool, h.transfer.congr helse.ctl helse.handler helse.disk
    helse.geo helse.current (fun r _ => ⟨_, congrFun helse.request r⟩) fun r b hr hb => ?_⟩
  exact .of_eq (helse.held b (h.pooled.locked_head hr hb).1)

theorem Exact.elsewhere (hserving : Serving .idle s) (h : Exact .idle s)
    (helse : Elsewhere s s') : Exact .idle s' := by
  refine ⟨fun b cmd hb hsub => ?_, helse.log ▸ h.log⟩
  have hb' := (Sys.queued_congr helse.request b cmd).mp hb
  have hclean := h.clean b cmd hb' hsub
  obtain ⟨r, hused, hbh, -⟩ := hb'
  obtain ⟨q, hq⟩ := hserving.pooled
  have hr : r ∈ q := ((hq.slots r).mp hused).resolve_right (by simp)
  rwa [helse.held b ((hq.locked b).mpr (.inl ⟨r, hr, hbh⟩))]

theorem Serving.init (hquiet : s₀.Quiet) : Serving .idle (initRequestQueue s₀) :=
  ⟨⟨[], Pool.init hquiet.current hquiet.unlocked⟩, .of_fresh hquiet.quiet fun r hr => by
    rw [show (initRequestQueue s₀).current = s₀.current from rfl, hquiet.current] at hr
    exact absurd hr (by simp)⟩

theorem Reached.serving {may : Submission n × Sys n → Submission n × Sys n → Prop}
    {x : Submission n × Sys n} (hquiet : s₀.Quiet) (henv : env.Answers)
    (h : Reached env may s₀ x) : Serving x.1 x.2 := by
  induction h with
  | init => exact .init hquiet
  | step _ hstep _ ih => exact (ih.submit henv hstep).1
  | elsewhere _ helse _ ih => exact ih.elsewhere helse
  | flags _ _ _ ih =>
      exact ⟨ih.pooled.congr (.of_buf rfl rfl rfl), ih.transfer.congr rfl rfl rfl rfl rfl
        (fun r _ => ⟨_, rfl⟩) fun _ _ _ _ => .of_eq rfl⟩

theorem BlkReach.serving (hquiet : s₀.Quiet) (henv : env.Answers) (h : BlkReach env s₀ s) :
    Serving .idle s ∧ Exact .idle s := by
  refine h.invariant (I := fun s => Serving .idle s ∧ Exact .idle s)
    ⟨.init hquiet, fun b cmd hb => ?_, ?_⟩ (fun s s' hI hpath => ?_)
    fun s s' hI helse => ⟨hI.1.elsewhere helse, hI.2.elsewhere hI.1 helse⟩
  · obtain ⟨r, hused, -⟩ := hb
    exact absurd hused (by simp [initRequestQueue])
  · rw [show (initRequestQueue s₀).log = s₀.log from rfl, hquiet.log]
    simp
  · obtain ⟨hserving, hmoves⟩ := hI.1.submits henv hpath
    exact ⟨hserving, hI.2.moves hmoves⟩

end EgGS
