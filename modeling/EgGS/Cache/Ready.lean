import EgGS.Block.Service
import EgGS.Cache.Flags
import EgGS.Cache.Hits
import EgGS.Cache.Loss
import EgGS.Lib.Does

/-!
# The calls of the cache return

On hardware that works every call of the buffer cache returns, whether its requests succeed or
not.  A request that was queued comes to an end, and `sync_dev` leaves no dirty buffer of its
device, so `new_buff` gets the victim it settled on.

`Ready which s` says what this takes of the state between two calls.

A buffer that is waited for has its lock released by the end of its request, so `waitOnBuff` returns
by the progress of the queue.  `syncDev` goes over all headers, and `Moves.clean` says that nothing
makes a buffer dirty in the meantime; hence the second look that `cleanVictim` takes at its victim
is the last one.
-/

namespace EgGS

open Lib Prog Relation

variable {n : ℕ} {env : Env n} {k : ℕ} {s s' t : Sys n}
variable {sub : Submission n} {b c : Fin n} {dev block : ℕ}
variable {which : Rw → Prop}

theorem Event.Failed.mono {which' : Rw → Prop} (h : ∀ cmd, which cmd → which' cmd) {e : Event n}
    (he : e.Failed which) : e.Failed which' := by
  cases e with
  | ended b cmd ok data disk =>
      cases ok with
      | true => exact he
      | false => exact h cmd he
  | _ => exact he

/-- Nothing makes a buffer dirty. -/
theorem Move.clean {x y : Submission n × Sys n} (h : Move x y) (hb : (x.2.buf b).bDirt = false) :
    (y.2.buf b).bDirt = false := by
  cases h with
  | effect heff => exact (heff.dirt b).trans hb
  | lock _ => rwa [Sys.setBuf_at (·.bDirt), ite_self]
  | check _ _ _ => exact hb
  | giveUp _ => rwa [unlockBuff, Sys.setBuf_at (·.bDirt), ite_self]
  | fill _ _ => exact hb
  | @offer _ s' c _ _ _ _ _ hbuf _ _ =>
      by_cases hbc : b = c
      · simp [hbuf, hbc]
      · simpa [hbuf, hbc] using hb

theorem Moves.clean {x y : Submission n × Sys n} (h : Moves x y) (hb : (x.2.buf b).bDirt = false) :
    (y.2.buf b).bDirt = false := by
  induction h with
  | refl => exact hb
  | tail _ hmove ih => exact hmove.clean ih

/-! ## Requests that were made -/

/-- Until its request is queued, the write of `b` is being made; from then on `b` is clean. -/
def Writing (b : Fin n) (x : Submission n × Sys n) : Prop :=
  x.1.buf = some b ∧ x.1.slot ≠ none ∨ (x.2.buf b).bDirt = false

theorem Move.writing {x y : Submission n × Sys n} (hmove : Move x y) (h : Writing b x) :
    Writing b y := by
  cases hmove with
  | effect heff => exact h.imp id fun hclean => (heff.dirt b).trans hclean
  | @lock s c _ =>
      refine .inr ?_
      rw [Sys.setBuf_at (·.bDirt), ite_self]
      exact h.resolve_left fun hl => hl.2 rfl
  | check _ _ _ => exact .inr (h.resolve_left fun hl => hl.2 rfl)
  | @giveUp s c _ _ =>
      refine .inr ?_
      rw [unlockBuff, Sys.setBuf_at (·.bDirt), ite_self]
      exact h.resolve_left fun hl => hl.2 rfl
  | fill _ _ => exact .inr (h.resolve_left fun hl => hl.2 rfl)
  | @offer s s' c _ _ _ _ _ hbuf _ _ =>
      refine .inr ?_
      by_cases hbc : b = c
      · simp [hbuf, hbc]
      · have hclean := h.resolve_left fun hl => hbc (Option.some.inj hl.1).symm
        simpa [hbuf, hbc] using hclean

/-- The buffer `b` is up to date, or will be when its read is done. -/
def Reading (b : Fin n) (s : Sys n) : Prop := (s.buf b).bUptodate = true ∨ s.Queued b .read

theorem Effect.reading (heff : Effect sub s s')
    (hlog : ∀ e ∈ s'.log, ¬ e.Failed fun _ => True) (h : Reading b s) : Reading b s' := by
  cases heff with
  | none _ hbuf _ hqueue _ => exact h.imp (fun hup => by rwa [hbuf]) (hqueue b .read).mpr
  | save _ _ _ hbuf _ hqueue _ => exact h.imp (fun hup => by rwa [hbuf]) (hqueue b .read).mpr
  | @load c _ _ _ hother hself _ hqueue _ =>
      refine h.imp (fun hup => ?_) (hqueue b .read).mpr
      by_cases hbc : b = c
      · subst hbc
        rwa [hself]
      · rwa [hother b hbc]
  | @done c cmd ok _ hc _ _ hbuf _ hqueue _ hended =>
      have hok : ok = true := by
        cases ok with
        | true => rfl
        | false =>
            rw [hended] at hlog
            exact ((hlog _ (List.mem_cons_self ..)) trivial).elim
      by_cases hbc : b = c
      · exact .inl (by simp [hbuf, hbc, hok])
      · exact h.imp (fun hup => by simpa [hbuf, hbc] using hup) fun hq =>
          (hqueue b .read).mpr ⟨hq, hbc⟩

theorem Move.reading {x y : Submission n × Sys n} (hmove : Move x y)
    (hlog : ∀ e ∈ y.2.log, ¬ e.Failed fun _ => True) (h : Reading b x.2) : Reading b y.2 := by
  cases hmove with
  | effect heff => exact heff.reading hlog h
  | lock _ => exact h.imp (fun hup => by rwa [Sys.setBuf_at (·.bUptodate), ite_self]) id
  | check _ _ _ => exact h
  | giveUp _ =>
      exact h.imp (fun hup => by rwa [unlockBuff, Sys.setBuf_at (·.bUptodate), ite_self]) id
  | @fill s c rw r hfree _ =>
      refine h.imp id ?_
      rintro ⟨r', hused, hbh, hcmd⟩
      have hr : r' ≠ r := by
        rintro rfl
        exact absurd hfree (not_lt.mpr hused)
      exact ⟨r', by simpa [hr] using hused, by simpa [hr] using hbh, by simpa [hr] using hcmd⟩
  | @offer s s' c _ _ _ _ _ hbuf hqueue _ =>
      refine h.imp (fun hup => ?_) (hqueue b .read).mpr
      by_cases hbc : b = c
      · subst hbc
        simpa [hbuf] using hup
      · simpa [hbuf, hbc] using hup

theorem Moves.reading {x y : Submission n × Sys n} (h : Moves x y)
    (hlog : ∀ e ∈ y.2.log, ¬ e.Failed fun _ => True) (hb : Reading b x.2) : Reading b y.2 := by
  induction h with
  | refl => exact hb
  | tail _ hmove ih => exact hmove.reading hlog (ih fun e he => hlog e (hmove.log.subset he))

theorem Moves.writing {x y : Submission n × Sys n} (h : Moves x y) (hb : Writing b x) :
    Writing b y := by
  induction h with
  | refl => exact hb
  | tail _ hmove ih => exact hmove.writing ih

/-- Only a read-ahead gives up without a slot. -/
theorem findSlot_none {rw : Rw} {ahead : Bool} (h : findSlot rw ahead env k s = .ok none s') :
    ahead = true ∧ freeSlot s' rw = none := by
  unfold findSlot at h
  refine iterate_ensures (I := fun _ _ => True)
    (Q := fun slot t => slot = none → ahead = true ∧ freeSlot t rw = none)
    (fun _ _ _ _ _ _ => trivial) (fun _ t slot t' _ hbody => ?_) trivial h rfl
  rw [read_bind] at hbody
  cases hfree : freeSlot t rw with
  | some r =>
      simp only [hfree, pure_run, Res.ok.injEq, Sum.inr.injEq] at hbody
      exact fun hnone => absurd (hbody.1.trans hnone) (by simp)
  | none =>
      simp only [hfree, ite_run, pure_run] at hbody
      split at hbody
      · rename_i hahead
        simp only [Res.ok.injEq] at hbody
        exact fun _ => ⟨hahead, hbody.2 ▸ hfree⟩
      · obtain ⟨⟨⟩, u, -, hret⟩ := bind_eq_ok.mp hbody
        simp at hret

/-- What `ll_rw_block` makes of a call for a buffer of the hard disk: with the buffer locked it
finds that there is nothing to do, or it makes a request, or it finds no slot for a read-ahead. -/
inductive Requested (env : Env n) (rw : Rw) (b : Fin n) (s s' : Sys n) : Prop
  | done {t : Sys n} : Submits env (.idle, s) (⟨some b, none, none⟩, t) →
      rw.plain = .write ∧ (t.buf b).bDirt = false ∨ rw.plain = .read ∧ (t.buf b).bUptodate = true →
      s' = unlockBuff b t → Requested env rw b s s'
  | made {u : Sys n} {r : Fin nrRequest} :
      Submits env (.idle, s) (⟨some b, some rw.plain, some r⟩, u) → u.Queued b rw.plain →
      Submits env (⟨some b, some rw.plain, some r⟩, u) (.idle, s') → Requested env rw b s s'
  | noSlot {t : Sys n} : rw.isAhead = true →
      Submits env (.idle, s) (⟨some b, some rw.plain, none⟩, t) → freeSlot t rw.plain = none →
      s' = unlockBuff b t → Requested env rw b s s'

theorem llRwBlock_requested {rw : Rw} {u : Unit} (hmajor : major (s.buf b).bDev = 3)
    (hen : s.hdEnabled = true) (hlock : (s.buf b).bLock = false)
    (h : llRwBlock rw b env k s = .ok u s') : Requested env rw b s s' := by
  unfold llRwBlock at h
  simp only [read_bind, ite_run, pure_run] at h
  have hdriven : ¬ (major (s.buf b).bDev ≥ nrBlkDev ∨
      ¬ (major (s.buf b).bDev = 3 ∧ s.hdEnabled)) := by
    simp [hmajor, hen, nrBlkDev]
  rw [if_neg hdriven, if_neg (by simp [hlock])] at h
  simp only [not_or, not_not] at hdriven
  rw [bind_eq_ok] at h
  obtain ⟨⟨⟩, s₁, hl, h⟩ := h
  rw [bind_eq_ok] at h
  obtain ⟨⟨⟩, t, hpoll, h⟩ := h
  simp only [lockBuff, cli, sti, update_bind, update_run, Res.ok.injEq, true_and] at hl
  subst hl
  have hlocked : Submits env (.idle, s) (⟨some b, none, none⟩, t) := by
    refine .trans ?_ (poll_submits hpoll)
    refine .head (.time s.clock false) (.head (.lock (b := b) hlock hdriven.2.1 hdriven.2.2) ?_)
    exact setIntr_submits true
  simp only [read_bind, ite_run, update_run] at h
  split at h
  · -- the buffer is clean or up to date already: nothing is asked for
    rename_i hflags
    simp only [Res.ok.injEq] at h
    exact .done hlocked (by simpa using hflags) h.2.symm
  rename_i hflags
  simp only [not_or, not_and, Bool.not_eq_true, Bool.not_eq_false'] at hflags
  have hcheck : Submits env (⟨some b, none, none⟩, t) (⟨some b, some rw.plain, none⟩, t) :=
    .single (.check rw.plain_cases hflags.1 hflags.2)
  obtain ⟨slot, s₂, hslot, h⟩ := bind_eq_ok.mp h
  obtain ⟨hpath, hfree⟩ : Submits env (⟨some b, some rw.plain, none⟩, t)
      (⟨some b, some rw.plain, none⟩, s₂) ∧
    ∀ r, slot = some r → freeSlot s₂ rw.plain = some r := findSlot_submits hslot
  have hchecked := hlocked.trans (hcheck.trans hpath)
  -- a read ahead gives up without a slot, any other request waits for one
  cases slot with
  | none =>
      obtain ⟨hahead, hnone⟩ := findSlot_none hslot
      simp only [update_run, Res.ok.injEq, true_and] at h
      exact .noSlot hahead hchecked hnone h.symm
  | some r =>
      simp only [update_bind, bind_eq_ok] at h
      obtain ⟨⟨⟩, s₃, hpoll₂, hadd⟩ := h
      refine .made (hchecked.tail (.fill (hfree r rfl))) ⟨r, by simp [makeRequest],
        by simp [makeRequest], by simp [makeRequest]⟩ ?_
      exact (poll_submits hpoll₂).trans (addRequest_submits hadd)

/-- After a write request the buffer is clean. -/
theorem Working.llRwBlock_write {u : Unit} (henv : env.Works which) (h : Working which .idle s)
    (hmajor : major (s.buf b).bDev = 3) (hlock : (s.buf b).bLock = false)
    (hrun : llRwBlock .write b env k s = .ok u s') : (s'.buf b).bDirt = false := by
  cases llRwBlock_requested hmajor h.enabled hlock hrun with
  | @done t hpath hflags heq =>
      have hclean : (t.buf b).bDirt = false := by simpa [Rw.plain] using hflags
      rwa [heq, unlockBuff, Sys.setBuf_at (·.bDirt), ite_self]
  | made hmade _ hjoin =>
      obtain ⟨-, hmoves⟩ := (h.submits henv hmade).serving.submits henv.answers hjoin
      have hwriting : Writing b (.idle, s') := hmoves.writing (.inl ⟨rfl, by simp⟩)
      exact hwriting.resolve_left fun hl => hl.2 rfl
  | noSlot hahead _ _ _ => exact absurd hahead (by decide)

/-- After a read request the buffer is up to date or will be. -/
theorem Working.llRwBlock_read {u : Unit} (henv : env.Works which) (hall : ∀ cmd, which cmd)
    (h : Working which .idle s) (hmajor : major (s.buf b).bDev = 3)
    (hlock : (s.buf b).bLock = false) (hrun : llRwBlock .read b env k s = .ok u s') :
    Reading b s' := by
  cases llRwBlock_requested hmajor h.enabled hlock hrun with
  | @done t hpath hflags heq =>
      have hup : (t.buf b).bUptodate = true := by simpa [Rw.plain] using hflags
      refine .inl ?_
      rwa [heq, unlockBuff, Sys.setBuf_at (·.bUptodate), ite_self]
  | made hmade hqueued hjoin =>
      have hworking := h.submits henv hmade
      obtain ⟨-, hmoves⟩ := hworking.serving.submits henv.answers hjoin
      refine hmoves.reading (fun e he hf => ?_) (.inr hqueued)
      exact (hworking.submits henv hjoin).spared.log e he (hf.mono fun cmd _ => hall cmd)
  | noSlot hahead _ _ _ => exact absurd hahead (by decide)

/-! ## Looking up -/

theorem findBuff_missing (h : Links s) (hdev : dev ≠ 0) (hb : ∀ c, ¬ s.Keyed c dev block) :
    Evals (findBuff dev block) env s none s :=
  ⟨n + 1, fun _ hk => (h.findBuff_exact hdev (by omega)).2 hb⟩

theorem Links.found (h : Links s) (hdev : dev ≠ 0) (hb : s.Keyed b dev block)
    (hlock : (s.buf b).bLock = false) : Found env s dev block b :=
  ⟨⟨n + 1, (h.findBuff_exact hdev (Nat.lt_succ_self n)).1 b hb⟩, hb, hlock⟩

/-! ## The invariant -/

/-- The cache is in order between two calls, and the devices of its dirty buffers have a
driver.  The field `b_count` is a char. -/
structure Ready (which : Rw → Prop) (s : Sys n) : Prop where
  working : Working which .idle s
  links : Links s
  dirty : ∀ b, (s.buf b).bDirt = true → major (s.buf b).bDev = 3
  count : ∀ b, (s.buf b).bCount < 256

namespace Ready

/-- **The request layer keeps the cache in order.** -/
theorem submits (henv : env.Works which) (h : Ready which s)
    (hpath : Submits env (.idle, s) (.idle, s')) : Ready which s' := by
  obtain ⟨-, hmoves⟩ := h.working.serving.submits henv.answers hpath
  refine ⟨h.working.submits henv hpath, h.links.congr (.of_rest hpath.rest), fun b hb => ?_,
    fun b => ?_⟩
  · have hdev : (s'.buf b).bDev = (s.buf b).bDev := congrArg BufferLinks.bDev (hpath.links b)
    rw [hdev]
    refine h.dirty b ?_
    by_contra hclean
    exact absurd (hb.symm.trans (hmoves.clean (Bool.eq_false_iff.mpr hclean))) (by decide)
  · have hcount : (s'.buf b).bCount = (s.buf b).bCount :=
      congrArg BufferLinks.bCount (hpath.links b)
    rw [hcount]
    exact h.count b

/-- To return, the calls need no request to succeed. -/
theorem calls (h : Ready which s) : Ready (fun _ => False) s where
  working :=
    { h.working with
      spared := ⟨fun e he hf => h.working.spared.log e he (hf.mono fun _ hfalse => hfalse.elim),
        fun _ _ _ hfalse => hfalse.elim⟩
      inside := fun _ _ hfalse => hfalse.elim }
  links := h.links
  dirty := h.dirty
  count := h.count

theorem unqueued (h : Ready which s) (hlock : (s.buf b).bLock = false) (cmd : Rw) :
    ¬ s.Queued b cmd := fun hb =>
  absurd ((h.working.serving.pooled.queued_locked hb).symm.trans hlock) (by decide)

theorem touched (h : Ready which s) (ht : Touched s s') (hen : s'.hdEnabled = s.hdEnabled)
    (hinside : ∀ b cmd, which cmd → (s'.buf b).bDev ≠ 0 →
      s.geo.Inside (s'.buf b).bDev (s'.buf b).bBlocknr)
    (hlinks : Links s') (hdirty : ∀ b, (s'.buf b).bDirt = true → major (s'.buf b).bDev = 3)
    (hcount : ∀ b, (s'.buf b).bCount < 256) : Ready which s' := by
  refine ⟨⟨h.working.serving.touched ht, h.working.spared.touched ht, ht.geo ▸ h.working.drives,
    hen.trans h.working.enabled, ht.geo.symm ▸ hinside, ?_⟩, hlinks, hdirty, hcount⟩
  rw [ht.current, ht.ctl]
  exact h.working.going

/-! ## Waiting and looking up -/

section
variable (henv : env.Works which)
include henv

theorem poll (h : Ready which s) : Does poll env s fun _ s' => Submits env (.idle, s) (.idle, s') :=
  (h.working.poll_returns henv).does fun _ _ _ hrun => poll_submits hrun

theorem waitOnBuff (h : Ready which s) (b : Fin n) :
    Does (waitOnBuff b) env s fun _ s' =>
      Submits env (.idle, s) (.idle, s') ∧ (s'.buf b).bLock = false :=
  (h.working.waitOnBuff_returns henv (by simp)).does fun _ _ _ hrun => waitOnBuff_submits .idle hrun

/-- **`retain_buff`** finds the header of the block or finds that there is none. -/
theorem retainBuff (h : Ready which s) (hdev : dev ≠ 0) :
    Does (retainBuff dev block) env s fun found s' => Retained env s dev block found s' ∧
      (found = none → ∀ c, ¬ s.Keyed c dev block) := by
  refine .iterate ((h.poll henv).bind fun _ t hpath => ?_)
  have ht := h.submits henv hpath
  by_cases hfound : ∃ b, t.Keyed b dev block
  · obtain ⟨b, hb⟩ := hfound
    refine (Evals.does (findBuff_evals ht.links hdev hb)
      (Q := fun found t' => found = some b ∧ t' = t) ⟨rfl, rfl⟩).bind ?_
    rintro _ _ ⟨rfl, rfl⟩
    refine (ht.waitOnBuff henv b).bind fun _ u ⟨hwait, hlock⟩ => .bind_read ?_
    have hu := ht.submits henv hwait
    have hbu : u.Keyed b dev block := hwait.keyed hb
    refine .ite (fun hne => ?_) fun _ => .bind_update (.pure ⟨_, rfl, ?_⟩)
    · rcases hne with hne | hne
      · exact absurd hbu.1 hne
      · exact absurd hbu.2 hne
    · exact ⟨⟨u, hpath.trans hwait, hu.links.found hdev hbu hlock, rfl⟩, by simp⟩
  · have hnone : ∀ c, ¬ t.Keyed c dev block := fun c hc => hfound ⟨c, hc⟩
    refine (Evals.does (findBuff_missing ht.links hdev hnone)
      (Q := fun found t' => found = none ∧ t' = t) ⟨rfl, rfl⟩).bind ?_
    rintro _ _ ⟨rfl, rfl⟩
    exact .pure ⟨_, rfl, hpath, fun _ c hc => hnone c (hpath.keyed hc)⟩

/-- **`sync_dev`** leaves no dirty buffer of its device. -/
theorem syncDev (h : Ready which s) (dev : ℕ) :
    Does (syncDev dev) env s fun _ s' => Submits env (.idle, s) (.idle, s') ∧
      ∀ b, (s'.buf b).bDev = dev → (s'.buf b).bDirt = false := by
  let I : List (Fin n) → Sys n → Prop := fun bs t => Submits env (.idle, s) (.idle, t) ∧
    ∀ b, b ∉ bs → (t.buf b).bDev = dev → (t.buf b).bDirt = false
  -- nothing that happens while `sync_dev` goes on makes a buffer dirty
  have hclean : ∀ {t t' : Sys n} {b : Fin n}, Submits env (.idle, s) (.idle, t) →
      Submits env (.idle, t) (.idle, t') → ((t.buf b).bDev = dev → (t.buf b).bDirt = false) →
      (t'.buf b).bDev = dev → (t'.buf b).bDirt = false := by
    intro t t' b hpath hpath' hb hdev'
    have ht := h.submits henv hpath
    have hlinks := congrArg BufferLinks.bDev (hpath'.links b)
    obtain ⟨-, hmoves⟩ := ht.working.serving.submits henv.answers hpath'
    exact hmoves.clean (hb (hlinks.symm.trans hdev'))
  have hround : ∀ b bs t, I (b :: bs) t → Does (do
      EgGS.poll
      let s ← Prog.read
      if (s.buf b).bDev ≠ dev then
        pure ()
      else do
        EgGS.waitOnBuff b
        let s ← Prog.read
        if (s.buf b).bDev = dev ∧ (s.buf b).bDirt then
          llRwBlock .write b
        else
          pure () : P n Unit) env t fun _ t' => I bs t' := by
    rintro b bs t ⟨hpath, hdone⟩
    have ht := h.submits henv hpath
    have hkeep : ∀ {t' : Sys n}, Submits env (.idle, t) (.idle, t') →
        ((t'.buf b).bDev = dev → (t'.buf b).bDirt = false) → I bs t' := by
      intro t' hpath' hb
      refine ⟨hpath.trans hpath', fun c hc => ?_⟩
      by_cases hcb : c = b
      · exact hcb ▸ hb
      · exact hclean hpath hpath' (hdone c (by simp [hcb, hc]))
    refine (ht.poll henv).bind fun _ u hpoll => .bind_read (.ite (fun hne => .pure ?_) fun _ => ?_)
    · exact hkeep hpoll fun hb => absurd hb hne
    have hu := ht.submits henv hpoll
    refine (hu.waitOnBuff henv b).bind fun _ v ⟨hwait, hlock⟩ => .bind_read ?_
    have hv := hu.submits henv hwait
    refine .ite (fun hdirty => ?_) fun hdirty => .pure (hkeep (hpoll.trans hwait) fun hb => ?_)
    · refine (hv.working.llRwBlock_returns henv hlock).does fun k _ w hrun => ?_
      exact hkeep ((hpoll.trans hwait).trans (llRwBlock_submits hlock hrun)) fun _ =>
        hv.working.llRwBlock_write henv (hv.dirty b hdirty.2) hlock hrun
    · exact Bool.eq_false_iff.mpr fun hd => hdirty ⟨hb, hd⟩
  refine (Does.forEach hround (List.finRange n) s ⟨.refl, fun b hb => absurd (by simp) hb⟩).mono ?_
  exact fun _ s' ⟨hpath, hdone⟩ => ⟨hpath, fun b => hdone b (by simp)⟩

/-- The victim of `new_buff` is written back if it is dirty. -/
theorem cleanVictim (h : Ready which s) (hcount : (s.buf b).bCount = 0)
    (hlock : (s.buf b).bLock = false) :
    Does (cleanVictim b) env s fun unused s' => unused = true ∧
      Submits env (.idle, s) (.idle, s') ∧ (s'.buf b).bCount = 0 ∧ (s'.buf b).bLock = false ∧
      (s'.buf b).bDirt = false := by
  let round : P n (Unit ⊕ Bool) := do
    let s ← Prog.read
    if (s.buf b).bDirt then do
      EgGS.syncDev (s.buf b).bDev
      EgGS.waitOnBuff b
      let s ← Prog.read
      if (s.buf b).bCount ≠ 0 then
        pure (.inr false)
      else
        pure (.inl ())
    else
      pure (.inr true)
  have hlast : ∀ t : Sys n, (t.buf b).bDirt = false → Evals round env t (.inr true) t := by
    intro t hclean
    refine .of_eq fun k => ?_
    show (Prog.read >>= _ : P n _) env k t = _
    rw [read_bind, ite_run, if_neg (by simp [hclean])]
    rfl
  cases hdirt : (s.buf b).bDirt with
  | false =>
      -- clean from the start
      exact (LoopEnds.done (hlast s hdirt)).evals.does ⟨rfl, .refl, hcount, hlock, hdirt⟩
  | true =>
      -- one round of writing: `sync_dev` cleans all buffers of the device, and nobody dirties this
      -- one while it is waited for
      have hfirst : Does round env s fun x s' => x = .inl () ∧ Submits env (.idle, s) (.idle, s') ∧
          (s'.buf b).bCount = 0 ∧ (s'.buf b).bLock = false ∧ (s'.buf b).bDirt = false := by
        refine .bind_read (.ite (fun _ => ?_) fun hclean => absurd hdirt hclean)
        refine (h.syncDev henv _).bind fun _ t ⟨hpath, hclean⟩ => ?_
        have ht := h.submits henv hpath
        refine (ht.waitOnBuff henv b).bind fun _ u ⟨hwait, hlock'⟩ => .bind_read ?_
        have hlinks : (u.buf b).toBufferLinks = (s.buf b).toBufferLinks :=
          (Submits.links hwait b).trans (Submits.links hpath b)
        have hcount' : (u.buf b).bCount = 0 := (congrArg BufferLinks.bCount hlinks).trans hcount
        have hdev' : (t.buf b).bDev = (s.buf b).bDev :=
          congrArg BufferLinks.bDev (Submits.links hpath b)
        obtain ⟨-, hmoves⟩ := ht.working.serving.submits henv.answers hwait
        refine .ite (fun hne => absurd hcount' hne) fun _ =>
          .pure ⟨rfl, hpath.trans hwait, hcount', hlock', ?_⟩
        exact hmoves.clean (hclean b hdev')
      obtain ⟨x, u, heval, rfl, hpath, hcount', hlock', hclean⟩ := hfirst
      have hends : LoopEnds (fun _ => round) env () s (.ok true u) :=
        .step heval (.done (hlast u hclean))
      exact hends.evals.does ⟨rfl, hpath, hcount', hlock', hclean⟩

end

end Ready

end EgGS
