import EgGS.Block.Success
import EgGS.Cache.Runs

/-!
# The flags of a buffer

The steps of the buffer cache leave the request layer alone and do not touch the key
and the contents of a locked buffer; `Touched` says so, and the invariants of the driver
survive them.

`Flags` ties `b_uptodate` and `b_dirt` to the queue: a dirty buffer is up to date, the
buffer of a queued read is not, and the buffer of a queued write is.  The last of these
rests on the condition that no write ends as failed: `end_request` clears `b_uptodate`
of a write that failed, and nothing sets `b_dirt` again.
-/

namespace EgGS

open Lib Prog Relation

variable {n : ℕ} {env : Env n} {k : ℕ} {s s' : Sys n}
variable {sub : Submission n} {b : Fin n} {which : Rw → Prop}

/-! ## Steps of the buffer cache, seen from the driver -/

/-- Requests and hardware are left alone, and so are the locked buffers but for a change
of contents that is marked dirty. -/
structure Touched (s s' : Sys n) : Prop where
  request : s'.request = s.request
  current : s'.current = s.current
  handler : s'.handler = s.handler
  ctl : s'.ctl = s.ctl
  disk : s'.disk = s.disk
  geo : s'.geo = s.geo
  lock : ∀ b, (s'.buf b).bLock = (s.buf b).bLock
  held : ∀ b, (s.buf b).bLock = true → SameHead s s' b
  log : ∃ es, s'.log = es ++ s.log ∧ ∀ which, ∀ e ∈ es, ¬ e.Failed which

/-- Fields of one header are assigned. -/
theorem Touched.setBuf {f : BufferHead n → BufferHead n}
    (hlock : (f (s.buf b)).bLock = (s.buf b).bLock)
    (hheld : (s.buf b).bLock = true → SameHead s (s.setBuf b f) b) : Touched s (s.setBuf b f) := by
  refine ⟨rfl, rfl, rfl, rfl, rfl, rfl, fun c => ?_, fun c hc => ?_, [], rfl, by simp⟩
  · by_cases hcb : c = b
    · subst hcb; simpa using hlock
    · simp [hcb]
  · by_cases hcb : c = b
    · subst hcb
      exact hheld hc
    · exact .of_eq (by simp [hcb])

/-- An event that ends no request is recorded. -/
theorem Touched.note {e : Event n} (h : Touched s s') (he : ∀ which, ¬ e.Failed which) :
    Touched s (s'.note e) := by
  obtain ⟨es, hlog, hes⟩ := h.log
  refine ⟨h.request, h.current, h.handler, h.ctl, h.disk, h.geo, h.lock, fun c hc => ?_, e :: es,
    by rw [Sys.note_log, hlog]; rfl, fun which e' he' => ?_⟩
  · exact ⟨(h.held c hc).key, (h.held c hc).clean⟩
  · rcases List.mem_cons.mp he' with rfl | he'
    · exact he which
    · exact hes which e' he'

/-- The count of a header is not looked at. -/
theorem Touched.count (s : Sys n) (b : Fin n) (count : ℕ) :
    Touched s (s.setBuf b fun bh => { bh with bCount := count }) :=
  .setBuf rfl fun _ => ⟨by simp [Sys.Keyed], by simp⟩

theorem Serving.touched (h : Serving .idle s) (ht : Touched s s') : Serving .idle s' := by
  refine ⟨h.pooled.congr ⟨fun r => .inl (congrFun ht.request r), ht.current,
    fun b hb => (ht.held b hb).key, ht.lock⟩, h.transfer.congr ht.ctl ht.handler ht.disk
    ht.geo ht.current (fun r _ => ⟨_, congrFun ht.request r⟩) fun r b hr hb => ?_⟩
  exact ht.held b (h.pooled.locked_head hr hb).1

theorem Spared.touched (h : Spared which s) (ht : Touched s s') : Spared which s' := by
  obtain ⟨es, hlog, hes⟩ := ht.log
  refine ⟨fun e he => ?_, fun hh r hr hcmd => ?_⟩
  · rw [hlog, List.mem_append] at he
    exact he.elim (hes which e) (h.log e)
  · rw [ht.handler] at hh
    rw [ht.current] at hr
    rw [ht.request] at hcmd
    rw [Sys.Passes, ht.geo, ht.request]
    exact h.resumed hh r hr hcmd

theorem Touched.queued (h : Touched s s') (c : Fin n) (cmd : Rw) :
    s'.Queued c cmd ↔ s.Queued c cmd := Sys.queued_congr h.request c cmd

theorem Recyclable.touched {dev block : ℕ} (h : Recyclable env s dev block b)
    (hreuse : reuse b dev block env k s = .ok () s') : Touched s s' := by
  obtain ⟨hstate, hself, hother⟩ := reuse_spec hreuse
  have hlock : ∀ c, (s'.buf c).bLock = (s.buf c).bLock := by
    intro c
    by_cases hcb : c = b
    · subst hcb
      exact congrArg BufferCore.bLock hself
    · exact congrArg BufferCore.bLock (hother c hcb)
  refine ⟨by rw [hstate], by rw [hstate], by rw [hstate], by rw [hstate], by rw [hstate],
    by rw [hstate], hlock, fun c hc => ?_, [.recycled b], by rw [hstate]; rfl, ?_⟩
  · have hcb : c ≠ b := by
      rintro rfl
      exact absurd (hc.symm.trans h.lock) (by decide)
    have hcore := hother c hcb
    refine ⟨⟨congrArg BufferCore.bDev hcore, congrArg BufferCore.bBlocknr hcore⟩, fun hclean => ?_⟩
    exact ⟨(congrArg BufferCore.bDirt hcore).symm.trans hclean, congrArg BufferCore.bData hcore⟩
  · intro which e he
    rw [List.mem_singleton.mp he]
    exact id

theorem Touched.store (s : Sys n) (b : Fin n) (data : Block) : Touched s (store b data s) :=
  .note (.setBuf rfl fun _ => ⟨by simp [Sys.Keyed], by simp⟩) fun _ => id

theorem Touched.zero (hlock : (s.buf b).bLock = false) : Touched s (s.zero b) := by
  refine .note (.setBuf rfl fun hb => ?_) fun _ => id
  exact absurd (hb.symm.trans hlock) (by decide)

theorem Touched.invalidate (hlock : (s.buf b).bLock = false) : Touched s (s.invalidate b) := by
  refine .note (.setBuf rfl fun hb => ?_) fun _ => id
  exact absurd (hb.symm.trans hlock) (by decide)

/-- Every step of the buffer cache is one of the request layer or touches nothing of it. -/
theorem CacheStep.touched {asked : ℕ → ℕ → Prop} {may : Sys n → Change n → Prop}
    (h : CacheStep env asked may s s') :
    Submits env (.idle, s) (.idle, s') ∨ Touched s s' := by
  cases h with
  | block hpath => exact .inl hpath
  | up b => exact .inr (.count _ b _)
  | down b => exact .inr (.count _ b _)
  | reuse _ hrec hreuse => exact .inr (hrec.touched hreuse)
  | copy mem =>
      exact .inr ⟨rfl, rfl, rfl, rfl, rfl, rfl, fun _ => rfl, fun _ _ => .of_eq rfl, [], rfl, by
        simp⟩
  | store data _ => exact .inr (.store _ _ data)
  | zero _ hlock => exact .inr (.zero hlock)
  | invalidate _ hlock => exact .inr (.invalidate hlock)

/-! ## The flags and the queue -/

/-- The buffer `b` is in the state in which a request `cmd` is made for it: a read is for
a buffer that is not up to date, a write for one that is, with a block inside its
partition. -/
def Sys.Due (s : Sys n) (b : Fin n) : Rw → Prop
  | .read => (s.buf b).bUptodate = false
  | .write => (s.buf b).bUptodate = true ∧ s.geo.Inside (s.buf b).bDev (s.buf b).bBlocknr
  | _ => False

theorem Sys.Due.congr {cmd : Rw} (h : s.Due b cmd) (hgeo : s'.geo = s.geo)
    (hkey : s'.Keyed b (s.buf b).bDev (s.buf b).bBlocknr)
    (hup : (s'.buf b).bUptodate = (s.buf b).bUptodate) : s'.Due b cmd := by
  obtain ⟨hdev, hnr⟩ := hkey
  cases cmd with
  | read => exact hup.trans h
  | write => exact ⟨hup.trans h.1, by rw [hgeo, hdev, hnr]; exact h.2⟩
  | readA => exact h
  | writeA => exact h

/-- A buffer is not read and written at once. -/
theorem Sys.Due.not_read (h : s.Due b .write) : ¬ s.Due b .read :=
  fun hread => absurd (h.1.symm.trans hread) (by decide)

/-- The flags agree with the queue, and with the request that is being made. -/
structure Flags (sub : Submission n) (s : Sys n) : Prop where
  dirty : ∀ b, (s.buf b).bDirt = true → s.Due b .write
  queued : ∀ b cmd, s.Queued b cmd → s.Due b cmd
  decided : ∀ b cmd, sub.buf = some b → sub.cmd = some cmd → s.Due b cmd

namespace Flags

/-- Nothing of the flags changes but that buffers may become clean. -/
theorem congr {sub' : Submission n} (h : Flags sub s) (hrest : s'.rest = s.rest)
    (hup : ∀ c, (s'.buf c).bUptodate = (s.buf c).bUptodate)
    (hdirt : ∀ c, (s'.buf c).bDirt = true → (s.buf c).bDirt = true)
    (hqueued : ∀ c cmd, s'.Queued c cmd → s.Queued c cmd ∨ sub.buf = some c ∧ sub.cmd = some cmd)
    (hsub : ∀ c cmd, sub'.buf = some c → sub'.cmd = some cmd →
      sub.buf = some c ∧ sub.cmd = some cmd) : Flags sub' s' := by
  have hgeo : s'.geo = s.geo := congrArg Rest.geo hrest
  have hkey : ∀ c, s'.Keyed c (s.buf c).bDev (s.buf c).bBlocknr := fun c =>
    .of_links (congrFun (congrArg Rest.links hrest) c)
  refine ⟨fun c hc => (h.dirty c (hdirt c hc)).congr hgeo (hkey c) (hup c), fun c cmd hc => ?_,
    fun c cmd hc hcmd => ?_⟩
  · rcases hqueued c cmd hc with hold | ⟨hbuf, hcmd⟩
    · exact (h.queued c cmd hold).congr hgeo (hkey c) (hup c)
    · exact (h.decided c cmd hbuf hcmd).congr hgeo (hkey c) (hup c)
  · obtain ⟨hbuf, hcmd'⟩ := hsub c cmd hc hcmd
    exact (h.decided c cmd hbuf hcmd').congr hgeo (hkey c) (hup c)

/-- A lock is no flag. -/
theorem setLock {sub' : Submission n} (h : Flags sub s) (b : Fin n) (lock : Bool)
    (hsub : ∀ c cmd, sub'.buf = some c → sub'.cmd = some cmd →
      sub.buf = some c ∧ sub.cmd = some cmd) :
    Flags sub' (s.setBuf b fun bh => { bh with bLock := lock }) := by
  refine h.congr (Sys.rest_setBuf s b (f := fun bh => { bh with bLock := lock }) fun _ => rfl)
    (fun c => ?_) (fun c hc => ?_) (fun c cmd => .inl) hsub
  · rw [Sys.setBuf_at (·.bUptodate), ite_self]
  · rwa [Sys.setBuf_at (·.bDirt), ite_self] at hc

/-- The driver keeps the flags as long as no write fails. -/
theorem effect (h : Flags sub s) (heff : Effect sub s s')
    (hlog : ∀ e ∈ s'.log, ¬ e.Failed (· = .write)) : Flags sub s' := by
  -- only the end of a request changes flags
  cases heff with
  | none hrest hbuf _ hqueued _ =>
      exact h.congr hrest (fun c => by rw [hbuf]) (fun c hc => by rwa [hbuf] at hc)
        (fun c cmd hc => .inl ((hqueued c cmd).mp hc)) fun c cmd hc hcmd => ⟨hc, hcmd⟩
  | @load b hrest _ _ hother hself _ hqueued _ =>
      have hsame : ∀ c, (s'.buf c).bUptodate = (s.buf c).bUptodate ∧
          (s'.buf c).bDirt = (s.buf c).bDirt := by
        intro c
        by_cases hcb : c = b
        · subst hcb
          exact ⟨by rw [hself], by rw [hself]⟩
        · rw [hother c hcb]
          exact ⟨rfl, rfl⟩
      exact h.congr hrest (fun c => (hsame c).1) (fun c hc => (hsame c).2.symm.trans hc)
        (fun c cmd hc => .inl ((hqueued c cmd).mp hc)) fun c cmd hc hcmd => ⟨hc, hcmd⟩
  | save hrest _ _ hbuf _ hqueued _ =>
      exact h.congr hrest (fun c => by rw [hbuf]) (fun c hc => by rwa [hbuf] at hc)
        (fun c cmd hc => .inl ((hqueued c cmd).mp hc)) fun c cmd hc hcmd => ⟨hc, hcmd⟩
  | @done b cmd ok hrest hb hsub hcmd hbuf _ hqueued _ hended =>
      have hgeo : s'.geo = s.geo := congrArg Rest.geo hrest
      have hother : ∀ c, c ≠ b → ∀ cmd, s.Due c cmd → s'.Due c cmd := fun c hcb cmd hc =>
        hc.congr hgeo (.of_links (congrFun (congrArg Rest.links hrest) c))
          (by rw [hbuf, Function.update_of_ne hcb])
      refine ⟨fun c hc => ?_, fun c cmd' hc => ?_, fun c cmd' hc hcmd' => ?_⟩
      · by_cases hcb : c = b
        · subst hcb
          have hdirt : (s.buf c).bDirt = true := by simpa [hbuf] using hc
          have hwrite := h.dirty c hdirt
          -- the request that ended is a write, as the buffer is dirty, and it did not fail
          rcases hcmd with rfl | rfl
          · exact absurd (h.queued c .read hb) hwrite.not_read
          · have hok : ok = true := by
              cases ok with
              | true => rfl
              | false =>
                  rw [hended] at hlog
                  have hfailed := hlog _ (List.mem_cons_self ..)
                  exact (hfailed rfl).elim
            refine hwrite.congr hgeo (.of_links (congrFun (congrArg Rest.links hrest) c)) ?_
            rw [hbuf, Function.update_self, hok, hwrite.1]
        · refine hother c hcb .write (h.dirty c ?_)
          rwa [hbuf, Function.update_of_ne hcb] at hc
      · obtain ⟨hc, hcb⟩ := (hqueued c cmd').mp hc
        exact hother c hcb cmd' (h.queued c cmd' hc)
      · refine hother c (fun hcb => hsub (hcb ▸ hc)) cmd' (h.decided c cmd' hc hcmd')

/-- A step of the request layer keeps the flags as long as no write fails. -/
theorem move {x y : Submission n × Sys n} (h : Flags x.1 x.2) (hmove : Move x y)
    (hlog : ∀ e ∈ y.2.log, ¬ e.Failed (· = .write)) : Flags y.1 y.2 := by
  cases hmove with
  | effect heff => exact h.effect heff hlog
  | @lock s b _ =>
      exact h.setLock b true (by simp)
  | @check s b rw hrw hdirt hup =>
      refine ⟨h.dirty, h.queued, fun c cmd hc hcmd => ?_⟩
      obtain rfl : b = c := Option.some.inj hc
      obtain rfl : rw = cmd := Option.some.inj hcmd
      rcases hrw with rfl | rfl
      · exact hup rfl
      · exact h.dirty b (hdirt rfl)
  | @giveUp s b cmd _ =>
      exact h.setLock b false (by simp)
  | @fill s b rw r hfree _ =>
      refine h.congr rfl (fun _ => rfl) (fun _ => id) (fun c cmd hc => ?_)
        fun c cmd hc hcmd => ⟨hc, hcmd⟩
      obtain ⟨r', hused, hbh, hcmd⟩ := hc
      by_cases hr : r' = r
      · subst hr
        exact .inr ⟨by simpa [makeRequest] using hbh, by simpa [makeRequest] using hcmd⟩
      · exact .inl ⟨r', by simpa [hr] using hused, by simpa [hr] using hbh, by
          simpa [hr] using hcmd⟩
  | @offer s s' b cmd r hb hrest _ hbuf hqueued _ =>
      refine h.congr hrest (fun c => ?_) (fun c hc => ?_)
        (fun c cmd' hc => .inl ((hqueued c cmd').mp hc)) (by simp)
      · by_cases hcb : c = b
        · subst hcb; simp [hbuf]
        · simp [hbuf, hcb]
      · by_cases hcb : c = b
        · subst hcb; simp [hbuf] at hc
        · simpa [hbuf, hcb] using hc

end Flags

end EgGS
