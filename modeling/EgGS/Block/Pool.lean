import EgGS.Block.Submit
import EgGS.Lib.Linked

/-!
# The request pool

`Pool sub s q` is the invariant of the request layer: `q` is the queue of the
hard disk, it occupies exactly the slots in use, every request in it has a
locked buffer of its own, and nothing else is locked.

A call of `ll_rw_block` in progress has a buffer and a slot that are not yet part
of the queue.  Interrupts arrive in the middle of such a call, so the invariant
is stated with the `Submission` and kept by every `Submit` step, whatever the
controller answers.
-/

namespace EgGS

open Lib Prog

variable {n : ℕ} {env : Env n} {k : ℕ} {s s' : Sys n}

/-- The request in slot `r` is a request for the locked buffer `b`, of which
`2 - nr_sectors` sectors are done. -/
structure Good (s : Sys n) (r : Fin nrRequest) (b : Fin n) : Prop where
  bh : (s.request r).bh = some b
  lock : (s.buf b).bLock = true
  dev : (s.request r).dev = (s.buf b).bDev
  major : major (s.buf b).bDev = 3
  cmd : (s.request r).cmd = .read ∨ (s.request r).cmd = .write
  left : (s.request r).nrSectors = 1 ∨ (s.request r).nrSectors = 2
  buffer : (s.request r).buffer = some ⟨b, 512 * (2 - (s.request r).nrSectors)⟩
  sector : (s.request r).sector =
    ((s.buf b).bBlocknr * 2 + (2 - (s.request r).nrSectors)) % 4294967296
  slot : (s.request r).cmd = .write → r.val < nrRequest * 2 / 3

/-- The invariant of the request pool, with the queue `q`. -/
structure Pool (sub : Submission n) (s : Sys n) (q : List (Fin nrRequest)) : Prop where
  chain : Chain (fun r => (s.request r).next) s.current q
  slots : ∀ r, 0 ≤ (s.request r).dev ↔ r ∈ q ∨ sub.slot = some r
  fresh : ∀ r ∈ q, sub.slot ≠ some r
  good : ∀ r, r ∈ q ∨ sub.slot = some r → ∃ b, Good s r b
  own : ∀ r ∈ q, ∀ r' ∈ q, (s.request r).bh = (s.request r').bh → r = r'
  locked : ∀ b, (s.buf b).bLock = true ↔
    (∃ r ∈ q, (s.request r).bh = some b) ∨ sub.buf = some b
  apart : ∀ r ∈ q, (s.request r).bh ≠ sub.buf
  slotBuf : ∀ r, sub.slot = some r → (s.request r).bh = sub.buf ∧
    sub.cmd = some (s.request r).cmd
  untouched : ∀ r, r ∈ q.tail ∨ sub.slot = some r →
    (s.request r).errors = 0 ∧ (s.request r).nrSectors = 2
  taken : ∀ b, sub.buf = some b → EgGS.major (s.buf b).bDev = 3 ∧
    ∀ rw, sub.cmd = some rw → rw = .read ∨ rw = .write

variable {sub : Submission n} {q : List (Fin nrRequest)} {r : Fin nrRequest} {b : Fin n}

/-! ## Reading the invariant -/

namespace Pool

theorem current_eq (h : Pool sub s q) : s.current = q.head? := by
  cases q with
  | nil => exact h.chain
  | cons r q => exact h.chain.1

theorem nodup (h : Pool sub s q) : q.Nodup := h.chain.nodup

theorem eq_nil (h : Pool sub s q) (hcur : s.current = none) : q = [] := by
  have := h.current_eq
  cases q with
  | nil => rfl
  | cons r q => simp [hcur] at this

theorem eq_cons (h : Pool sub s q) (hcur : s.current = some r) : ∃ q', q = r :: q' := by
  have := h.current_eq
  cases q with
  | nil => simp [hcur] at this
  | cons r' q =>
      rw [hcur] at this
      exact ⟨q, by rw [Option.some.inj this]⟩

theorem goodMem (h : Pool sub s q) (hr : r ∈ q) : ∃ b, Good s r b := h.good r (.inl hr)

end Pool

theorem Sys.Keyed.of_links (h : (s'.buf b).toBufferLinks = (s.buf b).toBufferLinks) :
    s'.Keyed b (s.buf b).bDev (s.buf b).bBlocknr :=
  ⟨congrArg BufferLinks.bDev h, congrArg BufferLinks.bBlocknr h⟩

/-- A request depends on its slot, but not on its link, and on the key and the
lock of its buffer. -/
theorem Good.congr (h : Good s r b) (hreq : ∃ next, s'.request r = { s.request r with next })
    (hkey : s'.Keyed b (s.buf b).bDev (s.buf b).bBlocknr)
    (hlock : (s'.buf b).bLock = (s.buf b).bLock) : Good s' r b := by
  obtain ⟨hbh, hl, hdev, hmajor, hcmd, hleft, hbuffer, hsector, hslot⟩ := h
  obtain ⟨next, hreq⟩ := hreq
  obtain ⟨hkeyDev, hkeyNr⟩ := hkey
  constructor <;> simp only [hreq, hkeyDev, hkeyNr, hlock] <;> assumption

/-! ## What the invariant does not look at -/

/-- The pool depends on the slots in use, the head of the queue, the locks and the
keys of the locked buffers only. -/
structure SamePool (s s' : Sys n) : Prop where
  request : ∀ r, s'.request r = s.request r ∨ (s.request r).dev < 0 ∧ (s'.request r).dev < 0
  current : s'.current = s.current
  key : ∀ b, (s.buf b).bLock = true → s'.Keyed b (s.buf b).bDev (s.buf b).bBlocknr
  lock : ∀ b, (s'.buf b).bLock = (s.buf b).bLock

theorem SamePool.of_buf (hbuf : s'.buf = s.buf) (hreq : s'.request = s.request)
    (hcur : s'.current = s.current) : SamePool s s' :=
  ⟨fun r => .inl (congrFun hreq r), hcur, fun b _ => by rw [Sys.Keyed, hbuf]; exact ⟨rfl, rfl⟩,
    fun b => by rw [hbuf]⟩

theorem Pool.congr (h : Pool sub s q) (same : SamePool s s') : Pool sub s' q := by
  obtain ⟨hreq, hcur, hkey, hlock⟩ := same
  have hused : ∀ r, r ∈ q ∨ sub.slot = some r → s'.request r = s.request r := by
    intro r hr
    have := (h.slots r).mpr hr
    exact (hreq r).resolve_right fun hfree => by omega
  constructor
  · rw [hcur]
    exact h.chain.congr fun r hr => by rw [hused r (.inl hr)]
  · intro r
    rw [← h.slots r]
    rcases hreq r with heq | ⟨hfree, hfree'⟩
    · rw [heq]
    · omega
  · exact h.fresh
  · intro r hr
    obtain ⟨b, hb⟩ := h.good r hr
    exact ⟨b, hb.congr ⟨_, hused r hr⟩ (hkey b hb.lock) (hlock b)⟩
  · intro r hr r' hr'
    rw [hused r (.inl hr), hused r' (.inl hr')]
    exact h.own r hr r' hr'
  · intro b
    rw [hlock, h.locked b]
    refine or_congr_left (exists_congr fun r => and_congr_right fun hr => ?_)
    rw [hused r (.inl hr)]
  · intro r hr
    rw [hused r (.inl hr)]
    exact h.apart r hr
  · intro r hr
    rw [hused r (.inr hr)]
    exact h.slotBuf r hr
  · intro r hr
    rw [hused r (hr.imp List.mem_of_mem_tail id)]
    exact h.untouched r hr
  · intro b hb
    rw [(hkey b ((h.locked b).mpr (.inr hb))).1]
    exact h.taken b hb

/-! ## The request in service -/

/-- The request in service may be changed, as long as it stays a request of the
same buffer at the same place of the queue. -/
theorem Pool.setHead (h : Pool sub s (r :: q)) {f : Request n → Request n}
    (hnext : (f (s.request r)).next = (s.request r).next)
    (hbh : (f (s.request r)).bh = (s.request r).bh)
    (hdev : (f (s.request r)).dev = (s.request r).dev)
    (hcmd : (f (s.request r)).cmd = (s.request r).cmd)
    (hgood : ∀ b, Good s r b → Good (s.setRequest r f) r b) :
    Pool sub (s.setRequest r f) (r :: q) := by
  obtain ⟨hrq, hq⟩ := List.nodup_cons.mp h.nodup
  have hslot : sub.slot ≠ some r := h.fresh r (List.mem_cons_self ..)
  have hfield : ∀ {β : Type} (g : Request n → β), g (f (s.request r)) = g (s.request r) →
      ∀ r', g ((s.setRequest r f).request r') = g (s.request r') := by
    intro β g hg r'
    by_cases hr : r' = r
    · subst hr; simp [hg]
    · simp [hr]
  have hother : ∀ r', r' ≠ r → (s.setRequest r f).request r' = s.request r' := by
    intro r' hr
    simp [hr]
  -- the fields that `Pool` reads of the head are the same, except those of `Good`
  constructor
  · exact h.chain.congr fun r' _ => hfield Request.next hnext r'
  · intro r'
    rw [hfield Request.dev hdev]
    exact h.slots r'
  · exact h.fresh
  · intro r' hr'
    obtain ⟨b, hb⟩ := h.good r' hr'
    by_cases hr : r' = r
    · subst hr
      exact ⟨b, hgood b hb⟩
    · exact ⟨b, hb.congr ⟨_, hother r' hr⟩ ⟨rfl, rfl⟩ rfl⟩
  · intro r₁ h₁ r₂ h₂
    rw [hfield Request.bh hbh, hfield Request.bh hbh]
    exact h.own r₁ h₁ r₂ h₂
  · intro b
    simp only [hfield Request.bh hbh]
    exact h.locked b
  · intro r' hr'
    rw [hfield Request.bh hbh]
    exact h.apart r' hr'
  · intro r' hr'
    rw [hfield Request.bh hbh, hfield Request.cmd hcmd]
    exact h.slotBuf r' hr'
  · intro r' hr'
    rw [hother r' ?_]
    · exact h.untouched r' hr'
    · rintro rfl
      exact hr'.elim (fun hmem => hrq hmem) hslot
  · exact h.taken

/-- **Ending the request in service.**  Its slot is free and its buffer is
unlocked; the rest of the queue is as before. -/
theorem Pool.endRequest (h : Pool sub s (r :: q)) (uptodate : Bool) :
    Pool sub (endRequest uptodate s) q := by
  obtain ⟨hrq, hq⟩ := List.nodup_cons.mp h.nodup
  have hcur : s.current = some r := h.chain.1
  have hslot : sub.slot ≠ some r := h.fresh r (List.mem_cons_self ..)
  obtain ⟨b, hb⟩ := h.goodMem (List.mem_cons_self ..)
  have hothers : ∀ r' ∈ q, (s.request r').bh ≠ some b := by
    intro r' hr' heq
    exact hrq (h.own r (List.mem_cons_self ..) r' (List.mem_cons_of_mem _ hr')
      (hb.bh.trans heq.symm) ▸ hr')
  have hsubBuf : sub.buf ≠ some b := fun heq =>
    h.apart r (List.mem_cons_self ..) (hb.bh.trans heq.symm)
  -- the state after the call, field by field
  have hend := endRequest_eq uptodate hcur hb.bh
  have hreq : (EgGS.endRequest uptodate s).request =
      Function.update s.request r { s.request r with dev := -1 } := by
    rw [hend]; rfl
  have hcurrent : (EgGS.endRequest uptodate s).current = (s.request r).next := by
    rw [hend]; rfl
  have hlinks : ∀ c, ((EgGS.endRequest uptodate s).buf c).toBufferLinks =
      (s.buf c).toBufferLinks := by
    intro c
    rw [hend]
    by_cases hc : c = b
    · subst hc; simp
    · simp [hc]
  have hlock : ∀ c, ((EgGS.endRequest uptodate s).buf c).bLock =
      if c = b then false else (s.buf c).bLock := by
    intro c
    rw [hend]
    by_cases hc : c = b
    · subst hc; simp
    · simp [hc]
  have hother : ∀ r', r' ≠ r → (EgGS.endRequest uptodate s).request r' = s.request r' := by
    intro r' hr'
    rw [hreq, Function.update_of_ne hr']
  have hne : ∀ r' ∈ q, r' ≠ r := fun r' hr' heq => hrq (heq ▸ hr')
  -- the conjuncts of `Pool` for the shorter queue: the slot of `r` is free again, and the buffer
  -- `b` is the only one whose lock changed
  constructor
  · rw [hcurrent]
    exact h.chain.2.congr fun r' hr' => by rw [hother r' (hne r' hr')]
  · intro r'
    -- a slot is in use if it is in the queue or being filled, and `r` is neither now
    by_cases hr : r' = r
    · subst hr
      simp [hreq, hrq, hslot]
    · rw [hother r' hr, h.slots]
      simp [hr]
  · exact fun r' hr' => h.fresh r' (List.mem_cons_of_mem _ hr')
  · intro r' hr'
    have hr'r : r' ≠ r := by
      rcases hr' with hr' | hr'
      · exact hne r' hr'
      · rintro rfl
        exact hslot hr'
    obtain ⟨c, hc⟩ := h.good r' (hr'.imp (List.mem_cons_of_mem _) id)
    refine ⟨c, hc.congr ⟨_, hother r' hr'r⟩ (.of_links (hlinks c)) ?_⟩
    have hcb : c ≠ b := by
      rintro rfl
      rcases hr' with hr' | hr'
      · exact hothers r' hr' hc.bh
      · exact hsubBuf ((h.slotBuf r' hr').1.symm.trans hc.bh)
    rw [hlock, if_neg hcb]
  · intro r₁ h₁ r₂ h₂
    rw [hother r₁ (hne r₁ h₁), hother r₂ (hne r₂ h₂)]
    exact h.own r₁ (List.mem_cons_of_mem _ h₁) r₂ (List.mem_cons_of_mem _ h₂)
  · intro c
    rw [hlock]
    -- `b` belongs to no other request and is not being submitted, so its lock is off
    by_cases hc : c = b
    · subst hc
      simp only [if_true, Bool.false_eq_true, false_iff, not_or, not_exists, not_and]
      refine ⟨fun r' hr' => ?_, hsubBuf⟩
      rw [hother r' (hne r' hr')]
      exact hothers r' hr'
    · rw [if_neg hc, h.locked]
      constructor
      · rintro (⟨r', hr', hbh⟩ | hbuf)
        · rcases List.mem_cons.mp hr' with rfl | hr'
          · exact absurd (Option.some.inj (hbh.symm.trans hb.bh)) hc
          · exact .inl ⟨r', hr', by rw [hother r' (hne r' hr'), hbh]⟩
        · exact .inr hbuf
      · rintro (⟨r', hr', hbh⟩ | hbuf)
        · rw [hother r' (hne r' hr')] at hbh
          exact .inl ⟨r', List.mem_cons_of_mem _ hr', hbh⟩
        · exact .inr hbuf
  · intro r' hr'
    rw [hother r' (hne r' hr')]
    exact h.apart r' (List.mem_cons_of_mem _ hr')
  · intro r' hr'
    rw [hother r' (by rintro rfl; exact hslot hr')]
    exact h.slotBuf r' hr'
  · intro r' hr'
    have hr'r : r' ≠ r := by
      rcases hr' with hr' | hr'
      · exact hne r' (List.mem_of_mem_tail hr')
      · rintro rfl
        exact hslot hr'
    rw [hother r' hr'r]
    exact h.untouched r' (hr'.imp List.mem_of_mem_tail id)
  · intro c hc
    rw [hlinks]
    exact h.taken c hc

/-! ## The driver -/

/-- The pool in some queue. -/
def Pooled (sub : Submission n) (s : Sys n) : Prop := ∃ q, Pool sub s q

theorem Pooled.congr (h : Pooled sub s) (same : SamePool s s') : Pooled sub s' :=
  h.imp fun _ h => h.congr same

theorem Pool.addError (h : Pool sub s (r :: q)) : Pool sub (addError r s) (r :: q) := by
  refine h.setHead rfl rfl rfl rfl fun b hb => ?_
  obtain ⟨hbh, hl, hdev, hmajor, hcmd, hleft, hbuffer, hsector, hslot⟩ := hb
  constructor <;>
    simp only [Sys.setRequest_request, Sys.setRequest_buf, Function.update_self] <;>
    assumption

theorem Pooled.failed (h : Pooled sub s) (hf : Failed s s') : Pooled sub s' := by
  obtain ⟨q, h⟩ := h
  cases hf with
  | null _ => exact ⟨q, h.congr (.of_buf rfl rfl rfl)⟩
  | retry hcur _ _ =>
      obtain ⟨q, rfl⟩ := h.eq_cons hcur
      exact ⟨_, h.addError.congr (.of_buf rfl rfl rfl)⟩
  | giveUp hcur _ _ =>
      obtain ⟨q, rfl⟩ := h.eq_cons hcur
      exact ⟨_, (h.addError.endRequest false).congr (.of_buf rfl rfl rfl)⟩

theorem SamePool.issue (s : Sys n) (c : Command) (h : Handler) : SamePool s (s.issue c h) :=
  .of_buf rfl rfl rfl

theorem SamePool.portWrite (ptr : Option (BufPtr n)) (s : Sys n) :
    SamePool s (portWrite ptr s) := by
  cases ptr <;> exact .of_buf rfl rfl rfl

theorem SamePool.portRead (ptr : Option (BufPtr n)) (s : Sys n) : SamePool s (portRead ptr s) := by
  refine ⟨fun _ => .inl (by simp), by simp, fun b _ => .of_links ?_, fun b => ?_⟩ <;>
    rw [portRead_head]

theorem Pooled.pass {x : Unit ⊕ Unit} (h : Pooled sub s) (hp : Pass env s x s') :
    Pooled sub s' := by
  cases hp with
  | idle _ => exact h
  | reject hcur _ =>
      obtain ⟨q, h⟩ := h
      obtain ⟨q, rfl⟩ := h.eq_cons hcur
      exact ⟨q, h.endRequest false⟩
  | reset _ _ _ => exact h.congr (.of_buf rfl rfl rfl)
  | recalibrate _ _ _ _ => exact h.congr (.of_buf rfl rfl rfl)
  | read _ _ _ _ => exact h.congr (.issue ..)
  | write _ _ _ _ _ => exact (h.congr (.issue ..)).congr (.portWrite ..)
  | @timeout r _ _ _ _ _ =>
      have hsent : Pooled sub (s.issue (s.transferCommand r .write) .writeIntr).drop :=
        h.congr (.of_buf rfl rfl rfl)
      exact hsent.failed (failed_cases env _)

/-- One sector done and one to go: the request moves on to its second sector. -/
theorem Good.advance (h : Good s r b) (hmore : oneLess (s.request r).nrSectors ≠ 0)
    (errors : ℕ) : Good (s.setRequest r fun req =>
      { req.advance with errors, nrSectors := oneLess req.nrSectors }) r b := by
  obtain ⟨hbh, hl, hdev, hmajor, hcmd, hleft, hbuffer, hsector, hslot⟩ := h
  have htwo : (s.request r).nrSectors = 2 := by
    rcases hleft with h | h
    · exact absurd (by rw [h]; rfl) hmore
    · exact h
  have hone : oneLess (s.request r).nrSectors = 1 := by rw [htwo]; rfl
  constructor <;>
    simp only [Sys.setRequest_request, Function.update_self, Sys.setRequest_buf, Request.advance,
      hone]
  · exact hbh
  · exact hl
  · exact hdev
  · exact hmajor
  · exact hcmd
  · simp
  · rw [hbuffer, htwo]; rfl
  · rw [hsector, htwo]; omega
  · exact hslot

/-- A request that is ended may be changed before, at its own slot and in the
contents of buffers. -/
theorem Pool.endRequest_same (h : Pool sub s (r :: q)) (uptodate : Bool)
    (hslot : ∀ r', r' ≠ r → s'.request r' = s.request r')
    (hnext : (s'.request r).next = (s.request r).next) (hbh : (s'.request r).bh = (s.request r).bh)
    (hcur : s'.current = s.current)
    (hlinks : ∀ b, (s'.buf b).toBufferLinks = (s.buf b).toBufferLinks)
    (hlock : ∀ b, (s'.buf b).bLock = (s.buf b).bLock) :
    SamePool (EgGS.endRequest uptodate s) (EgGS.endRequest uptodate s') := by
  obtain ⟨b, hb⟩ := h.goodMem (List.mem_cons_self ..)
  have hend := endRequest_eq uptodate h.chain.1 hb.bh
  have hend' := endRequest_eq uptodate (hcur.trans h.chain.1) (hbh.trans hb.bh)
  refine ⟨fun r' => ?_, ?_, fun c _ => .of_links ?_, fun c => ?_⟩
  · rw [hend, hend']
    by_cases hr : r' = r
    · subst hr
      exact .inr (by simp)
    · exact .inl (by simp [hr, hslot r' hr])
  · rw [hend, hend']
    exact hnext
  · rw [hend, hend']
    by_cases hc : c = b
    · subst hc; simp [hlinks]
    · simp [hc, hlinks]
  · rw [hend, hend']
    by_cases hc : c = b
    · subst hc; simp
    · simp [hc, hlock]

theorem Pool.readLast_same (h : Pool sub s (r :: q)) :
    SamePool (EgGS.endRequest true s) (EgGS.endRequest true (readSector r s)) := by
  have hlinks : ∀ b, ((portRead (s.request r).buffer s).buf b).toBufferLinks =
      (s.buf b).toBufferLinks := by
    intro b
    rw [portRead_head]
  have same := SamePool.portRead (s.request r).buffer s
  refine h.endRequest_same true (fun r' hr' => ?_) ?_ ?_ same.current hlinks same.lock
  · simp [readSector, hr']
  · simp [readSector, Request.advance]
  · simp [readSector, Request.advance]

theorem Pool.writeLast_same (h : Pool sub s (r :: q)) :
    SamePool (EgGS.endRequest true s) (EgGS.endRequest true (countSector r s)) := by
  refine h.endRequest_same true (fun r' hr' => ?_) ?_ ?_ rfl (fun _ => rfl) fun _ => rfl
  · simp [countSector, hr']
  · simp [countSector]
  · simp [countSector]

theorem Pooled.handled {ok x : Bool} (h : Pooled sub s) (hh : Handled env ok s x s') :
    Pooled sub s' := by
  have hanswer : Pooled sub (s.answer ok) := h.congr (.of_buf rfl rfl rfl)
  cases hh with
  | unhandled _ => exact hanswer
  | fail _ _ => exact hanswer.failed (failed_cases env _)
  | recal _ _ => exact hanswer
  | nullRead _ _ _ => exact hanswer.congr (.of_buf rfl rfl rfl)
  | nullWrite _ _ _ => exact hanswer.congr (.of_buf rfl rfl rfl)
  | @readMore r _ _ hcur hmore =>
      obtain ⟨q, h⟩ := hanswer
      obtain ⟨q, rfl⟩ := h.eq_cons hcur
      have same := SamePool.portRead ((s.answer ok).request r).buffer (s.answer ok)
      have hmoved : Pool sub (readSector r (s.answer ok)) (r :: q) :=
        Pool.setHead (h.congr same) rfl rfl rfl rfl fun b hb => hb.advance (by simpa using hmore) 0
      exact ⟨_, hmoved.congr (.of_buf rfl rfl rfl)⟩
  | @readLast r _ _ hcur hlast =>
      obtain ⟨q, h⟩ := hanswer
      obtain ⟨q, rfl⟩ := h.eq_cons hcur
      exact ⟨q, (h.endRequest true).congr h.readLast_same⟩
  | @writeMore r _ _ hcur hmore =>
      obtain ⟨q, h⟩ := hanswer
      obtain ⟨q, rfl⟩ := h.eq_cons hcur
      refine ⟨_, Pool.congr (Pool.congr (Pool.setHead h rfl rfl rfl rfl fun b hb =>
        hb.advance hmore ((s.answer ok).request r).errors) ?_) (.portWrite ..)⟩
      refine ⟨fun r' => .inl ?_, rfl, fun _ _ => ⟨rfl, rfl⟩, fun _ => rfl⟩
      by_cases hr : r' = r
      · subst hr
        simp [countSector, Request.advance]
      · simp [countSector, hr]
  | @writeLast r _ _ hcur hlast =>
      obtain ⟨q, h⟩ := hanswer
      obtain ⟨q, rfl⟩ := h.eq_cons hcur
      exact ⟨q, (h.endRequest true).congr h.writeLast_same⟩

/-- Interrupts keep the pool, whatever the controller answers. -/
theorem Pooled.interrupt {i : Irq} (h : Pooled sub s) (hint : hdInterrupt i env k s = .ok () s') :
    Pooled sub s' :=
  hdInterrupt_ensures (J := Pooled sub) h.handled h.handled Pooled.pass Pooled.pass hint

/-! ## Submitting a request -/

theorem Pooled.request (h : Pooled sub s) (hdo : doHdRequest env k s = .ok () s') :
    Pooled sub s' :=
  doHdRequest_ensures (I := Pooled sub) Pooled.pass Pooled.pass h hdo

section Submitting

variable {cmd : Option Rw} {rw : Rw}

theorem Pool.lock (h : Pool .idle s q) (hlock : (s.buf b).bLock = false)
    (hmajor : major (s.buf b).bDev = 3) :
    Pool ⟨some b, none, none⟩ (s.setBuf b fun bh => { bh with bLock := true }) q := by
  have hqueued : ∀ r ∈ q, ∀ c, (s.request r).bh = some c → c ≠ b := by
    rintro r hr c hc rfl
    have := (h.locked c).mpr (.inl ⟨r, hr, hc⟩)
    simp [hlock] at this
  constructor
  · exact h.chain
  · exact h.slots
  · exact fun r _ => by simp
  · intro r hr
    obtain ⟨c, hc⟩ := h.good r hr
    have hcb := hqueued r (by simpa using hr) c hc.bh
    exact ⟨c, hc.congr ⟨_, rfl⟩ (.of_links (by simp [hcb])) (by simp [hcb])⟩
  · exact h.own
  · intro c
    by_cases hc : c = b
    · subst hc; simp
    · simpa [hc, Ne.symm hc] using h.locked c
  · exact fun r hr heq => hqueued r hr b heq rfl
  · exact fun r hr => absurd hr (by simp)
  · exact h.untouched
  · rintro c hc
    obtain rfl := Option.some.inj hc
    simpa using hmajor

theorem Pool.decide (h : Pool ⟨some b, none, none⟩ s q) (hrw : rw = .read ∨ rw = .write) :
    Pool ⟨some b, some rw, none⟩ s q := by
  refine ⟨h.chain, h.slots, h.fresh, h.good, h.own, h.locked, h.apart, ?_, h.untouched, ?_⟩
  · exact fun r hr => absurd hr (by simp)
  · rintro c hc
    refine ⟨(h.taken c hc).1, ?_⟩
    rintro rw' ⟨⟩
    exact hrw

theorem Pool.unlock (h : Pool ⟨some b, cmd, none⟩ s q) : Pool .idle (unlockBuff b s) q := by
  have hqueued : ∀ r ∈ q, ∀ c, (s.request r).bh = some c → c ≠ b := by
    rintro r hr c hc rfl
    exact h.apart r hr hc
  constructor
  · exact h.chain
  · exact h.slots
  · exact fun r _ => by simp
  · intro r hr
    obtain ⟨c, hc⟩ := h.good r hr
    have hcb := hqueued r (by simpa using hr) c hc.bh
    exact ⟨c, hc.congr ⟨_, rfl⟩ (.of_links (by simp [unlockBuff, hcb]))
      (by simp [unlockBuff, hcb])⟩
  · exact h.own
  · intro c
    by_cases hc : c = b
    · subst hc
      simpa [unlockBuff] using fun r hr heq => hqueued r hr c heq rfl
    · simpa [unlockBuff, hc, Ne.symm hc] using h.locked c
  · intro r hr
    obtain ⟨c, hc⟩ := h.goodMem hr
    exact fun heq => absurd (hc.bh.symm.trans heq) (by simp)
  · exact fun r hr => absurd hr (by simp)
  · exact h.untouched
  · exact fun c hc => absurd hc (by simp)

theorem freeSlot_eq_some (h : freeSlot s rw = some r) :
    r.val < slotLimit rw ∧ (s.request r).dev < 0 := by
  simpa using List.find?_some h

theorem Pool.fill (h : Pool ⟨some b, some rw, none⟩ s q) (hfree : freeSlot s rw = some r) :
    Pool ⟨some b, some rw, some r⟩ (s.setRequest r fun _ => makeRequest s rw b) q := by
  obtain ⟨hlimit, hdev⟩ := freeSlot_eq_some hfree
  have hrq : r ∉ q := fun hr => by have := (h.slots r).mpr (.inl hr); omega
  have hother : ∀ r' ∈ q, (s.setRequest r fun _ => makeRequest s rw b).request r' =
      s.request r' := by
    intro r' hr'
    have hne : r' ≠ r := fun heq => hrq (heq ▸ hr')
    simp [hne]
  -- slot `r` was free, so it is not in the queue, and its new fields are those of the submission
  constructor
  · exact h.chain.congr fun r' hr' => by rw [hother r' hr']
  · intro r'
    by_cases hr : r' = r
    · subst hr; simp [makeRequest]
    · have := h.slots r'
      simpa [hr, Ne.symm hr] using this
  · rintro r' hr' ⟨⟩
    exact hrq hr'
  · rintro r' (hr' | hr')
    · obtain ⟨c, hc⟩ := h.good r' (.inl hr')
      exact ⟨c, hc.congr ⟨_, hother r' hr'⟩ ⟨rfl, rfl⟩ rfl⟩
    · obtain rfl := Option.some.inj hr'
      obtain ⟨hmajor, hrw⟩ := h.taken b rfl
      refine ⟨b, ?_⟩
      constructor <;> simp only [Sys.setRequest_request, Function.update_self, Sys.setRequest_buf,
        makeRequest]
      · exact (h.locked b).mpr (.inr rfl)
      · exact hmajor
      · exact hrw rw rfl
      · simp
      · rfl
      · rintro rfl
        simpa [slotLimit] using hlimit
  · intro r₁ h₁ r₂ h₂
    rw [hother r₁ h₁, hother r₂ h₂]
    exact h.own r₁ h₁ r₂ h₂
  · intro c
    rw [Sys.setRequest_buf, h.locked c]
    refine or_congr_left (exists_congr fun r' => and_congr_right fun hr' => ?_)
    rw [hother r' hr']
  · intro r' hr'
    rw [hother r' hr']
    exact h.apart r' hr'
  · rintro r' hr'
    obtain rfl := Option.some.inj hr'
    simp [makeRequest]
  · rintro r' (hr' | hr')
    · rw [hother r' (List.mem_of_mem_tail hr')]
      exact h.untouched r' (.inl hr')
    · obtain rfl := Option.some.inj hr'
      simp [makeRequest]
  · exact h.taken

/-- The submitted request becomes part of the queue. -/
theorem Pool.join {buf : Option (Fin n)} {q' : List (Fin nrRequest)}
    (h : Pool ⟨buf, cmd, some r⟩ s q)
    (hreq : ∀ x, s'.request x = { s.request x with next := (s'.request x).next })
    (hlinks : ∀ c, (s'.buf c).toBufferLinks = (s.buf c).toBufferLinks)
    (hlock : ∀ c, (s'.buf c).bLock = (s.buf c).bLock)
    (hchain : Chain (fun x => (s'.request x).next) s'.current q')
    (hmem : ∀ x, x ∈ q' ↔ x ∈ q ∨ x = r) (htail : ∀ x ∈ q'.tail, x ∈ q.tail ∨ x = r) :
    Pool .idle s' q' := by
  have hfield : ∀ {β : Type} (g : Request n → β) (x),
      (∀ req next, g { req with next } = g req) → g (s'.request x) = g (s.request x) := by
    intro β g x hg
    rw [hreq x, hg]
  have hbh : ∀ x, (s'.request x).bh = (s.request x).bh :=
    fun x => hfield Request.bh x fun _ _ => rfl
  have hslot : some r = some r := rfl
  have hrbuf := (h.slotBuf r hslot).1
  have hor : ∀ x, x ∈ q' → x ∈ q ∨ some r = some x := by
    intro x hx
    exact ((hmem x).mp hx).imp id fun heq => by rw [heq]
  -- `r` comes from the submission into the queue, so every conjunct about one of the two is a
  -- conjunct about the new queue
  constructor
  · exact hchain
  · intro x
    rw [hfield Request.dev x fun _ _ => rfl, h.slots, hmem]
    simp [eq_comm]
  · exact fun x _ => by simp
  · rintro x hx
    obtain ⟨c, hc⟩ := h.good x (hor x (by simpa using hx))
    exact ⟨c, hc.congr ⟨_, hreq x⟩ (.of_links (hlinks c)) (hlock c)⟩
  · intro x hx y hy heq
    rw [hbh, hbh] at heq
    -- no request of the queue is for the buffer that was being submitted
    rcases (hmem x).mp hx with hx | rfl <;> rcases (hmem y).mp hy with hy | rfl
    · exact h.own x hx y hy heq
    · exact absurd (heq.trans hrbuf) (h.apart x hx)
    · exact absurd (heq.symm.trans hrbuf) (h.apart y hy)
    · rfl
  · intro c
    rw [hlock, h.locked]
    constructor
    · rintro (⟨x, hx, hxc⟩ | hbuf)
      · exact .inl ⟨x, (hmem x).mpr (.inl hx), by rw [hbh, hxc]⟩
      · exact .inl ⟨r, (hmem r).mpr (.inr rfl), by rw [hbh, hrbuf, hbuf]⟩
    · rintro (⟨x, hx, hxc⟩ | hbuf)
      · rw [hbh] at hxc
        rcases (hmem x).mp hx with hx | rfl
        · exact .inl ⟨x, hx, hxc⟩
        · exact .inr (hrbuf.symm.trans hxc)
      · exact absurd hbuf (by simp)
  · intro x hx
    obtain ⟨c, hc⟩ := h.good x (hor x hx)
    rw [hbh, hc.bh]
    simp
  · exact fun x hx => absurd hx (by simp)
  · rintro x (hx | hx)
    · rw [hfield Request.errors x fun _ _ => rfl, hfield Request.nrSectors x fun _ _ => rfl]
      exact h.untouched x ((htail x hx).imp id fun heq => by rw [heq])
    · exact absurd hx (by simp)
  · exact fun c hc => absurd hc (by simp)

theorem Sys.offer_request (s : Sys n) (r : Fin nrRequest) : (s.offer r).request =
    Function.update s.request r { s.request r with next := none } := by
  unfold Sys.offer Sys.clean
  split <;> rfl

@[simp] theorem Sys.offer_current (s : Sys n) (r : Fin nrRequest) :
    (s.offer r).current = s.current := by
  simp [Sys.offer]

/-- `add_request` clears `b_dirt` of the buffer and changes nothing else of it. -/
theorem Sys.offer_head (s : Sys n) (r : Fin nrRequest) (b : Fin n) : (s.offer r).buf b =
    if (s.request r).bh = some b then { s.buf b with bDirt := false } else s.buf b := by
  have hbh : (Function.update s.request r { s.request r with next := none } r).bh =
      (s.request r).bh := by simp
  cases hr : (s.request r).bh with
  | none => simp [Sys.offer, Sys.clean, hr]
  | some c =>
      by_cases hb : b = c
      · subst hb; simp [Sys.offer, Sys.clean, hr]
      · simp [Sys.offer, Sys.clean, hr, hb, Ne.symm hb]

theorem Pool.startQueue {buf : Option (Fin n)} (h : Pool ⟨buf, cmd, some r⟩ s q)
    (hcur : s.current = none) : Pool .idle (((s.offer r).start r).setIntr true) [r] := by
  obtain rfl := h.eq_nil hcur
  refine h.join (fun x => ?_) (fun c => ?_) (fun c => ?_) ?_ (by simp) (by simp)
  · by_cases hx : x = r
    · subst hx; simp [Sys.offer_request]
    · simp [Sys.offer_request, hx]
  · simp only [Sys.setIntr_buf, Sys.start_buf, Sys.offer_head]
    split <;> rfl
  · simp only [Sys.setIntr_buf, Sys.start_buf, Sys.offer_head]
    split <;> rfl
  · simp [Sys.offer_request]

/-- The request that the elevator settles on is in the queue. -/
theorem Pool.elevator_mem {buf : Option (Fin n)} {head tmp : Fin nrRequest}
    (h : Pool ⟨buf, cmd, some r⟩ s q) (hcur : s.current = some head)
    (helev : elevator r head env k (s.offer r) = .ok tmp (s.offer r)) : tmp ∈ q := by
  have hoffer : Chain (fun x => ((s.offer r).request x).next) (some head) q := by
    refine (hcur ▸ h.chain).congr fun x hx => ?_
    have hne : x ≠ r := by
      rintro rfl
      exact h.fresh x hx rfl
    simp [Sys.offer_request, hne]
  exact hoffer.mem_of_reach (elevator_behind helev).2

theorem Pool.joinQueue {buf : Option (Fin n)} {tmp : Fin nrRequest} {l₁ l₂ : List (Fin nrRequest)}
    (h : Pool ⟨buf, cmd, some r⟩ s (l₁ ++ tmp :: l₂)) :
    Pool .idle (((s.offer r).linkBehind tmp r).setIntr true) (l₁ ++ tmp :: r :: l₂) := by
  have hrq : r ∉ l₁ ++ tmp :: l₂ := fun hr => h.fresh r hr rfl
  have hoffer : Chain (fun x => ((s.offer r).request x).next) s.current (l₁ ++ tmp :: l₂) := by
    refine h.chain.congr fun x hx => ?_
    have hne : x ≠ r := fun heq => hrq (heq ▸ hx)
    simp [Sys.offer_request, hne]
  have hne : tmp ≠ r := fun heq => hrq (heq ▸ by simp)
  refine h.join (fun x => ?_) (fun c => ?_) (fun c => ?_) ?_ ?_ ?_
  · by_cases hx : x = r
    · subst hx; simp [Sys.linkBehind, Sys.offer_request, Ne.symm hne]
    · by_cases hxt : x = tmp
      · subst hxt; simp [Sys.linkBehind, Sys.offer_request, hx]
      · simp [Sys.linkBehind, Sys.offer_request, hx, hxt]
  · simp only [Sys.linkBehind, Sys.setIntr_buf, Sys.setRequest_buf, Sys.offer_head]
    split <;> rfl
  · simp only [Sys.linkBehind, Sys.setIntr_buf, Sys.setRequest_buf, Sys.offer_head]
    split <;> rfl
  · have hcurrent : (((s.offer r).linkBehind tmp r).setIntr true).current = s.current := by
      simp [Sys.linkBehind]
    rw [hcurrent]
    refine hoffer.insertAfter hrq ?_ ?_ fun c hc hcr => ?_
    · simp [Sys.linkBehind]
    · simp [Sys.linkBehind, Ne.symm hne]
    · simp [Sys.linkBehind, hc, hcr]
  · intro x
    simp only [List.mem_append, List.mem_cons]
    tauto
  · intro x hx
    cases l₁ with
    | nil => simpa using Or.symm (by simpa using hx)
    | cons a l₁ =>
        simp only [List.cons_append, List.tail_cons, List.mem_append, List.mem_cons] at hx ⊢
        tauto

end Submitting

/-- **The pool invariant is kept by every step of the request layer.** -/
theorem Pooled.submit {x y : Submission n × Sys n} (h : Pooled x.1 x.2) (hstep : Submit env x y) :
    Pooled y.1 y.2 := by
  cases hstep with
  | time _ _ => exact h.congr (.of_buf rfl rfl rfl)
  | interrupt _ hint => exact h.interrupt hint
  | lock hlock hmajor _ => exact h.imp fun _ h => h.lock hlock hmajor
  | check hrw _ _ => exact h.imp fun _ h => h.decide hrw
  | giveUp => exact h.imp fun _ h => h.unlock
  | fill hfree => exact h.imp fun _ h => h.fill hfree
  | start hcur hdo =>
      obtain ⟨q, h⟩ := h
      exact Pooled.request ⟨_, h.startQueue hcur⟩ hdo
  | queue hcur helev =>
      obtain ⟨q, h⟩ := h
      obtain ⟨l₁, l₂, rfl⟩ := List.append_of_mem (h.elevator_mem hcur helev)
      exact ⟨_, h.joinQueue⟩

theorem Pooled.submits {x y : Submission n × Sys n} (h : Pooled x.1 x.2)
    (hpath : Submits env x y) : Pooled y.1 y.2 :=
  hpath.invariant Pooled.submit h

/-- An empty queue and no locks: the state that `init_request_queue` makes. -/
theorem Pool.init (hcur : s.current = none) (hlock : ∀ b, (s.buf b).bLock = false) :
    Pool .idle (initRequestQueue s) [] := by
  constructor <;> simp [initRequestQueue, hcur, hlock]

end EgGS
