import EgGS.Block.Progress
import EgGS.Lib.Elevator
import Mathlib.Data.Prod.Lex

/-!
# The elevator

`add_request` links a request behind the first one at which its test succeeds, and never
before the request in service.  Requests leave the queue at its head only.  So the queue
has at most one place where `IN_ORDER` fails for two neighbours.

`IN_ORDER` compares the sector a request is at, and the request in service moves on to
its second sector.  `Sys.place` is what this does not change: the command, the device and
the block.  Requests that are queued together have different places, because their buffers
are locked and a cache has one buffer for a block.
-/

namespace EgGS

open Lib Prog

variable {n : ℕ} {env : Env n} {k : ℕ} {s s' s₀ : Sys n}
variable {sub : Submission n} {r : Fin nrRequest} {q : List (Fin nrRequest)}

/-! ## Leaving the queue -/

/-- Requests left the queue at its head; the slots keep their buffers and commands. -/
structure Drained (s s' : Sys n) : Prop where
  same : ∀ r, (s'.request r).next = (s.request r).next ∧ (s'.request r).bh = (s.request r).bh ∧
    (s'.request r).cmd = (s.request r).cmd
  queue : ∀ q, s.Queue q → ∃ q', q' <:+ q ∧ s'.Queue q'

namespace Drained

theorem of_current (hcur : s'.current = s.current)
    (same : ∀ r, (s'.request r).next = (s.request r).next ∧
      (s'.request r).bh = (s.request r).bh ∧ (s'.request r).cmd = (s.request r).cmd) :
    Drained s s' := by
  refine ⟨same, fun q hq => ⟨q, List.suffix_refl q, ?_⟩⟩
  rw [Sys.Queue, hcur]
  exact hq.congr fun r _ => (same r).1

theorem of_request (hcur : s'.current = s.current) (hreq : s'.request = s.request) :
    Drained s s' :=
  .of_current hcur fun _ => by rw [hreq]; exact ⟨rfl, rfl, rfl⟩

theorem refl (s : Sys n) : Drained s s := .of_request rfl rfl

theorem trans {s₁ s₂ s₃ : Sys n} (h : Drained s₁ s₂) (h' : Drained s₂ s₃) : Drained s₁ s₃ := by
  refine ⟨fun r => ?_, fun q hq => ?_⟩
  · obtain ⟨hnext, hbh, hcmd⟩ := h.same r
    obtain ⟨hnext', hbh', hcmd'⟩ := h'.same r
    exact ⟨hnext'.trans hnext, hbh'.trans hbh, hcmd'.trans hcmd⟩
  · obtain ⟨q₁, hq₁, h₁⟩ := h.queue q hq
    obtain ⟨q₂, hq₂, h₂⟩ := h'.queue q₁ h₁
    exact ⟨q₂, hq₂.trans hq₁, h₂⟩

theorem setRequest {f : Request n → Request n}
    (hf : ∀ req, (f req).next = req.next ∧ (f req).bh = req.bh ∧ (f req).cmd = req.cmd) :
    Drained s (s.setRequest r f) := by
  refine .of_current rfl fun r' => ?_
  by_cases hr : r' = r
  · subst hr
    simpa using hf (s.request r')
  · simp [hr]

theorem endRequest (ok : Bool) (s : Sys n) : Drained s (endRequest ok s) := by
  cases hcur : s.current with
  | none =>
      unfold EgGS.endRequest
      rw [hcur]
      exact .of_request rfl rfl
  | some r =>
      refine ⟨fun r' => ?_, fun q hq => ?_⟩
      · unfold EgGS.endRequest
        simp only [hcur]
        split <;> by_cases hr : r' = r <;> simp [unlockBuff, hr]
      · cases q with
        | nil => exact absurd (hcur.symm.trans hq) (by simp)
        | cons r' q => exact ⟨q, List.suffix_cons r' q, hq.endRequest ok⟩

end Drained

theorem portRead_drained (ptr : Option (BufPtr n)) (s : Sys n) : Drained s (portRead ptr s) :=
  .of_request (portRead_current ptr s) (portRead_request ptr s)

theorem portWrite_drained (ptr : Option (BufPtr n)) (s : Sys n) : Drained s (portWrite ptr s) :=
  .of_request (portWrite_current ptr s) (portWrite_request ptr s)

theorem Failed.drained (h : Failed s s') : Drained s s' := by
  have hcount : ∀ r, Drained s (addError r s) := fun r => .setRequest fun _ => ⟨rfl, rfl, rfl⟩
  cases h with
  | null _ => exact .of_request rfl rfl
  | retry _ _ _ => exact (hcount _).trans (.of_request rfl rfl)
  | giveUp _ _ _ => exact ((hcount _).trans (.endRequest false _)).trans (.of_request rfl rfl)

theorem Pass.drained {x : Unit ⊕ Unit} (h : Pass env s x s') : Drained s s' := by
  cases h with
  | idle _ => exact .refl s
  | reject _ _ => exact .endRequest false s
  | reset _ _ _ => exact .of_request rfl rfl
  | recalibrate _ _ _ _ => exact .of_request rfl rfl
  | read _ _ _ _ => exact .of_request rfl rfl
  | @write r _ _ _ _ _ =>
      have hissue : Drained s (s.issue (s.transferCommand r .write) .writeIntr) :=
        .of_request rfl rfl
      exact hissue.trans (portWrite_drained _ _)
  | @timeout r _ _ _ _ _ =>
      have hdrop : Drained s (s.issue (s.transferCommand r .write) .writeIntr).drop :=
        .of_request rfl rfl
      exact hdrop.trans (failed_cases env _).drained

theorem Handled.drained {ok x : Bool} (h : Handled env ok s x s') : Drained s s' := by
  have hanswer : Drained s (s.answer ok) := .of_request rfl rfl
  have hread : ∀ r, Drained s (readSector r (s.answer ok)) := fun r =>
    (hanswer.trans (portRead_drained _ _)).trans (.setRequest fun _ => ⟨rfl, rfl, rfl⟩)
  have hcount : ∀ r, Drained s (countSector r (s.answer ok)) := fun r =>
    hanswer.trans (.setRequest fun _ => ⟨rfl, rfl, rfl⟩)
  cases h with
  | unhandled _ => exact hanswer
  | fail _ _ => exact hanswer.trans (failed_cases env _).drained
  | recal _ _ => exact hanswer
  | nullRead _ _ _ => exact .of_request rfl rfl
  | nullWrite _ _ _ => exact .of_request rfl rfl
  | readMore _ _ _ _ => exact (hread _).trans (.of_request rfl rfl)
  | readLast _ _ _ _ => exact (hread _).trans (.endRequest true _)
  | @writeMore r _ _ _ _ =>
      have hnext : Drained (countSector r (s.answer ok))
          ((countSector r (s.answer ok)).setRequest r Request.advance) :=
        .setRequest fun _ => ⟨rfl, rfl, rfl⟩
      have hhandler : Drained ((countSector r (s.answer ok)).setRequest r Request.advance)
          { (countSector r (s.answer ok)).setRequest r Request.advance with
            handler := .writeIntr } := .of_request rfl rfl
      exact (((hcount r).trans hnext).trans hhandler).trans (portWrite_drained _ _)
  | writeLast _ _ _ _ => exact (hcount _).trans (.endRequest true _)

theorem doHdRequest_drained (h : doHdRequest env k s = .ok () s') : Drained s s' :=
  doHdRequest_ensures (I := Drained s) (fun hI hp => hI.trans hp.drained)
    (fun hI hp => hI.trans hp.drained) (.refl s) h

theorem hdInterrupt_drained {i : Irq} (h : hdInterrupt i env k s = .ok () s') : Drained s s' :=
  hdInterrupt_ensures (I := Drained s) (J := Drained s) (fun hh => hh.drained)
    (fun hh => hh.drained) (fun hJ hp => hJ.trans hp.drained) (fun hJ hp => hJ.trans hp.drained) h

/-! ## Joining the queue -/

/-- The test of `add_request` for the request in slot `r`. -/
def Sys.fits (s : Sys n) (r : Fin nrRequest) : Fin nrRequest → Fin nrRequest → Prop :=
  Fits (fun a b => inOrder (s.request a) (s.request b)) r

/-- **The elevator.**  The request in slot `r` is linked behind the first request at which
the test succeeds. -/
theorem elevator_placed {head tmp : Fin nrRequest}
    (hq : Chain (fun x => (s.request x).next) (some head) q)
    (h : elevator r head env k s = .ok tmp s') :
    ∃ l₁ l₂, q = l₁ ++ tmp :: l₂ ∧ Placed (s.fits r) r q (l₁ ++ tmp :: r :: l₂) := by
  unfold elevator at h
  -- what is placed into the rest of the queue is placed into the queue
  refine iterate_ensures
    (I := fun tmp t => t = s ∧ ∃ l₁ l₂, q = l₁ ++ tmp :: l₂ ∧
      Chain (fun x => (s.request x).next) (some tmp) (tmp :: l₂) ∧
      ∀ m, Placed (s.fits r) r (tmp :: l₂) m → Placed (s.fits r) r q (l₁ ++ m))
    (Q := fun tmp t => ∃ l₁ l₂, q = l₁ ++ tmp :: l₂ ∧
      Placed (s.fits r) r q (l₁ ++ tmp :: r :: l₂)) ?_ ?_ ⟨rfl, ?_⟩ h
  · rintro tmp t nxt t' ⟨rfl, l₁, l₂, rfl, hchain, hplaced⟩ hbody
    rw [read_bind] at hbody
    -- the loop goes on only if there is a next request and `r` does not fit in front of it
    cases hnext : (t.request tmp).next with
    | none => simp [hnext] at hbody
    | some z =>
        simp only [hnext, ite_run, pure_run] at hbody
        split at hbody
        · simp at hbody
        rename_i hfit
        simp only [Res.ok.injEq, Sum.inl.injEq] at hbody
        obtain ⟨rfl, rfl⟩ := hbody
        have hrest : Chain (fun x => (t.request x).next) (some z) l₂ := hnext ▸ hchain.2
        cases l₂ with
        | nil => exact absurd hrest (by simp)
        | cons y l₂ =>
            obtain rfl : z = y := Option.some.inj hrest.1
            refine ⟨rfl, l₁ ++ [tmp], l₂, by simp, hrest, fun m hm => ?_⟩
            have hm' : Placed (t.fits r) r (tmp :: z :: l₂) (tmp :: m) :=
              .there (by simpa [Sys.fits, Fits] using hfit) hm
            simpa using hplaced _ hm'
  · rintro tmp t tmp' t' ⟨rfl, l₁, l₂, rfl, hchain, hplaced⟩ hbody
    rw [read_bind] at hbody
    -- it ends at the last request, or in front of the first one that `r` fits before
    cases hnext : (t.request tmp).next with
    | none =>
        simp only [hnext, pure_run, Res.ok.injEq, Sum.inr.injEq] at hbody
        obtain ⟨rfl, rfl⟩ := hbody
        have hrest : Chain (fun x => (t.request x).next) none l₂ := hnext ▸ hchain.2
        cases l₂ with
        | nil => exact ⟨l₁, [], rfl, hplaced _ (.last tmp)⟩
        | cons y l₂ => exact absurd hrest.1 (by simp)
    | some z =>
        simp only [hnext, ite_run, pure_run] at hbody
        split at hbody
        · rename_i hfit
          simp only [Res.ok.injEq, Sum.inr.injEq] at hbody
          obtain ⟨rfl, rfl⟩ := hbody
          have hrest : Chain (fun x => (t.request x).next) (some z) l₂ := hnext ▸ hchain.2
          cases l₂ with
          | nil => exact absurd hrest (by simp)
          | cons y l₂ =>
              obtain rfl : z = y := Option.some.inj hrest.1
              exact ⟨l₁, z :: l₂, rfl, hplaced _ (.here (by simpa [Sys.fits, Fits] using hfit))⟩
        · simp at hbody
  · cases q with
    | nil => exact absurd hq (by simp)
    | cons y q =>
        obtain rfl : head = y := Option.some.inj hq.1
        exact ⟨[], q, rfl, hq, fun m hm => hm⟩

/-- What `add_request` does to a queue that is not empty. -/
theorem Pool.joined {buf : Option (Fin n)} {cmd : Option Rw} {head tmp : Fin nrRequest}
    (h : Pool ⟨buf, cmd, some r⟩ s q) (hcur : s.current = some head)
    (helev : elevator r head env k (s.offer r) = .ok tmp (s.offer r)) :
    ∃ q', Pool .idle (((s.offer r).linkBehind tmp r).setIntr true) q' ∧
      Placed (s.fits r) r q q' := by
  have hrq : r ∉ q := fun hr => h.fresh r hr rfl
  have hother : ∀ x ∈ q, (s.offer r).request x = s.request x := by
    intro x hx
    have hne : x ≠ r := fun heq => hrq (heq ▸ hx)
    simp [Sys.offer_request, hne]
  have hoffer : Chain (fun x => ((s.offer r).request x).next) (some head) q :=
    (hcur ▸ h.chain).congr fun x hx => by rw [hother x hx]
  obtain ⟨l₁, l₂, rfl, hplaced⟩ := elevator_placed hoffer helev
  refine ⟨_, h.joinQueue, hplaced.congr fun a ha b hb => ?_⟩
  simp only [Sys.fits, Fits, hother a ha, hother b hb, Sys.offer_request, Function.update_self]
  rfl

/-! ## Places -/

/-- The command, the device and the block of the request in slot `r`, in this order of
importance. -/
def Sys.place (s : Sys n) (r : Fin nrRequest) : ℕ ×ₗ ℕ ×ₗ ℕ :=
  match (s.request r).bh with
  | none => toLex (0, toLex (0, 0))
  | some b => toLex ((s.request r).cmd.code, toLex ((s.buf b).bDev, (s.buf b).bBlocknr))

/-- The headers are those of a cache: there is one for a block.  Locked are those of blocks
below `2^31`. -/
structure Sys.Cached (s : Sys n) : Prop where
  one : ∀ b c, (s.buf b).bDev ≠ 0 → s.Keyed c (s.buf b).bDev (s.buf b).bBlocknr → c = b
  small : ∀ b, (s.buf b).bLock = true → (s.buf b).bBlocknr < 2 ^ 31

theorem Sys.place_congr (hrest : s'.rest = s.rest) (hbh : (s'.request r).bh = (s.request r).bh)
    (hcmd : (s'.request r).cmd = (s.request r).cmd) : s'.place r = s.place r := by
  unfold Sys.place
  rw [hbh, hcmd]
  cases (s.request r).bh with
  | none => rfl
  | some b =>
      have hdev : (s'.buf b).bDev = (s.buf b).bDev := congrArg (fun t => (t.links b).bDev) hrest
      have hnr : (s'.buf b).bBlocknr = (s.buf b).bBlocknr :=
        congrArg (fun t => (t.links b).bBlocknr) hrest
      simp only [hdev, hnr]

section Places

variable {r' : Fin nrRequest} {b b' : Fin n}

theorem Good.place (h : Good s r b) : s.place r =
    toLex ((s.request r).cmd.code, toLex ((s.buf b).bDev, (s.buf b).bBlocknr)) := by
  rw [Sys.place, h.bh]

/-- Requests for different buffers have different places. -/
theorem Good.place_ne (h : Good s r b) (h' : Good s r' b') (hcached : s.Cached) (hne : b ≠ b') :
    s.place r ≠ s.place r' := by
  intro heq
  rw [h.place, h'.place] at heq
  have hkey := congrArg (fun p => (ofLex (ofLex p).2)) heq
  simp only [ofLex_toLex, Prod.mk.injEq] at hkey
  have hdev : (s.buf b').bDev ≠ 0 := by
    intro hzero
    have hmajor := h'.major
    simp [hzero, EgGS.major] at hmajor
  exact hne (hcached.one b' b hdev ⟨hkey.1, hkey.2⟩)

/-- `IN_ORDER` compares places. -/
theorem Good.inOrder_iff (h : Good s r b) (h' : Good s r' b') (hcached : s.Cached)
    (hne : s.place r ≠ s.place r') :
    inOrder (s.request r) (s.request r') = true ↔ s.place r < s.place r' := by
  have hsmall := hcached.small b h.lock
  have hsmall' := hcached.small b' h'.lock
  have hleft := h.left
  have hleft' := h'.left
  rw [h.place, h'.place] at hne ⊢
  have hdiffer : ¬ ((s.request r).cmd.code = (s.request r').cmd.code ∧
      (s.buf b).bDev = (s.buf b').bDev ∧ (s.buf b).bBlocknr = (s.buf b').bBlocknr) := by
    rintro ⟨hcode, hdev, hnr⟩
    rw [hcode, hdev, hnr] at hne
    exact hne rfl
  simp only [inOrder, decide_eq_true_eq, h.dev, h'.dev, h.sector, h'.sector,
    Prod.Lex.toLex_lt_toLex]
  omega

end Places

/-- Two requests of the queue. -/
theorem Pool.inOrder_iff {r' : Fin nrRequest} (h : Pool sub s q) (hcached : s.Cached)
    (hr : r ∈ q ∨ sub.slot = some r) (hr' : r' ∈ q) (hne : r ≠ r') :
    s.place r ≠ s.place r' ∧
      (inOrder (s.request r) (s.request r') = true ↔ s.place r < s.place r') ∧
      (inOrder (s.request r') (s.request r) = true ↔ s.place r' < s.place r) := by
  obtain ⟨b, hb⟩ := h.good r hr
  obtain ⟨b', hb'⟩ := h.good r' (.inl hr')
  have hbuf : b ≠ b' := by
    rintro rfl
    rcases hr with hr | hr
    · exact hne (h.own r hr r' hr' (hb.bh.trans hb'.bh.symm))
    · exact h.apart r' hr' (hb'.bh.trans (hb.bh.symm.trans (h.slotBuf r hr).1))
  have hplace := hb.place_ne hb' hcached hbuf
  exact ⟨hplace, hb.inOrder_iff hb' hcached hplace, hb'.inOrder_iff hb hcached hplace.symm⟩

/-! ## The invariant -/

/-- The queue descends at most once. -/
def Ordered (sub : Submission n) (s : Sys n) : Prop :=
  ∃ q, Pool sub s q ∧ descents (fun a b => s.place a < s.place b) q ≤ 1

theorem Ordered.pooled (h : Ordered sub s) : Pooled sub s := h.imp fun _ hq => hq.1

/-- The queue is drained, and the slots that stay in it are as before. -/
theorem Ordered.drained {sub' : Submission n} (h : Ordered sub s) (hrest : s'.rest = s.rest)
    (hdrained : Drained s s') (hpooled : Pooled sub' s') : Ordered sub' s' := by
  obtain ⟨q, hq, hdesc⟩ := h
  obtain ⟨q', hsuffix, hq'⟩ := hdrained.queue q hq.chain
  obtain ⟨q'', hpool⟩ := hpooled
  obtain rfl : q'' = q' := hpool.chain.unique hq'
  have hplace : ∀ a, s'.place a = s.place a := fun a =>
    Sys.place_congr hrest (hdrained.same a).2.1 (hdrained.same a).2.2
  refine ⟨_, hpool, ?_⟩
  simp only [hplace]
  exact (descents_suffix hsuffix).trans hdesc

/-- **The elevator keeps at most one descent.** -/
theorem Ordered.join {buf : Option (Fin n)} {cmd : Option Rw} {head tmp : Fin nrRequest}
    (h : Ordered ⟨buf, cmd, some r⟩ s) (hcached : s.Cached) (hcur : s.current = some head)
    (helev : elevator r head env k (s.offer r) = .ok tmp (s.offer r)) :
    Ordered .idle (((s.offer r).linkBehind tmp r).setIntr true) := by
  obtain ⟨q, hq, hdesc⟩ := h
  obtain ⟨q', hpool, hplaced⟩ := hq.joined hcur helev
  have hne : ∀ x ∈ q, r ≠ x := fun x hx heq => hq.fresh r (heq ▸ hx) rfl
  have hcompare := fun x hx => hq.inOrder_iff hcached (.inr rfl) hx (hne x hx)
  have hplaced' : Placed (Fits (fun a b => s.place a < s.place b) r) r q q' := by
    refine hplaced.congr fun a ha b hb => ?_
    by_cases hab : a = b
    · subst hab
      have hself : ¬ inOrder (s.request a) (s.request a) = true := by simp [inOrder]
      simp [Sys.fits, Fits, (hcompare a ha).2.1, (hcompare a ha).2.2, hself]
    · have hpair := (hq.inOrder_iff hcached (.inl ha) hb hab).2.1
      simp only [Sys.fits, Fits, (hcompare a ha).2.2, (hcompare b hb).2.1, hpair]
  refine ⟨q', hpool, ?_⟩
  have hplace : ∀ a, (((s.offer r).linkBehind tmp r).setIntr true).place a = s.place a := by
    intro a
    obtain ⟨next, hnext⟩ := (s.offer r).linkBehind_next tmp r a
    obtain ⟨next', hnext'⟩ := s.offer_next r a
    exact Sys.place_congr (s.offer_rest r) (by rw [Sys.setIntr_request, hnext, hnext'])
      (by rw [Sys.setIntr_request, hnext, hnext'])
  simp only [hplace]
  exact hplaced'.descents_le (fun b hb => lt_or_gt_of_ne (hcompare b hb).1) hdesc

theorem Ordered.submit {x y : Submission n × Sys n} (h : Ordered x.1 x.2) (hcached : x.2.Cached)
    (hstep : Submit env x y) : Ordered y.1 y.2 := by
  have hpooled := h.pooled.submit hstep
  cases hstep with
  | time _ _ => exact h.drained rfl (.of_request rfl rfl) hpooled
  | interrupt _ hint => exact h.drained (hdInterrupt_rest hint) (hdInterrupt_drained hint) hpooled
  | @lock s b _ _ _ =>
      exact h.drained (Sys.rest_setBuf s b (f := fun bh => { bh with bLock := true }) fun _ => rfl)
        (.of_request rfl rfl) hpooled
  | check _ _ _ => exact h.drained rfl (.refl _) hpooled
  | @giveUp s b _ =>
      exact h.drained (Sys.rest_setBuf s b (f := fun bh => { bh with bLock := false }) fun _ => rfl)
        (.of_request rfl rfl) hpooled
  | @fill s b rw r hfree =>
      obtain ⟨q, hq, hdesc⟩ := h
      have hdev := (freeSlot_eq_some hfree).2
      refine ⟨q, hq.fill hfree, (le_of_eq (descents_congr ?_)).trans hdesc⟩
      refine List.Pairwise.imp_of_mem (R := fun _ _ => True) (fun {a b'} ha hb' _ => ?_)
        (List.pairwise_of_forall fun _ _ => trivial)
      have hsame : ∀ x ∈ q, (s.setRequest r fun _ => makeRequest s rw b).place x = s.place x := by
        intro x hx
        have hused : 0 ≤ (s.request x).dev := (hq.slots x).mpr (.inl hx)
        have hne : x ≠ r := by
          rintro rfl
          omega
        simp [Sys.place, hne]
      rw [hsame a ha, hsame b' hb']
  | @start s s' buf cmd r k hcur hdo =>
      obtain ⟨q, hq, -⟩ := h
      refine Ordered.drained ⟨[r], hq.startQueue hcur, ?_⟩ (doHdRequest_rest hdo)
        (doHdRequest_drained hdo) hpooled
      rw [descents_singleton]
      exact Nat.zero_le 1
  | queue hcur helev => exact h.join hcached hcur helev

theorem Ordered.elsewhere (h : Ordered .idle s) (helse : Elsewhere s s') : Ordered .idle s' := by
  obtain ⟨q, hq, hdesc⟩ := h
  refine ⟨q, hq.congr helse.samePool, (le_of_eq (descents_congr ?_)).trans hdesc⟩
  refine List.Pairwise.imp_of_mem (R := fun _ _ => True) (fun {a b} ha hb _ => ?_)
    (List.pairwise_of_forall fun _ _ => trivial)
  have hsame : ∀ x ∈ q, s'.place x = s.place x := by
    intro x hx
    obtain ⟨c, hc⟩ := hq.goodMem hx
    simp only [Sys.place, helse.request, hc.bh, helse.held c hc.lock]
  rw [hsame a ha, hsame b hb]

/-! ## Two sweeps -/

/-- **The run.**  In a run in which the buffers are those of a cache the queue descends at
most once. -/
theorem Reached.ordered {x : Submission n × Sys n} (hquiet : s₀.Quiet) (hcached : s₀.Cached)
    (h : Reached env (fun _ y => y.2.Cached) s₀ x) : Ordered x.1 x.2 ∧ x.2.Cached := by
  induction h with
  | init =>
      exact ⟨⟨[], Pool.init hquiet.current hquiet.unlocked, Nat.zero_le 1⟩, hcached.one,
        hcached.small⟩
  | step _ hstep hmay ih => exact ⟨ih.1.submit ih.2 hstep, hmay⟩
  | elsewhere _ helse hmay ih => exact ⟨ih.1.elsewhere helse, hmay⟩
  | flags _ _ _ ih =>
      obtain ⟨⟨q, hq, hdesc⟩, hkeys⟩ := ih
      exact ⟨⟨q, hq.congr (.of_buf rfl rfl rfl), hdesc⟩, hkeys.one, hkeys.small⟩

/-- **Elevator order.**  There is at most one place in the queue where `IN_ORDER` fails for
two neighbours, and `add_request` keeps the request in service at the head and the order of
all the others. -/
theorem elevator_order {x : Submission n × Sys n} (hquiet : s₀.Quiet) (hcached : s₀.Cached)
    (h : Reached env (fun _ y => y.2.Cached) s₀ x) :
    (∃ q, x.2.Queue q ∧
      descents (fun a b => inOrder (x.2.request a) (x.2.request b) = true) q ≤ 1) ∧
    ∀ r head rest e k s', x.1.slot = some r → x.2.Queue (head :: rest) →
      addRequest r e k x.2 = .ok () s' →
      ∃ l₁ l₂, rest = l₁ ++ l₂ ∧ s'.Queue (head :: (l₁ ++ r :: l₂)) := by
  obtain ⟨⟨q, hq, hdesc⟩, hkeys⟩ := h.ordered hquiet hcached
  refine ⟨⟨q, hq.chain, ?_⟩, fun r head rest e k s' hslot hqueue hadd => ?_⟩
  · refine (le_of_eq (descents_congr ?_)).trans hdesc
    refine hq.nodup.imp_of_mem fun {a b} ha hb hne => ?_
    exact (hq.inOrder_iff hkeys (.inl ha) hb hne).2.1
  · obtain ⟨⟨buf, cmd, slot⟩, s⟩ := x
    obtain rfl : slot = some r := hslot
    obtain rfl : q = head :: rest := hq.chain.unique hqueue
    have hcur : s.current = some head := hqueue.1
    rw [addRequest_run] at hadd
    unfold sti at hadd
    simp only [hcur, bind_eq_ok, update_run, update_bind, Res.ok.injEq,
      true_and] at hadd
    obtain ⟨tmp, s₁, helev, rfl⟩ := hadd
    obtain ⟨rfl, -⟩ := elevator_behind helev
    obtain ⟨q', hpool, hplaced⟩ := hq.joined hcur helev
    obtain ⟨a, l₁, l₂, heq, rfl⟩ := hplaced.split
    obtain ⟨rfl, rfl⟩ := List.cons.inj heq
    exact ⟨l₁, l₂, rfl, hpool.chain⟩

/-! ## Three requests -/

/-- Three headers of a disk, for the blocks `nr`; the first two are to be written. -/
def threeBlocks (nr : Fin 3 → ℕ) : Sys 3 :=
  { Sys.load fun _ _ _ => 7 with
    geo := smallDrive
    hdEnabled := true
    buf := fun b =>
      { bBlocknr := nr b, bDev := 0x300, bCount := 0
        bPrev := none, bNext := none, bPrevFree := none, bNextFree := none, bData := zeroBlock
        bUptodate := b ≠ 2, bDirt := b ≠ 2, bLock := false } }

theorem threeBlocks_quiet (nr : Fin 3 → ℕ) : (threeBlocks nr).Quiet := ⟨rfl, fun _ => rfl, rfl, rfl⟩

/-- `ll_rw_block` has locked the buffer `b` and filled the slot `r` for it. -/
def Sys.filled (s : Sys n) (rw : Rw) (b : Fin n) (r : Fin nrRequest) : Sys n :=
  (s.setBuf b fun bh => { bh with bLock := true }).setRequest r fun _ =>
    makeRequest (s.setBuf b fun bh => { bh with bLock := true }) rw b

theorem Sys.filled_rest (s : Sys n) (rw : Rw) (b : Fin n) (r : Fin nrRequest) :
    (s.filled rw b r).rest = s.rest :=
  Sys.rest_setBuf s b (f := fun bh => { bh with bLock := true }) fun _ => rfl

/-- A run goes on with a call of `ll_rw_block`, up to `add_request`. -/
theorem Reached.filled {may : Submission n × Sys n → Submission n × Sys n → Prop}
    (h : Reached env may s₀ (.idle, s)) (rw : Rw) (b : Fin n)
    (hmay : ∀ x y, x.1.slot = none → y.2.rest = s.rest → may x y) (hlock : (s.buf b).bLock = false)
    (hmajor : major (s.buf b).bDev = 3) (hon : s.hdEnabled = true) (hrw : rw = .read ∨ rw = .write)
    (hdirt : rw = .write → (s.buf b).bDirt = true)
    (hup : rw = .read → (s.buf b).bUptodate = false)
    (hfree : freeSlot (s.setBuf b fun bh => { bh with bLock := true }) rw = some r) :
    Reached env may s₀ (⟨some b, some rw, some r⟩, s.filled rw b r) := by
  have hrest : (s.setBuf b fun bh => { bh with bLock := true }).rest = s.rest :=
    Sys.rest_setBuf s b fun _ => rfl
  have hlocked := h.step (.lock hlock hmajor hon) (hmay _ _ rfl hrest)
  have hchecked := hlocked.step (.check hrw (by simpa using hdirt) (by simpa using hup))
    (hmay _ _ rfl hrest)
  exact hchecked.step (.fill hfree) (hmay _ _ rfl hrest)

/-- The headers of the blocks 50, 30 and 10. -/
def fallingBlocks : Sys 3 := threeBlocks fun b => 50 - 20 * b.val

/-- The write of block 50 is in service. -/
def firstWrite : Sys 3 :=
  (doHdRequest (Env.diligent 0x50) 20
    (((((initRequestQueue fallingBlocks).filled .write 0 20).offer 20).start 20).setIntr
      true)).state

/-- The write of block 30 waits behind it. -/
def secondWrite : Sys 3 :=
  ((((firstWrite.filled .write 1 19).offer 19).linkBehind 20 19).setIntr true)

/-- The read of block 10 is put between the two. -/
def readBetween : Sys 3 :=
  ((((secondWrite.filled .read 2 31).offer 31).linkBehind 20 31).setIntr true)

/-- A run up to the point where the read of block 10 is about to be linked. -/
theorem readBetween_reached {may : Submission 3 × Sys 3 → Submission 3 × Sys 3 → Prop}
    (hmay : ∀ x y, x.1.slot = none → y.2.rest = fallingBlocks.rest → may x y)
    (hwrite : ∀ x y r, x.1.slot = some r → (x.2.request r).cmd = .write →
      y.2.rest = fallingBlocks.rest → may x y) :
    Reached (Env.diligent 0x50) may fallingBlocks
      (⟨some 2, some .read, some 31⟩, secondWrite.filled .read 2 31) := by
  have hmajor : ∀ s : Sys 3, s.rest = fallingBlocks.rest → ∀ b, major (s.buf b).bDev = 3 := by
    intro s hs b
    have hdev : (s.buf b).bDev = (fallingBlocks.buf b).bDev :=
      congrArg (fun t => (t.links b).bDev) hs
    rw [hdev]
    exact (by decide : EgGS.major 0x300 = 3)
  have hcalled : doHdRequest (Env.diligent 0x50) 20
      (((((initRequestQueue fallingBlocks).filled .write 0 20).offer 20).start 20).setIntr true) =
        .ok () firstWrite := Res.eq_ok rfl
  have hfirst : firstWrite.rest = fallingBlocks.rest :=
    (doHdRequest_rest hcalled).trans
    ((Sys.offer_rest ((initRequestQueue fallingBlocks).filled .write 0 20) 20).trans
      (Sys.filled_rest ..))
  have hsecond : secondWrite.rest = fallingBlocks.rest :=
    (Sys.offer_rest (firstWrite.filled .write 1 19) 19).trans ((Sys.filled_rest ..).trans hfirst)
  have hstart : Reached (Env.diligent 0x50) may fallingBlocks (.idle, firstWrite) := by
    have hinit : Reached (Env.diligent 0x50) may fallingBlocks
      (.idle, initRequestQueue fallingBlocks) :=
      .init
    have h := hinit.filled .write 0 (r := 20) hmay rfl (hmajor _ rfl 0) rfl (.inr rfl)
      (fun _ => rfl) (by simp) rfl
    exact h.step (.start rfl hcalled) (hwrite _ _ 20 rfl rfl hfirst)
  have hqueue : Reached (Env.diligent 0x50) may fallingBlocks (.idle, secondWrite) := by
    have h := hstart.filled .write 1 (r := 19)
      (fun x y hx hy => hmay x y hx (hy.trans hfirst)) rfl (hmajor _ hfirst 1) rfl (.inr rfl)
      (fun _ => rfl) (by simp) rfl
    exact h.step (.queue (e := Env.diligent 0x50) (k := 20) rfl rfl)
      (hwrite _ _ 19 rfl rfl hsecond)
  exact hqueue.filled .read 2 (fun x y hx hy => hmay x y hx (hy.trans hsecond)) rfl
    (hmajor _ hsecond 2) rfl (.inl rfl) (by simp) (fun _ => rfl) rfl

theorem readBetween_added : addRequest 31 (Env.diligent 0x50) 20 (secondWrite.filled .read 2 31) =
    .ok () readBetween := Res.eq_ok rfl

/-- Two requests are queued, and `add_request` links a third one in. -/
theorem elevator_order_three :
    (∃ q, (secondWrite.filled .read 2 31).Queue q ∧
      descents (fun a b => inOrder ((secondWrite.filled .read 2 31).request a)
        ((secondWrite.filled .read 2 31).request b) = true) q ≤ 1) ∧
      ∃ l₁ l₂, [19] = l₁ ++ l₂ ∧ readBetween.Queue (20 :: (l₁ ++ 31 :: l₂)) := by
  have hcached : ∀ s : Sys 3, s.rest = fallingBlocks.rest → s.Cached := by
    intro s hs
    have hnr : ∀ b, (s.buf b).bBlocknr = 50 - 20 * b.val := fun b =>
      congrArg (fun t => (t.links b).bBlocknr) hs
    refine ⟨fun b c _ hkey => ?_, fun b _ => by rw [hnr]; omega⟩
    have hsame := hkey.2
    rw [hnr, hnr] at hsame
    omega
  obtain ⟨hqueue, hadd⟩ := elevator_order (threeBlocks_quiet _) (hcached _ rfl)
    (readBetween_reached (fun _ _ _ hy => hcached _ hy) fun _ _ _ _ _ hy => hcached _ hy)
  exact ⟨hqueue, hadd 31 20 [19] _ 20 readBetween rfl ⟨rfl, rfl, rfl⟩ readBetween_added⟩

end EgGS
