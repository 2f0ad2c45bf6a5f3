import EgGS.Block.Order

/-!
# Reads and writes in the queue

`IN_ORDER` puts every read before every write, and a comment on it says that reads always
go before writes.  But the elevator never goes back: a read that the test of `add_request`
does not let in before the first waiting write is linked behind it.

* `reads_first`: in a run in which every read is let in early no waiting write precedes a
  waiting read.
* `write_before_read`: a write in service, a write waiting and a read.
-/

namespace EgGS

open Lib Prog

variable {n : ℕ} {env : Env n} {k : ℕ} {s s' s₀ : Sys n}
variable {sub : Submission n} {r : Fin nrRequest} {q : List (Fin nrRequest)}

/-! ## The property -/

/-- No waiting `WRITE` of the queue precedes a waiting `READ`. -/
def Sys.ReadsFirst (s : Sys n) (q : List (Fin nrRequest)) : Prop :=
  q.tail.Pairwise fun a b => ¬ ((s.request a).cmd = .write ∧ (s.request b).cmd = .read)

/-- The request in slot `r` is a `WRITE`. -/
def Sys.Writes (s : Sys n) (r : Fin nrRequest) : Prop := (s.request r).cmd = .write

/-- If the step links a `READ` into the queue, the test of `add_request` succeeds before the
first waiting `WRITE`, or none waits. -/
def Timely (x y : Submission n × Sys n) : Prop :=
  ∀ r q, x.1.slot = some r → y.1.slot = none → x.2.Queue q → (x.2.request r).cmd = .read →
    Early (x.2.fits r) x.2.Writes q

theorem Pool.readsFirst_iff (h : Pool sub s q) :
    s.ReadsFirst q ↔ q.tail.Pairwise fun a b => s.Writes a → s.Writes b := by
  refine List.Pairwise.iff_of_mem fun {a b} _ hb => ?_
  obtain ⟨c, hc⟩ := h.goodMem (List.mem_of_mem_tail hb)
  rcases hc.cmd with hcmd | hcmd <;> simp [Sys.Writes, hcmd]

/-- A read is put before the waiting writes exactly if it is early; a write is always put
behind the waiting reads. -/
theorem Pool.joined_readsFirst {buf : Option (Fin n)} {cmd : Option Rw} {q' : List (Fin nrRequest)}
    (h : Pool ⟨buf, cmd, some r⟩ s q) (hplaced : Placed (s.fits r) r q q')
    (hfirst : q.tail.Pairwise fun a b => s.Writes a → s.Writes b) :
    ((s.request r).cmd = .read → ((q'.tail.Pairwise fun a b => s.Writes a → s.Writes b) ↔
      Early (s.fits r) s.Writes q)) ∧
    ((s.request r).cmd = .write → q'.tail.Pairwise fun a b => s.Writes a → s.Writes b) := by
  refine ⟨fun hread => hplaced.early_iff (by simp [Sys.Writes, hread]) hfirst, fun hwrite => ?_⟩
  have hplaced' : Placed (fun a b => s.fits r a b ∧ b ∈ q) r q q' :=
    hplaced.congr fun a _ b hb => by simp [hb]
  refine hplaced'.late hwrite (fun a b hab => ?_) hfirst
  obtain ⟨c, hc⟩ := h.goodMem hab.2
  have horder : inOrder (s.request r) (s.request b) = true := hab.1.2
  rcases hc.cmd with hcmd | hcmd
  · simp [inOrder, hwrite, hcmd, Rw.code] at horder
  · exact hcmd

/-! ## The invariant -/

/-- The queue, with the waiting reads first. -/
def Sorted (sub : Submission n) (s : Sys n) : Prop :=
  ∃ q, Pool sub s q ∧ q.tail.Pairwise fun a b => s.Writes a → s.Writes b

theorem Sorted.pooled (h : Sorted sub s) : Pooled sub s := h.imp fun _ hq => hq.1

theorem Sorted.drained {sub' : Submission n} (h : Sorted sub s) (hdrained : Drained s s')
    (hpooled : Pooled sub' s') : Sorted sub' s' := by
  obtain ⟨q, hq, hfirst⟩ := h
  obtain ⟨q', ⟨t, rfl⟩, hq'⟩ := hdrained.queue q hq.chain
  obtain ⟨q'', hpool⟩ := hpooled
  obtain rfl : q'' = q' := hpool.chain.unique hq'
  have hwrites : ∀ a, s'.Writes a ↔ s.Writes a := fun a => by
    rw [Sys.Writes, Sys.Writes, (hdrained.same a).2.2]
  refine ⟨_, hpool, ?_⟩
  simp only [hwrites]
  refine hfirst.sublist ?_
  cases t with
  | nil => exact List.Sublist.refl _
  | cons a t => exact (List.tail_sublist _).trans (List.sublist_append_right t q'')

theorem Sys.linked_writes (s : Sys n) (r tmp a : Fin nrRequest) :
    (((s.offer r).linkBehind tmp r).setIntr true).Writes a ↔ s.Writes a := by
  obtain ⟨next, hnext⟩ := (s.offer r).linkBehind_next tmp r a
  obtain ⟨next', hnext'⟩ := s.offer_next r a
  rw [Sys.Writes, Sys.Writes, Sys.setIntr_request, hnext, hnext']

theorem Sorted.submit {x y : Submission n × Sys n} (h : Sorted x.1 x.2) (htimely : Timely x y)
    (hstep : Submit env x y) : Sorted y.1 y.2 := by
  have hpooled := h.pooled.submit hstep
  cases hstep with
  | time _ _ => exact h.drained (.of_request rfl rfl) hpooled
  | interrupt _ hint => exact h.drained (hdInterrupt_drained hint) hpooled
  | lock _ _ _ => exact h.drained (.of_request rfl rfl) hpooled
  | check _ _ _ => exact h.drained (.refl _) hpooled
  | giveUp => exact h.drained (.of_request rfl rfl) hpooled
  | @fill s b rw r hfree =>
      obtain ⟨q, hq, hfirst⟩ := h
      have hdev := (freeSlot_eq_some hfree).2
      have hsame : ∀ x ∈ q.tail, (s.setRequest r fun _ => makeRequest s rw b).Writes x ↔
          s.Writes x := by
        intro x hx
        have hused : 0 ≤ (s.request x).dev := (hq.slots x).mpr (.inl (List.mem_of_mem_tail hx))
        have hne : x ≠ r := by
          rintro rfl
          omega
        simp [Sys.Writes, hne]
      refine ⟨q, hq.fill hfree, hfirst.imp_of_mem fun {a b'} ha hb' h hw => ?_⟩
      exact (hsame b' hb').mpr (h ((hsame a ha).mp hw))
  | @start s s' buf cmd r k hcur hdo =>
      obtain ⟨q, hq, -⟩ := h
      exact Sorted.drained ⟨[r], hq.startQueue hcur, List.Pairwise.nil⟩ (doHdRequest_drained hdo)
        hpooled
  | @queue s buf cmd r head tmp e k hcur helev =>
      obtain ⟨q, hq, hfirst⟩ := h
      obtain ⟨q', hpool, hplaced⟩ := hq.joined hcur helev
      obtain ⟨hread, hwrite⟩ := hq.joined_readsFirst hplaced hfirst
      refine ⟨q', hpool, ?_⟩
      simp only [s.linked_writes r tmp]
      obtain ⟨b, hb⟩ := hq.good r (.inr rfl)
      rcases hb.cmd with hcmd | hcmd
      · exact (hread hcmd).mpr (htimely r q rfl rfl hq.chain hcmd)
      · exact hwrite hcmd

theorem Reached.sorted {x : Submission n × Sys n} (hquiet : s₀.Quiet)
    (h : Reached env Timely s₀ x) : Sorted x.1 x.2 := by
  induction h with
  | init => exact ⟨[], Pool.init hquiet.current hquiet.unlocked, List.Pairwise.nil⟩
  | step _ hstep hmay ih => exact ih.submit hmay hstep
  | elsewhere _ helse _ ih =>
      obtain ⟨q, hq, hfirst⟩ := ih
      refine ⟨q, hq.congr helse.samePool, ?_⟩
      simpa only [Sys.Writes, helse.request] using hfirst
  | flags _ _ _ ih =>
      obtain ⟨q, hq, hfirst⟩ := ih
      exact ⟨q, hq.congr (.of_buf rfl rfl rfl), hfirst⟩

/-- **Reads first.**  If every read is linked in early, no waiting write precedes a waiting
read in any state of the run; and a step that links a read in late ends this. -/
theorem reads_first {x : Submission n × Sys n} (hquiet : s₀.Quiet)
    (h : Reached env Timely s₀ x) :
    (∃ q, x.2.Queue q ∧ x.2.ReadsFirst q) ∧
      ∀ y, Submit env x y → ((∃ q, y.2.Queue q ∧ y.2.ReadsFirst q) ↔ Timely x y) := by
  have hsorted := h.sorted hquiet
  have hqueue : ∀ {x : Submission n × Sys n}, Sorted x.1 x.2 →
      ∃ q, x.2.Queue q ∧ x.2.ReadsFirst q :=
    fun ⟨q, hq, hfirst⟩ => ⟨q, hq.chain, hq.readsFirst_iff.mpr hfirst⟩
  refine ⟨hqueue hsorted, fun y hstep => ⟨fun hafter => ?_, fun htimely => ?_⟩⟩
  · rintro r q hslot hidle hq hread
    cases hstep with
    | time _ _ => exact absurd (hslot.symm.trans hidle) (by simp)
    | interrupt _ _ => exact absurd (hslot.symm.trans hidle) (by simp)
    | lock _ _ _ => exact absurd hslot (by simp)
    | check _ _ _ => exact absurd hslot (by simp)
    | giveUp => exact absurd hslot (by simp)
    | fill _ => exact absurd hidle (by simp)
    | start hcur _ =>
        obtain rfl : q = [] := by
          cases q with
          | nil => rfl
          | cons a q => exact absurd (hcur.symm.trans hq.1) (by simp)
        trivial
    | @queue s buf cmd r' head tmp e k hcur helev =>
        obtain rfl : r' = r := Option.some.inj hslot
        obtain ⟨q₀, hpool₀, hfirst⟩ := hsorted
        obtain rfl : q₀ = q := hpool₀.chain.unique hq
        obtain ⟨q', hpool, hplaced⟩ := hpool₀.joined hcur helev
        obtain ⟨q'', hq'', hfirst''⟩ := hafter
        obtain rfl : q'' = q' := hq''.unique hpool.chain
        refine ((hpool₀.joined_readsFirst hplaced hfirst).1 hread).mp ?_
        have hwrites := hpool.readsFirst_iff.mp hfirst''
        simpa only [s.linked_writes r' tmp] using hwrites
  · exact hqueue (hsorted.submit htimely hstep)

/-! ## A write before a read -/

/-- The headers of the blocks 50, 100 and 10, the first two of which are to be written. -/
def threeBuffers : Sys 3 := threeBlocks fun b => if b = 2 then 10 else 50 * b.val + 50

/-- The state after a call of `ll_rw_block` during which the controller is silent. -/
def Sys.ask (s : Sys 3) (rw : Rw) (b : Fin 3) : Sys 3 :=
  (llRwBlock rw b (Env.diligent 0x50).silent 20 s).state

/-- A request for each of the three headers. -/
def threeRequests : Sys 3 :=
  (((initRequestQueue threeBuffers).ask .write 0).ask .write 1).ask .read 2

theorem threeRequests_reach : BlkReach (Env.diligent 0x50).silent threeBuffers threeRequests := by
  have hask : ∀ {s : Sys 3} (rw : Rw) (b : Fin 3),
      BlkReach (Env.diligent 0x50).silent threeBuffers s →
      (s.buf b).bLock = false → (llRwBlock rw b (Env.diligent 0x50).silent 20 s).value? = some () →
      BlkReach (Env.diligent 0x50).silent threeBuffers (s.ask rw b) :=
    fun rw b hreach hlock hret => .call rw b hreach hlock (Res.eq_ok hret)
  exact hask .read 2 (hask .write 1 (hask .write 0 .init rfl rfl) rfl rfl) rfl rfl

/-- The write of block 50 is in service and the write of block 100 waits.  A read of block
10 is linked behind both. -/
theorem write_before_read : ¬ ∀ s, BlkReach (Env.diligent 0x50).silent threeBuffers s →
    ∃ q, s.Queue q ∧ s.ReadsFirst q := by
  intro h
  obtain ⟨q, hq, hfirst⟩ := h _ threeRequests_reach
  have hqueue : threeRequests.Queue [20, 19, 31] := by
    refine ⟨rfl, rfl, rfl, ?_⟩
    show (threeRequests.request 31).next = none
    rfl
  obtain rfl : q = [20, 19, 31] := hq.unique hqueue
  have hpair := (List.pairwise_cons.mp hfirst).1 31 (by simp)
  exact hpair ⟨rfl, rfl⟩

/-- The read of block 10 goes before the waiting write of block 30. -/
theorem reads_first_three : ∃ q, readBetween.Queue q ∧ readBetween.ReadsFirst q := by
  have hidle : ∀ x y : Submission 3 × Sys 3, x.1.slot = none → Timely x y :=
    fun _ _ hnone _ _ hslot => absurd (hslot.symm.trans hnone) (by simp)
  have hwrite : ∀ (x y : Submission 3 × Sys 3) r, x.1.slot = some r →
      (x.2.request r).cmd = .write → Timely x y := by
    intro x y r hr hcmd r' q hslot _ _ hread
    obtain rfl : r = r' := Option.some.inj (hr.symm.trans hslot)
    exact absurd (hcmd.symm.trans hread) (by decide)
  have hstep : Submit (Env.diligent 0x50)
      (⟨some 2, some .read, some 31⟩, secondWrite.filled .read 2 31) (.idle, readBetween) :=
    .queue (e := Env.diligent 0x50) (k := 20) rfl rfl
  have htimely : Timely (⟨some 2, some .read, some 31⟩, secondWrite.filled .read 2 31)
      ((.idle : Submission 3), readBetween) := by
    intro r q hslot _ hq _
    obtain rfl : 31 = r := Option.some.inj hslot
    have hqueue : (secondWrite.filled .read 2 31).Queue [20, 19] := ⟨rfl, rfl, rfl⟩
    obtain rfl : q = [20, 19] := hq.unique hqueue
    exact .inl ⟨by decide, by decide⟩
  exact ((reads_first (threeBlocks_quiet _) (readBetween_reached (fun x y hx _ => hidle x y hx)
    fun x y r hr hcmd _ => hwrite x y r hr hcmd)).2 _ hstep).mpr htimely

end EgGS
