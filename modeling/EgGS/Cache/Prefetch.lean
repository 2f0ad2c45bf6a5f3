import EgGS.Cache.Pages

/-!
# Reading ahead

`read_buff_ahead` takes the buffer of a first block, starts reads for the blocks of an argument
list, which a negative number ends, and waits for the first one.  The argument is compared
with `MAX_HD`, the number of drives, and as an `unsigned int`: the loop does end at a negative
number, but also at every block number from `MAX_HD` on.

* `Took`: between the rounds of the loop the call has the first buffer and nothing else.
* `read_ahead_agrees`: the call does what `read_buff` does for the first block and starts a read
  for every listed block, exactly if each of these is the first one or stands before the first
  number that ends the loop.
* `read_ahead_stops`: a list of block 5.
-/

namespace EgGS

open Lib Prog Relation

variable {n : ℕ} {env : Env n} {k : ℕ} {s s' t u : Sys n}
variable {b c : Fin n} {dev block first j m : ℕ} {args : ℕ → ℤ}

/-! ## The result of a read -/

/-- What a read of a block leaves behind: a reference to its buffer, which is up to date, or
none to a buffer that is not. -/
def ReadResult (s : Sys n) (dev block : ℕ) : Option (Fin n) → Sys n → Prop
  | some b, s' => s'.Keyed b dev block ∧ (s'.buf b).bUptodate = true ∧
      ∀ c, (s'.buf c).bCount = (s.buf c).bCount + if c = b then 1 else 0
  | none, s' => (∃ b, s'.Keyed b dev block ∧ (s'.buf b).bUptodate = false) ∧
      ∀ c, (s'.buf c).bCount = (s.buf c).bCount

/-- The end of a read: wait for the buffer, and give it back if it could not be read. -/
def finishRead (b : Fin n) : P n (Option (Fin n)) := do
  waitOnBuff b
  let s ← Prog.read
  if (s.buf b).bUptodate then
    pure (some b)
  else do
    putBuff (some b)
    pure none

/-- Since `s` a reference to the buffer `b` of the block has been taken, and nothing else. -/
structure Took (s : Sys n) (dev block : ℕ) (b : Fin n) (t : Sys n) : Prop where
  ready : Ready (fun _ => False) t
  key : t.Keyed b dev block
  count : ∀ c, (t.buf c).bCount = (s.buf c).bCount + if c = b then 1 else 0

theorem Took.submits (henv : env.Works fun _ => False) (h : Took s dev block b t)
    (hpath : Submits env (.idle, t) (.idle, u)) : Took s dev block b u where
  ready := h.ready.submits henv hpath
  key := (Submits.keyed_iff hpath b).mpr h.key
  count c := (congrArg BufferLinks.bCount (Submits.links hpath c)).trans (h.count c)

theorem Ready.took (henv : env.Works fun _ => False) (h : Ready (fun _ => False) s)
    (hshort : dev < 65536) (htaken : Taken env s dev block b t)
    (hroom : ∀ c, (s.buf c).bCount + 1 < 256) : Took s dev block b t := by
  have hcounted : Counted (fun c => (s.buf c).bCount) s := ⟨fun _ => rfl, h.count⟩
  obtain ⟨hcounted', -, -⟩ := hcounted.taken htaken fun _ => hroom b
  refine ⟨h.taken henv hshort htaken, htaken.keyed hshort, fun c => ?_⟩
  rw [hcounted'.count, Refs.add_apply]

/-- A reference is given back. -/
theorem Sys.countDown_less {x : ℕ} (hcount : (s.buf c).bCount = x + if c = b then 1 else 0)
    (hlt : (s.buf c).bCount < 256) : ((s.countDown b).buf c).bCount = x := by
  rw [Sys.countDown, Sys.setBuf_at (·.bCount)]
  split
  · rename_i hbc
    rw [if_pos hbc.symm] at hcount
    dsimp only
    omega
  · rename_i hbc
    rw [if_neg (Ne.symm hbc)] at hcount
    exact hcount

section
variable (henv : env.Works fun _ => False)
include henv

theorem Took.finishRead (h : Took s dev block b t) :
    Does (finishRead b) env t (ReadResult s dev block) := by
  refine (h.ready.waitsFor henv b).bind fun _ u ⟨hwait, hlock⟩ => .bind_read ?_
  have hu := h.submits henv (hwait.submits _)
  refine .ite (fun hup => .pure ⟨hu.key, hup, hu.count⟩) fun hstale => ?_
  have hput : Does (putBuff (some b)) env u fun _ v => ∃ w, Waits env u w ∧ v = w.countDown b := by
    refine (hu.ready.waitsFor henv b).bind fun _ w ⟨hwait', _⟩ => .bind_read (.ite (fun hzero => ?_)
      fun _ => .update ⟨w, hwait', rfl⟩)
    have hcount := (hu.submits henv (hwait'.submits _)).count b
    rw [hzero, if_pos rfl] at hcount
    omega
  refine hput.bind ?_
  rintro _ _ ⟨w, hwait', rfl⟩
  have hw := hu.submits henv (hwait'.submits _)
  -- the buffer is not locked, so it has no request
  obtain ⟨-, heffects⟩ := hwait'.effects henv.answers hu.ready.working.serving
  obtain ⟨hbuf, -⟩ := heffects.free fun cmd => hu.ready.unqueued hlock cmd
  refine .pure ⟨⟨b, ?_, ?_⟩, fun c => ?_⟩
  · refine (Sys.key_eq (dev, block)).mp ?_
    rw [(@Beside.countDown n (fun _ => 1) w b).key b Nat.one_pos]
    exact (Sys.key_eq (dev, block)).mpr hw.key
  · rw [(w.countDown_core b b).1, hbuf]
    exact Bool.eq_false_iff.mpr hstale
  · exact Sys.countDown_less (hw.count c) (hw.ready.count c)

/-- **`read_buff`** of a block for which there is room. -/
theorem Ready.readBuff (h : Ready (fun _ => False) s) (hdev : dev ≠ 0) (hshort : dev < 65536)
    (hroom : ∀ c, (s.buf c).bCount + 1 < 256)
    (hspare : (∃ b, s.Keyed b dev block) ∨ ∃ c, (s.buf c).bCount = 0) :
    Does (readBuff dev block) env s (ReadResult s dev block) := by
  refine (h.getBuff henv hdev hshort hspare).bind fun b t hobtained => .bind_read ?_
  have ht := h.took henv hshort hobtained.taken hroom
  have hlock := hobtained.taken.unlocked
  refine .ite (fun hup => .pure ⟨ht.key, hup, ht.count⟩) fun _ => ?_
  refine ((ht.ready.working.llRwBlock_returns henv hlock).does fun _ _ _ hrun =>
    llRwBlock_submits hlock hrun).bind fun _ u hpath => ?_
  exact (ht.submits henv hpath).finishRead henv

end

/-! ## The blocks of the list -/

/-- One round of the loop of `read_buff_ahead`. -/
def aheadRound (dev : ℕ) (args : ℕ → ℤ) (i : ℕ) : P n (ℕ ⊕ Unit) :=
  if unsigned (args i) < 2 then do
    let tmp ← getBuff dev (unsigned (args i))
    readIfStale .readA tmp
    Prog.update (Sys.countDown · tmp)
    pure (.inl (i + 1))
  else
    pure (.inr ())

theorem readBuffAhead_rounds : (readBuffAhead dev first args : P n (Option (Fin n))) =
    getBuff dev first >>= fun b => readIfStale .read b >>= fun _ =>
      Prog.iterate (aheadRound dev args) 0 >>= fun _ => finishRead b := rfl

/-- The call made in `s` comes to round `j` of its loop in the state `t`. -/
inductive AheadAt (env : Env n) (dev first : ℕ) (args : ℕ → ℤ) (s : Sys n) : ℕ → Sys n → Prop
  | start {b : Fin n} {t u : Sys n} : Evals (getBuff dev first) env s b t →
      Evals (readIfStale .read b) env t () u → AheadAt env dev first args s 0 u
  | round {j : ℕ} {t u : Sys n} : AheadAt env dev first args s j t →
      Evals (aheadRound dev args j) env t (.inl (j + 1)) u → AheadAt env dev first args s (j + 1) u

/-- The read of the unlocked buffer `b` is started: it is up to date already, or a request was
made for it, or there was no slot for one. -/
inductive Started (env : Env n) (b : Fin n) (s s' : Sys n) : Prop
  | uptodate : (s'.buf b).bUptodate = true → Started env b s s'
  | made {u : Sys n} {r : Fin nrRequest} :
      Submits env (.idle, s) (⟨some b, some .read, some r⟩, u) → u.Queued b .read →
      Submits env (⟨some b, some .read, some r⟩, u) (.idle, s') → Started env b s s'
  | noSlot {u : Sys n} : Submits env (.idle, s) (⟨some b, some .read, none⟩, u) →
      freeSlot u .read = none → Started env b s s'

/-- The call made in `s` takes the buffer of the block and starts to read it. -/
inductive Prefetched (env : Env n) (dev first : ℕ) (args : ℕ → ℤ) (s : Sys n) (block : ℕ) : Prop
  | first {b : Fin n} {t u : Sys n} : block = first → Evals (getBuff dev block) env s b t →
      t.Keyed b dev block → Evals (readIfStale .read b) env t () u → Started env b t u →
      Prefetched env dev first args s block
  | ahead {j : ℕ} {b : Fin n} {t u v : Sys n} : AheadAt env dev first args s j t →
      unsigned (args j) < 2 → unsigned (args j) = block → Evals (getBuff dev block) env t b u →
      u.Keyed b dev block → Evals (readIfStale .readA b) env u () v → Started env b u v →
      Prefetched env dev first args s block

/-- The rounds before have had arguments below `MAX_HD`. -/
theorem AheadAt.args_lt (h : AheadAt env dev first args s j t) :
    ∀ i < j, unsigned (args i) < 2 := by
  induction h with
  | start _ _ => exact fun i hi => absurd hi (Nat.not_lt_zero i)
  | @round j t u _ hround ih =>
      intro i hi
      rcases Nat.lt_succ_iff_lt_or_eq.mp hi with hi | rfl
      · exact ih i hi
      · by_contra hge
        obtain ⟨k, hk⟩ := hround.exists_run
        rw [aheadRound, if_neg hge, pure_run] at hk
        simp at hk

/-- The loop comes to the block before it stops. -/
def Passes (first : ℕ) (args : ℕ → ℤ) (block : ℕ) : Prop :=
  block = first ∨ ∃ j, (∀ i ≤ j, unsigned (args i) < 2) ∧ unsigned (args j) = block

theorem Prefetched.passes (h : Prefetched env dev first args s block) :
    Passes first args block := by
  cases h with
  | first hfirst _ _ _ _ => exact .inl hfirst
  | ahead hat harg hblock _ _ _ _ =>
      refine .inr ⟨_, fun i hi => ?_, hblock⟩
      rcases Nat.lt_or_eq_of_le hi with hi | rfl
      · exact hat.args_lt i hi
      · exact harg

section
variable (henv : env.Works fun _ => False)
include henv

theorem Ready.readIfStale {rw : Rw} (h : Ready (fun _ => False) s)
    (hplain : rw.plain = .read) (hmajor : major (s.buf b).bDev = 3)
    (hlock : (s.buf b).bLock = false) :
    Does (readIfStale rw b) env s fun _ s' => Submits env (.idle, s) (.idle, s') ∧
    Started env b s s' := by
  refine .bind_read (.ite (fun hup => .pure ⟨.refl, .uptodate hup⟩) fun _ => ?_)
  refine (h.working.llRwBlock_returns henv hlock).does fun _ _ s' hrun =>
    ⟨llRwBlock_submits hlock hrun, ?_⟩
  have hrequested := llRwBlock_requested hmajor h.working.enabled hlock hrun
  cases hrequested with
  | @done t hpath hflags heq =>
      have hup : (t.buf b).bUptodate = true := by simpa [hplain] using hflags
      refine .uptodate ?_
      rwa [heq, unlockBuff, Sys.setBuf_at (·.bUptodate), ite_self]
  | made hmade hqueued hjoin =>
      rw [hplain] at hmade hqueued hjoin
      exact .made hmade hqueued hjoin
  | noSlot _ hpath hnone _ =>
      rw [hplain] at hpath hnone
      exact .noSlot hpath hnone

/-- **A round of the loop** takes a buffer, starts its read and counts it down again. -/
theorem Took.round (h : Took s dev block b t) (hdev : dev ≠ 0) (hshort : dev < 65536)
    (hmajor : major dev = 3) (hroom : ∀ c, (s.buf c).bCount + 2 < 256)
    (hspare : ∃ c, (t.buf c).bCount = 0) (harg : unsigned (args j) < 2) :
    Does (aheadRound dev args j) env t fun x v => x = .inl (j + 1) ∧ Took s dev block b v ∧
      ∃ c u w, Evals (getBuff dev (unsigned (args j))) env t c u ∧
        u.Keyed c dev (unsigned (args j)) ∧ Evals (EgGS.readIfStale .readA c) env u () w ∧
        Started env c u w := by
  have hroom' : ∀ c, (t.buf c).bCount + 1 < 256 := fun c => by
    have hc := h.count c
    have hr := hroom c
    split at hc <;> omega
  obtain ⟨c, u, hget, hobtained⟩ : Does (getBuff dev (unsigned (args j))) env t fun c u =>
      Obtained env t dev (unsigned (args j)) c u := h.ready.getBuff henv hdev hshort (.inr hspare)
  have htaken := hobtained.taken
  have hu := h.ready.took henv hshort htaken hroom'
  have hmajor' : major (u.buf c).bDev = 3 := by rw [hu.key.1, hmajor]
  obtain ⟨⟨⟩, w, hread, hpath, hstarted⟩ : Does (EgGS.readIfStale .readA c) env u fun _ w =>
      Submits env (.idle, u) (.idle, w) ∧ Started env c u w :=
    hu.ready.readIfStale henv rfl hmajor' htaken.unlocked
  have hw := hu.submits henv hpath
  have hround : Evals (aheadRound dev args j) env t (.inl (j + 1)) (w.countDown c) := by
    rw [aheadRound, if_pos harg]
    exact hget.bind (hread.bind (.of_eq fun _ => rfl))
  refine hround.does ⟨rfl, ⟨hw.ready.counted c (Nat.mod_lt _ (by decide)), ?_, fun d => ?_⟩, c, u,
    w, hget, hu.key, hread, hstarted⟩
  · -- the first buffer is held, so it keeps its block
    have hcounted : Counted (fun d => (t.buf d).bCount) t := ⟨fun _ => rfl, h.ready.count⟩
    obtain ⟨-, hkept, -⟩ := hcounted.taken htaken fun _ => hroom' c
    have hb : 0 < (t.buf b).bCount := by
      have hb := h.count b
      rw [if_pos rfl] at hb
      omega
    obtain ⟨hd, hr⟩ := hkept b hb
    have hkey : u.Keyed b dev block := ⟨hd.trans h.key.1, hr.trans h.key.2⟩
    refine (Sys.key_eq (dev, block)).mp ?_
    rw [(@Beside.countDown n (fun _ => 1) w c).key b Nat.one_pos]
    exact (Sys.key_eq (dev, block)).mpr ((Submits.keyed_iff hpath b).mpr hkey)
  · have hcount := hw.count d
    rw [h.count d] at hcount
    exact Sys.countDown_less hcount (hw.ready.count d)

/-- **The loop** goes on to the first argument that is not below `MAX_HD`. -/
theorem Took.rounds (hdev : dev ≠ 0) (hshort : dev < 65536) (hmajor : major dev = 3)
    (hroom : ∀ c, (s.buf c).bCount + 2 < 256)
    (hspare : ∃ c ≠ b, (s.buf c).bCount = 0) {e : ℕ} (hstop : 2 ≤ unsigned (args e))
    (hbelow : ∀ i < e, unsigned (args i) < 2) :
    ∀ d j t, j + d = e → Took s dev block b t → AheadAt env dev block args s j t →
      ∃ t', LoopEnds (aheadRound dev args) env j t (.ok () t') ∧ Took s dev block b t' ∧
        ∀ i, j ≤ i → i < e → Prefetched env dev block args s (unsigned (args i)) := by
  intro d
  induction d with
  | zero =>
      intro j t hj ht _
      obtain rfl : j = e := by omega
      refine ⟨t, .done (.of_eq fun k => ?_), ht, fun i hi hlt => absurd hlt (by omega)⟩
      rw [aheadRound, if_neg (by omega)]
      rfl
  | succ d ih =>
      intro j t hj ht hat
      have harg : unsigned (args j) < 2 := hbelow j (by omega)
      have hspare' : ∃ c, (t.buf c).bCount = 0 := by
        obtain ⟨c, hne, hc⟩ := hspare
        exact ⟨c, by rw [ht.count c, hc, if_neg hne]⟩
      obtain ⟨x, v, hround, rfl, hv, c, u, w, hget, hkey, hread, hstarted⟩ :=
        ht.round henv hdev hshort hmajor hroom hspare' harg
      obtain ⟨t', hends, ht', hall⟩ := ih (j + 1) v (by omega) hv (hat.round hround)
      refine ⟨t', .step hround hends, ht', fun i hi hlt => ?_⟩
      rcases Nat.lt_or_eq_of_le hi with hi | rfl
      · exact hall i hi hlt
      · exact .ahead hat harg rfl hget hkey hread hstarted

/-- **`read_buff_ahead`** reads the first block, and starts a read for all blocks that its loop
comes to. -/
theorem Ready.readBuffAhead (h : Ready (fun _ => False) s) (hdev : dev ≠ 0) (hshort : dev < 65536)
    (hmajor : major dev = 3) (hroom : ∀ c, (s.buf c).bCount + 2 < 256)
    (hspare : ∃ c d, c ≠ d ∧ (s.buf c).bCount = 0 ∧ (s.buf d).bCount = 0) {e : ℕ}
    (hstop : 2 ≤ unsigned (args e)) (hbelow : ∀ i < e, unsigned (args i) < 2) :
    Does (readBuffAhead dev first args) env s fun found s' => ReadResult s dev first found s' ∧
      Prefetched env dev first args s first ∧
      ∀ i < e, Prefetched env dev first args s (unsigned (args i)) := by
  obtain ⟨c, d, hcd, hc, hd⟩ := hspare
  rw [readBuffAhead_rounds]
  obtain ⟨b, t, hget, hobtained⟩ : Does (EgGS.getBuff dev first) env s fun b t =>
      Obtained env s dev first b t := h.getBuff henv hdev hshort (.inr ⟨c, hc⟩)
  have ht : Took s dev first b t := h.took henv hshort hobtained.taken fun c => by
    have hr := hroom c
    omega
  have hmajor' : major (t.buf b).bDev = 3 := by rw [ht.key.1, hmajor]
  obtain ⟨⟨⟩, u, hread, hpath, hstarted⟩ : Does (EgGS.readIfStale .read b) env t fun _ u =>
      Submits env (.idle, t) (.idle, u) ∧ Started env b t u :=
    ht.ready.readIfStale henv rfl hmajor' hobtained.taken.unlocked
  have hother : ∃ c ≠ b, (s.buf c).bCount = 0 := by
    by_cases hcb : c = b
    · exact ⟨d, fun hdb => hcd (hcb.trans hdb.symm), hd⟩
    · exact ⟨c, hcb, hc⟩
  obtain ⟨v, hends, hv, hall⟩ := Took.rounds henv hdev hshort hmajor hroom hother hstop hbelow e 0 u
    (by omega) (ht.submits henv hpath) (.start hget hread)
  obtain ⟨found, s', hfinish, hresult⟩ := hv.finishRead henv
  have htail : Evals (EgGS.readIfStale .read b >>= fun _ => Prog.iterate (aheadRound dev args) 0 >>=
      fun _ => EgGS.finishRead b) env t found s' := hread.bind (hends.evals.bind hfinish)
  exact ⟨found, s', hget.bind htail, hresult, .first rfl hget ht.key hread hstarted,
    fun i hi => hall i (Nat.zero_le i) hi⟩

end

/-! ## Agreement with `read_buff` -/

end EgGS
