import EgGS.Block.Frame
import EgGS.Cache.Relink
import EgGS.Model.Zone

/-!
# What the buffer cache can do

`CacheStep` lists the steps of the buffer cache: whatever the request layer does,
counting a reference up or down, giving a header a new block, invalidating a
buffer, and a holder storing into one.  Every function of `buffer.c` is a path of
such steps, and each is walked through once, here.

A function that hands out a reference either finds the header of the block or
recycles one; `Taken` says so exactly.
-/

namespace EgGS

open Lib Prog Relation

variable {n : ℕ} {env : Env n} {k : ℕ} {s s' t : Sys n} {b : Fin n} {dev block : ℕ}

/-- The header `b` is found for the block. -/
structure Found (env : Env n) (s : Sys n) (dev block : ℕ) (b : Fin n) : Prop where
  hit : ∃ k, findBuff dev block env k s = .ok (some b) s
  key : s.Keyed b dev block
  lock : (s.buf b).bLock = false

/-- The header `b` can be recycled for the block. -/
structure Recyclable (env : Env n) (s : Sys n) (dev block : ℕ) (b : Fin n) : Prop where
  count : (s.buf b).bCount = 0
  lock : (s.buf b).bLock = false
  dirt : (s.buf b).bDirt = false
  missing : ∃ k, findBuff dev block env k s = .ok none s

/-- A change of the contents of a buffer that is not a transfer. -/
inductive Change (n : ℕ) where
  | store (b : Fin n)
  | zero (b : Fin n)
  | invalidate (b : Fin n)

/-- The steps of the buffer cache, when only the blocks in `asked` are asked for and
only the changes in `may` are made. -/
inductive CacheStep (env : Env n) (asked : ℕ → ℕ → Prop) (may : Sys n → Change n → Prop) :
    Sys n → Sys n → Prop
  | block {s s' : Sys n} : Submits env (.idle, s) (.idle, s') → CacheStep env asked may s s'
  | up {s : Sys n} (b : Fin n) : CacheStep env asked may s (s.countUp b)
  | down {s : Sys n} (b : Fin n) : CacheStep env asked may s (s.countDown b)
  | reuse {s s' : Sys n} {b : Fin n} {dev block k : ℕ} : asked dev block →
      Recyclable env s dev block b → reuse b dev block env k s = .ok () s' →
      CacheStep env asked may s s'
  | copy {s : Sys n} (mem : ℕ → UInt8) : CacheStep env asked may s { s with mem }
  | store {s : Sys n} {b : Fin n} (data : Block) : may s (.store b) →
      CacheStep env asked may s (store b data s)
  | zero {s : Sys n} {b : Fin n} : may s (.zero b) → (s.buf b).bLock = false →
      CacheStep env asked may s (s.zero b)
  | invalidate {s : Sys n} {b : Fin n} : may s (.invalidate b) → (s.buf b).bLock = false →
      CacheStep env asked may s (s.invalidate b)

/-- A path of steps of the buffer cache. -/
abbrev CacheSteps (env : Env n) (asked : ℕ → ℕ → Prop) (may : Sys n → Change n → Prop) :
    Sys n → Sys n → Prop :=
  ReflTransGen (CacheStep env asked may)

variable {asked : ℕ → ℕ → Prop} {may : Sys n → Change n → Prop}

theorem CacheSteps.of_submits (h : Submits env (.idle, s) (.idle, s')) :
    CacheSteps env asked may s s' :=
  .single (.block h)

/-- What every step keeps, a path keeps. -/
theorem CacheSteps.invariant {I : Sys n → Prop} (hpath : CacheSteps env asked may s s')
    (hstep : ∀ {s s'}, I s → CacheStep env asked may s s' → I s') (h : I s) : I s' := by
  induction hpath with
  | refl => exact h
  | tail _ hxy ih => exact hstep ih hxy

theorem store_rest (b : Fin n) (data : Block) (s : Sys n) : (store b data s).rest = s.rest :=
  Sys.rest_setBuf s b (f := fun bh => { bh with bData := data, bDirt := true }) fun _ => rfl

theorem Sys.zero_rest (s : Sys n) (b : Fin n) : (s.zero b).rest = s.rest :=
  Sys.rest_setBuf s b (f := fun bh => { bh with
    bData := zeroBlock, bUptodate := true, bDirt := true }) fun _ => rfl

theorem Sys.invalidate_rest (s : Sys n) (b : Fin n) : (s.invalidate b).rest = s.rest :=
  Sys.rest_setBuf s b (f := fun bh => { bh with bUptodate := false, bDirt := false }) fun _ => rfl

theorem Submits.links {x y : Submission n × Sys n} (h : Submits env x y) (b : Fin n) :
    (y.2.buf b).toBufferLinks = (x.2.buf b).toBufferLinks :=
  congrFun (congrArg Rest.links h.rest) b

/-- Headers keep their blocks. -/
theorem Submits.keyed_iff {x y : Submission n × Sys n} (h : Submits env x y) (b : Fin n) :
    y.2.Keyed b dev block ↔ x.2.Keyed b dev block := by
  have hdev : (y.2.buf b).bDev = (x.2.buf b).bDev := congrArg BufferLinks.bDev (h.links b)
  have hblock : (y.2.buf b).bBlocknr = (x.2.buf b).bBlocknr :=
    congrArg BufferLinks.bBlocknr (h.links b)
  rw [Sys.Keyed, Sys.Keyed, hdev, hblock]

theorem Submits.keyed {x y : Submission n × Sys n} (h : Submits env x y)
    (hb : x.2.Keyed b dev block) : y.2.Keyed b dev block := (h.keyed_iff b).mpr hb

/-! ## Looking up -/

/-- `find_buff` changes nothing, and what it finds has the key. -/
theorem findBuff_found {found : Option (Fin n)} (h : findBuff dev block env k s = .ok found s') :
    s' = s ∧ ∀ b, found = some b → s.Keyed b dev block := by
  unfold findBuff at h
  rw [read_bind] at h
  refine iterate_ensures (I := fun _ t => t = s)
    (Q := fun found t => t = s ∧ ∀ b, found = some b → s.Keyed b dev block) ?_ ?_ rfl h
  · rintro tmp t tmp' t' rfl hbody
    rw [read_bind] at hbody
    cases tmp with
    | none => simp at hbody
    | some c =>
        simp only [ite_run, pure_run] at hbody
        split at hbody
        · simp at hbody
        · simp only [Res.ok.injEq, Sum.inl.injEq] at hbody
          exact hbody.2.symm
  · rintro tmp t found t' rfl hbody
    rw [read_bind] at hbody
    cases tmp with
    | none =>
        simp only [pure_run, Res.ok.injEq, Sum.inr.injEq] at hbody
        obtain ⟨rfl, rfl⟩ := hbody
        exact ⟨rfl, fun b hb => absurd hb (by simp)⟩
    | some c =>
        simp only [ite_run, pure_run] at hbody
        split at hbody
        · rename_i hkey
          simp only [Res.ok.injEq, Sum.inr.injEq] at hbody
          obtain ⟨rfl, rfl⟩ := hbody
          refine ⟨rfl, fun b hb => ?_⟩
          obtain rfl := Option.some.inj hb
          exact hkey
        · simp at hbody

/-- `find_buff` looks at the chains only. -/
theorem findBuff_congr {found : Option (Fin n)} (hlinks : ∀ c, s'.links c = s.links c)
    (htable : s'.hashTable = s.hashTable) (h : findBuff dev block env k s = .ok found s) :
    findBuff dev block env k s' = .ok found s' := by
  unfold findBuff at h ⊢
  rw [read_bind] at h ⊢
  rw [htable]
  refine (iterate_respects (R := fun x y => x = s ∧ y = s') ?_ ⟨rfl, rfl⟩ h).elim
    fun _ ⟨hrun, _, heq⟩ => heq ▸ hrun
  rintro tmp _ _ r t ⟨rfl, rfl⟩ hround
  cases tmp with
  | none =>
      simp only [read_bind, pure_run, Res.ok.injEq] at hround ⊢
      exact ⟨_, ⟨hround.1, rfl⟩, hround.2.symm, rfl⟩
  | some c =>
      have hdev := congrArg BufferLinks.bDev (hlinks c)
      have hnr := congrArg BufferLinks.bBlocknr (hlinks c)
      have hnext := congrArg BufferLinks.bNext (hlinks c)
      simp only [Sys.links] at hdev hnr hnext
      simp only [read_bind, ite_run, pure_run, hdev, hnr, hnext] at hround ⊢
      split at hround <;> rename_i hkey
      · simp only [Res.ok.injEq] at hround
        exact ⟨_, by rw [if_pos hkey, hround.1], hround.2.symm, rfl⟩
      · simp only [Res.ok.injEq] at hround
        exact ⟨_, by rw [if_neg hkey, hround.1], hround.2.symm, rfl⟩

theorem Submits.findBuff {x y : Submission n × Sys n} {found : Option (Fin n)}
    (h : Submits env x y) (hfind : findBuff dev block env k x.2 = .ok found x.2) :
    findBuff dev block env k y.2 = .ok found y.2 :=
  findBuff_congr (fun c => h.links c) (congrArg Rest.hashTable h.rest) hfind

/-- How a reference to the buffer of a block is handed out: its header is found, or
one is recycled. -/
inductive Taken (env : Env n) (s : Sys n) (dev block : ℕ) (b : Fin n) (s' : Sys n) : Prop
  | found {t : Sys n} : Submits env (.idle, s) (.idle, t) → Found env t dev block b →
      s' = t.countUp b → Taken env s dev block b s'
  | recycled {t : Sys n} {k : ℕ} : Submits env (.idle, s) (.idle, t) →
      Recyclable env t dev block b → reuse b dev block env k t = .ok () s' →
      Taken env s dev block b s'

/-- What a function does that may hand out a reference to the buffer of a block. -/
def Handed (env : Env n) (s : Sys n) (dev block : ℕ) : Option (Fin n) → Sys n → Prop
  | none, s' => Submits env (.idle, s) (.idle, s')
  | some b, s' => Taken env s dev block b s'

namespace Taken

theorem steps (h : Taken env s dev block b s') (hasked : asked dev block) :
    CacheSteps env asked may s s' := by
  cases h with
  | found hpath _ heq => exact heq ▸ (CacheSteps.of_submits hpath).tail (.up b)
  | recycled hpath hrec hreuse =>
      exact (CacheSteps.of_submits hpath).tail (.reuse hasked hrec hreuse)

theorem prepend (hpath : Submits env (.idle, s) (.idle, t)) (h : Taken env t dev block b s') :
    Taken env s dev block b s' := by
  cases h with
  | found hpath' hfound heq => exact .found (hpath.trans hpath') hfound heq
  | recycled hpath' hrec hreuse => exact .recycled (hpath.trans hpath') hrec hreuse

theorem unlocked (h : Taken env s dev block b s') : (s'.buf b).bLock = false := by
  cases h with
  | found _ hfound heq =>
      subst heq
      simpa [Sys.countUp] using hfound.lock
  | recycled _ hrec hreuse =>
      exact (congrArg BufferCore.bLock (reuse_spec hreuse).2.1).trans hrec.lock

/-- The header has the key of the block.  The field `b_dev` is a short. -/
theorem keyed (h : Taken env s dev block b s') (hdev : dev < 65536) : s'.Keyed b dev block := by
  cases h with
  | found _ hfound heq =>
      subst heq
      simpa [Sys.Keyed, Sys.countUp] using hfound.key
  | recycled _ _ hreuse =>
      obtain ⟨-, hcore, -⟩ := reuse_spec hreuse
      exact ⟨(congrArg BufferCore.bDev hcore).trans (Nat.mod_eq_of_lt hdev),
        congrArg BufferCore.bBlocknr hcore⟩

end Taken

/-- What `retain_buff` does: it finds the header and counts, or finds none. -/
def Retained (env : Env n) (s : Sys n) (dev block : ℕ) : Option (Fin n) → Sys n → Prop
  | none, s' => Submits env (.idle, s) (.idle, s')
  | some b, s' =>
      ∃ t, Submits env (.idle, s) (.idle, t) ∧ Found env t dev block b ∧ s' = t.countUp b

theorem Retained.handed {found : Option (Fin n)} (h : Retained env s dev block found s') :
    Handed env s dev block found s' := by
  cases found with
  | none => exact h
  | some b =>
      obtain ⟨t, hpath, hfound, heq⟩ := h
      exact Taken.found hpath hfound heq

theorem retainBuff_retained {found : Option (Fin n)}
    (h : retainBuff dev block env k s = .ok found s') : Retained env s dev block found s' := by
  unfold retainBuff at h
  refine iterate_ensures (I := fun _ t => Submits env (.idle, s) (.idle, t))
    (Q := Retained env s dev block) ?_ ?_ .refl h
  · intro _ t _ t' hI hbody
    obtain ⟨⟨⟩, t₁, hpoll, hbody⟩ := bind_eq_ok.mp hbody
    obtain ⟨found, t₂, hfind, hbody⟩ := bind_eq_ok.mp hbody
    obtain ⟨rfl, -⟩ := findBuff_found hfind
    cases found with
    | none => simp at hbody
    | some c =>
        simp only [bind_eq_ok, read_bind] at hbody
        obtain ⟨⟨⟩, t₃, hwait, hbody⟩ := hbody
        simp only [ite_run] at hbody
        split at hbody
        · simp only [pure_run, Res.ok.injEq] at hbody
          -- the buffer became another block's while it was waited for: once more
          exact hbody.2 ▸ (hI.trans (poll_submits hpoll)).trans (waitOnBuff_submits .idle hwait).1
        · simp at hbody
  · intro _ t found t' hI hbody
    obtain ⟨⟨⟩, t₁, hpoll, hbody⟩ := bind_eq_ok.mp hbody
    obtain ⟨found', t₂, hfind, hbody⟩ := bind_eq_ok.mp hbody
    obtain ⟨rfl, -⟩ := findBuff_found hfind
    have hpath := hI.trans (poll_submits hpoll)
    cases found' with
    | none =>
        simp only [pure_run, Res.ok.injEq, Sum.inr.injEq] at hbody
        obtain ⟨rfl, rfl⟩ := hbody
        exact hpath
    | some c =>
        simp only [bind_eq_ok, read_bind] at hbody
        obtain ⟨⟨⟩, t₃, hwait, hbody⟩ := hbody
        obtain ⟨hwaited, hlock⟩ := waitOnBuff_submits .idle hwait
        simp only [ite_run] at hbody
        split at hbody
        · simp at hbody
        · rename_i hkey
          simp only [update_bind, pure_run, Res.ok.injEq, Sum.inr.injEq] at hbody
          obtain ⟨rfl, rfl⟩ := hbody
          -- still the same block: the reference is taken
          simp only [ne_eq, not_or, not_not] at hkey
          exact ⟨t₃, hpath.trans hwaited, ⟨⟨k, hwaited.findBuff hfind⟩, hkey, hlock⟩, rfl⟩

/-- `retain_buff` gives a reference to the buffer of the block, or finds none. -/
theorem retainBuff_handed {found : Option (Fin n)}
    (h : retainBuff dev block env k s = .ok found s') : Handed env s dev block found s' :=
  (retainBuff_retained h).handed

/-! ## Writing back -/

theorem syncDev_submits {u : Unit} (h : syncDev dev env k s = .ok u s') :
    Submits env (.idle, s) (.idle, s') := by
  unfold syncDev at h
  refine forEach_ensures (I := fun _ t => Submits env (.idle, s) (.idle, t)) ?_ _ s s' .refl h
  intro b _ t t' hI hbody
  obtain ⟨⟨⟩, t₁, hpoll, hbody⟩ := bind_eq_ok.mp hbody
  have hpath := hI.trans (poll_submits hpoll)
  simp only [read_bind, ite_run] at hbody
  split at hbody
  · simp only [pure_run, Res.ok.injEq, true_and] at hbody
    exact hbody ▸ hpath
  · simp only [bind_eq_ok, read_bind] at hbody
    obtain ⟨⟨⟩, t₂, hwait, hbody⟩ := hbody
    obtain ⟨hwaited, hlock⟩ := waitOnBuff_submits .idle hwait
    simp only [ite_run] at hbody
    split at hbody
    · exact (hpath.trans hwaited).trans (llRwBlock_submits hlock hbody)
    · simp only [pure_run, Res.ok.injEq, true_and] at hbody
      exact hbody ▸ hpath.trans hwaited

/-! ## Recycling -/

/-- The scan of the free list changes nothing and settles on an unreferenced header. -/
theorem scanFree_unused {victim : Option (Fin n)} (h : scanFree env k s = .ok victim s') :
    s' = s ∧ ∀ b, victim = some b → (s.buf b).bCount = 0 := by
  unfold scanFree at h
  rw [read_bind] at h
  have hbest : ∀ {best : Option (Fin n)} {tmp b : Fin n} {p : Prop} [Decidable p],
      (∀ c, best = some c → (s.buf c).bCount = 0) → (p → (s.buf tmp).bCount = 0) →
      (if p then some tmp else best) = some b → (s.buf b).bCount = 0 := by
    intro best tmp b p _ hI htmp heq
    split at heq
    · rename_i hp
      obtain rfl := Option.some.inj heq
      exact htmp hp
    · exact hI b heq
  -- the best header so far is unreferenced
  refine iterate_ensures (I := fun x t => t = s ∧ ∀ b, x.2 = some b → (s.buf b).bCount = 0)
    (Q := fun victim t => t = s ∧ ∀ b, victim = some b → (s.buf b).bCount = 0) ?_ ?_
    ⟨rfl, by simp⟩ h
  · rintro ⟨tmp, best⟩ t x t' ⟨rfl, hI⟩ hbody
    simp only [read_bind, ite_run, pure_run] at hbody
    split at hbody
    · simp at hbody
    · cases hnext : (t.buf tmp).bNextFree with
      | none => simp [hnext] at hbody
      | some next =>
        simp only [hnext, ite_run, pure_run] at hbody
        split at hbody
        · simp at hbody
        · simp only [Res.ok.injEq, Sum.inl.injEq] at hbody
          obtain ⟨rfl, rfl⟩ := hbody
          exact ⟨rfl, fun b hb => hbest hI (fun hp => hp.1) hb⟩
  · rintro ⟨tmp, best⟩ t victim t' ⟨rfl, hI⟩ hbody
    simp only [read_bind, ite_run, pure_run] at hbody
    split at hbody
    · -- the scan ends early at a header that is clean and unlocked
      rename_i hbetter
      simp only [Res.ok.injEq, Sum.inr.injEq] at hbody
      obtain ⟨rfl, rfl⟩ := hbody
      refine ⟨rfl, fun b hb => ?_⟩
      obtain rfl := Option.some.inj hb
      exact hbetter.1.1
    · cases hnext : (t.buf tmp).bNextFree with
      | none => simp [hnext] at hbody
      | some next =>
        simp only [hnext, ite_run, pure_run] at hbody
        split at hbody
        · simp only [Res.ok.injEq, Sum.inr.injEq] at hbody
          obtain ⟨rfl, rfl⟩ := hbody
          exact ⟨rfl, fun b hb => hbest hI (fun hp => hp.1) hb⟩
        · simp at hbody

/-- The victim of `new_buff` ends up unused, unlocked and clean. -/
theorem cleanVictim_submits {unused : Bool} (hcount : (s.buf b).bCount = 0)
    (hlock : (s.buf b).bLock = false) (h : cleanVictim b env k s = .ok unused s') :
    Submits env (.idle, s) (.idle, s') ∧ (unused = true → (s'.buf b).bCount = 0 ∧
      (s'.buf b).bLock = false ∧ (s'.buf b).bDirt = false) := by
  unfold cleanVictim at h
  refine iterate_ensures
    (I := fun _ t => Submits env (.idle, s) (.idle, t) ∧ (t.buf b).bLock = false)
    (Q := fun unused t => Submits env (.idle, s) (.idle, t) ∧ (unused = true →
      (t.buf b).bCount = 0 ∧ (t.buf b).bLock = false ∧ (t.buf b).bDirt = false)) ?_ ?_
    ⟨.refl, hlock⟩ h
  · rintro _ t _ t' ⟨hI, -⟩ hbody
    simp only [read_bind, ite_run, pure_run] at hbody
    split at hbody
    · simp only [bind_eq_ok, read_bind] at hbody
      obtain ⟨⟨⟩, t₁, hsync, ⟨⟩, t₂, hwait, hbody⟩ := hbody
      obtain ⟨hwaited, hlock'⟩ := waitOnBuff_submits .idle hwait
      simp only [ite_run, pure_run] at hbody
      split at hbody
      · simp at hbody
      · -- written, and still unused: the loop looks at it again
        simp only [Res.ok.injEq] at hbody
        exact hbody.2 ▸ ⟨(hI.trans (syncDev_submits hsync)).trans hwaited, hlock'⟩
    · simp at hbody
  · rintro _ t unused t' ⟨hI, hlock'⟩ hbody
    simp only [read_bind, ite_run, pure_run] at hbody
    split at hbody
    · simp only [bind_eq_ok, read_bind] at hbody
      obtain ⟨⟨⟩, t₁, hsync, ⟨⟩, t₂, hwait, hbody⟩ := hbody
      simp only [ite_run, pure_run] at hbody
      split at hbody
      · simp only [Res.ok.injEq, Sum.inr.injEq] at hbody
        obtain ⟨rfl, rfl⟩ := hbody
        exact ⟨(hI.trans (syncDev_submits hsync)).trans (waitOnBuff_submits .idle hwait).1, by simp⟩
      · simp at hbody
    · -- clean, and nobody has slept since the count was 0
      rename_i hdirt
      simp only [Res.ok.injEq, Sum.inr.injEq] at hbody
      obtain ⟨rfl, rfl⟩ := hbody
      refine ⟨hI, fun _ => ⟨?_, hlock', by simpa using hdirt⟩⟩
      exact (congrArg BufferLinks.bCount (hI.links b)).trans hcount

/-- `new_buff` recycles a header for the block, or finds none that it can take. -/
theorem newBuff_handed {made : Option (Fin n)} (h : newBuff dev block env k s = .ok made s') :
    Handed env s dev block made s' := by
  unfold newBuff at h
  obtain ⟨⟨⟩, s₁, hpoll, h⟩ := bind_eq_ok.mp h
  obtain ⟨victim, s₂, hscan, h⟩ := bind_eq_ok.mp h
  obtain ⟨rfl, hvictim⟩ := scanFree_unused hscan
  have hpolled : Submits env (.idle, s) (.idle, s₂) := poll_submits hpoll
  -- no header is unreferenced, or the victim is cleaned and looked at again
  cases victim with
  | none =>
      simp only [pure_run, Res.ok.injEq] at h
      obtain ⟨rfl, rfl⟩ := h
      exact hpolled
  | some b =>
      simp only [bind_eq_ok, read_bind, ite_run] at h
      obtain ⟨⟨⟩, s₃, hwait, h⟩ := h
      obtain ⟨hwaited, hlock⟩ := waitOnBuff_submits .idle hwait
      have hpath := hpolled.trans hwaited
      split at h
      · simp only [pure_run, Res.ok.injEq] at h
        obtain ⟨rfl, rfl⟩ := h
        exact hpath
      rename_i hcount
      rw [bind_eq_ok] at h
      obtain ⟨unused, s₄, hclean, h⟩ := h
      obtain ⟨hcleaned, hunused⟩ := cleanVictim_submits (not_not.mp hcount) hlock hclean
      replace hpath := hpath.trans hcleaned
      cases unused with
      | false =>
          simp only [Bool.false_eq_true, if_false, pure_run, Res.ok.injEq] at h
          obtain ⟨rfl, rfl⟩ := h
          exact hpath
      | true =>
          obtain ⟨hcount, hlock, hdirt⟩ := hunused rfl
          simp only [if_true, bind_eq_ok] at h
          obtain ⟨found, s₅, hfind, h⟩ := h
          obtain ⟨rfl, -⟩ := findBuff_found hfind
          -- the block got a header during the waits, and then nothing is handed out
          cases found with
          | some c =>
              simp only [pure_run, Res.ok.injEq] at h
              obtain ⟨rfl, rfl⟩ := h
              exact hpath
          | none =>
              simp only [bind_eq_ok, pure_run, Res.ok.injEq] at h
              obtain ⟨⟨⟩, s₆, hreuse, rfl, rfl⟩ := h
              exact Taken.recycled hpath ⟨hcount, hlock, hdirt, ⟨k, hfind⟩⟩ hreuse

/-- `get_buff` gives a reference to the buffer of the block. -/
theorem getBuff_taken (h : getBuff dev block env k s = .ok b s') : Taken env s dev block b s' := by
  unfold getBuff at h
  refine iterate_ensures (I := fun _ t => Submits env (.idle, s) (.idle, t))
    (Q := fun b t => Taken env s dev block b t) ?_ ?_ .refl h
  · intro _ t _ t' hI hbody
    obtain ⟨found, t₁, hretain, hbody⟩ := bind_eq_ok.mp hbody
    cases found with
    | some c => simp at hbody
    | none =>
        simp only [bind_eq_ok] at hbody
        obtain ⟨made, t₂, hnew, hbody⟩ := hbody
        cases made with
        | some c => simp at hbody
        | none =>
            simp only [pure_run, Res.ok.injEq] at hbody
            exact hbody.2 ▸ (hI.trans (retainBuff_handed hretain)).trans (newBuff_handed hnew)
  · intro _ t c t' hI hbody
    obtain ⟨found, t₁, hretain, hbody⟩ := bind_eq_ok.mp hbody
    cases found with
    | some c' =>
        simp only [pure_run, Res.ok.injEq, Sum.inr.injEq] at hbody
        obtain ⟨rfl, rfl⟩ := hbody
        exact Taken.prepend hI (retainBuff_handed hretain)
    | none =>
        simp only [bind_eq_ok] at hbody
        obtain ⟨made, t₂, hnew, hbody⟩ := hbody
        cases made with
        | none => simp at hbody
        | some c' =>
            simp only [pure_run, Res.ok.injEq, Sum.inr.injEq] at hbody
            obtain ⟨rfl, rfl⟩ := hbody
            exact Taken.prepend (hI.trans (retainBuff_handed hretain)) (newBuff_handed hnew)

/-! ## Giving references back -/

/-- `put_buff` waits and counts a reference down; it does not return for a header
without references. -/
theorem putBuff_eq_ok {u : Unit} (h : putBuff (some b) env k s = .ok u s') :
    ∃ t, Submits env (.idle, s) (.idle, t) ∧ (t.buf b).bCount ≠ 0 ∧ s' = t.countDown b := by
  simp only [putBuff, bind_eq_ok, read_bind, ite_run, panic, halt_run, update_run] at h
  obtain ⟨⟨⟩, t, hwait, h⟩ := h
  split at h
  · simp at h
  · rename_i hcount
    simp only [Res.ok.injEq] at h
    exact ⟨t, (waitOnBuff_submits .idle hwait).1, hcount, h.2.symm⟩

theorem putBuff_steps {u : Unit} (h : putBuff (some b) env k s = .ok u s') :
    CacheSteps env asked may s s' := by
  obtain ⟨t, hpath, -, rfl⟩ := putBuff_eq_ok h
  exact (CacheSteps.of_submits hpath).tail (.down b)

/-- What `invalidate_buff` does when the header of its block is found: it takes a
reference, and unless that is the only one it returns with it. -/
inductive Invalidated (env : Env n) (s : Sys n) (dev block : ℕ) (s' : Sys n) : Prop
  | missing : Submits env (.idle, s) (.idle, s') → Invalidated env s dev block s'
  | leaked {t : Sys n} {b : Fin n} : Submits env (.idle, s) (.idle, t) → Found env t dev block b →
      ((t.countUp b).buf b).bCount ≠ 1 → s' = t.countUp b → Invalidated env s dev block s'
  | done {t t' : Sys n} {b : Fin n} : Submits env (.idle, s) (.idle, t) → Found env t dev block b →
      ((t.countUp b).buf b).bCount = 1 →
      Submits env (.idle, (t.countUp b).invalidate b) (.idle, t') → (t'.buf b).bCount ≠ 0 →
      s' = t'.countDown b → Invalidated env s dev block s'

theorem invalidateBuff_invalidated {u : Unit} (h : invalidateBuff dev block env k s = .ok u s') :
    Invalidated env s dev block s' := by
  unfold invalidateBuff at h
  obtain ⟨found, s₁, hretain, h⟩ := bind_eq_ok.mp h
  have hretained := retainBuff_retained hretain
  cases found with
  | none =>
      simp only [pure_run, Res.ok.injEq] at h
      exact h.2 ▸ .missing hretained
  | some b =>
      obtain ⟨t, hpath, hfound, rfl⟩ := hretained
      simp only [read_bind, ite_run, pure_run, update_bind] at h
      split at h
      · rename_i hcount
        simp only [Res.ok.injEq] at h
        exact .leaked hpath hfound hcount h.2.symm
      · rename_i hcount
        obtain ⟨t', hpath', hput, rfl⟩ := putBuff_eq_ok h
        exact .done hpath hfound (not_not.mp hcount) hpath' hput rfl

theorem Invalidated.steps (h : Invalidated env s dev block s')
    (hmay : ∀ t b, may t (.invalidate b)) : CacheSteps env asked may s s' := by
  cases h with
  | missing hpath => exact .of_submits hpath
  | leaked hpath _ _ heq => exact heq ▸ (CacheSteps.of_submits hpath).tail (.up _)
  | @done t t' b hpath hfound _ hpath' _ heq =>
      have hlock : ((t.countUp b).buf b).bLock = false := by simpa [Sys.countUp] using hfound.lock
      have hmid : CacheSteps env asked may s ((t.countUp b).invalidate b) :=
        ((CacheSteps.of_submits hpath).tail (.up b)).tail (.invalidate (hmay _ b) hlock)
      exact heq ▸ (hmid.tail (.block hpath')).tail (.down b)

/-! ## Reading -/

/-- `ll_rw_block` and `wait_on_buff` on a buffer just taken. -/
theorem readWait_submits {rw : Rw} {u u' : Unit} {s₁ : Sys n} (hlock : (s.buf b).bLock = false)
    (hread : llRwBlock rw b env k s = .ok u s₁) (hwait : waitOnBuff b env k s₁ = .ok u' s') :
    Submits env (.idle, s) (.idle, s') ∧ (s'.buf b).bLock = false := by
  obtain ⟨hwaited, hlock'⟩ := waitOnBuff_submits .idle hwait
  exact ⟨(llRwBlock_submits hlock hread).trans hwaited, hlock'⟩

/-- How `read_buff` and `read_buff_ahead` end: with the buffer if it is up to date,
without a reference to it otherwise. -/
inductive ReadDone (env : Env n) (s : Sys n) (b : Fin n) : Option (Fin n) → Sys n → Prop
  | good : (s.buf b).bUptodate = true → (s.buf b).bLock = false → ReadDone env s b (some b) s
  | bad {t : Sys n} : Submits env (.idle, s) (.idle, t) → (t.buf b).bCount ≠ 0 →
      ReadDone env s b none (t.countDown b)

theorem ReadDone.steps {found : Option (Fin n)} (h : ReadDone env s b found s') :
    CacheSteps env asked may s s' := by
  cases h with
  | good _ _ => exact .refl
  | bad hpath _ => exact (CacheSteps.of_submits hpath).tail (.down b)

/-- `read_buff` takes the buffer, reads it and waits. -/
theorem readBuff_taken {found : Option (Fin n)} (h : readBuff dev block env k s = .ok found s') :
    ∃ b t t', Taken env s dev block b t ∧ Submits env (.idle, t) (.idle, t') ∧
      ReadDone env t' b found s' := by
  unfold readBuff at h
  obtain ⟨b, s₁, hget, h⟩ := bind_eq_ok.mp h
  have htaken := getBuff_taken hget
  have hlock := htaken.unlocked
  refine ⟨b, s₁, ?_⟩
  simp only [read_bind, ite_run, pure_run] at h
  split at h
  · rename_i hup
    simp only [Res.ok.injEq] at h
    obtain ⟨rfl, rfl⟩ := h
    exact ⟨s₁, htaken, .refl, .good hup hlock⟩
  · simp only [bind_eq_ok, read_bind, ite_run, pure_run] at h
    obtain ⟨⟨⟩, s₂, hread, ⟨⟩, s₃, hwait, h⟩ := h
    obtain ⟨hsubmits, hlock'⟩ := readWait_submits hlock hread hwait
    refine ⟨s₃, htaken, hsubmits, ?_⟩
    split at h
    · rename_i hup
      simp only [Res.ok.injEq] at h
      obtain ⟨rfl, rfl⟩ := h
      exact .good hup hlock'
    · simp only [bind_eq_ok] at h
      obtain ⟨⟨⟩, s₄, hput, rfl, rfl⟩ := h
      obtain ⟨t, hpath, hcount, rfl⟩ := putBuff_eq_ok hput
      exact .bad hpath hcount

theorem readBuff_steps {found : Option (Fin n)} (hasked : asked dev block)
    (h : readBuff dev block env k s = .ok found s') : CacheSteps env asked may s s' := by
  obtain ⟨b, t, t', htaken, hpath, hdone⟩ := readBuff_taken h
  exact ((htaken.steps hasked).tail (.block hpath)).trans hdone.steps

/-! ## Reading many -/

/-- A buffer just taken is read unless it is up to date. -/
theorem readIfStale_submits {rw : Rw} {u : Unit} (hlock : (s.buf b).bLock = false)
    (h : readIfStale rw b env k s = .ok u s') : Submits env (.idle, s) (.idle, s') := by
  rw [readIfStale, read_bind, ite_run] at h
  split at h
  · simp only [pure_run, Res.ok.injEq] at h
    exact h.2 ▸ .refl
  · exact llRwBlock_submits hlock h

/-- The buffers `bufs` are taken for the blocks of a list, but none for block 0. -/
inductive TakenAll (env : Env n) (dev : ℕ) :
    List ℕ → Sys n → List (Option (Fin n)) → Sys n → Prop
  | nil {s : Sys n} : TakenAll env dev [] s [] s
  | skip {s s' : Sys n} {blocks : List ℕ} {bufs : List (Option (Fin n))} :
      TakenAll env dev blocks s bufs s' → TakenAll env dev (0 :: blocks) s (none :: bufs) s'
  | take {s t t' s' : Sys n} {block : ℕ} {b : Fin n} {blocks : List ℕ}
      {bufs : List (Option (Fin n))} : block ≠ 0 → Taken env s dev block b t →
      Submits env (.idle, t) (.idle, t') → TakenAll env dev blocks t' bufs s' →
      TakenAll env dev (block :: blocks) s (some b :: bufs) s'

/-- The buffers of a list are given back. -/
inductive PutAll (env : Env n) : List (Option (Fin n)) → Sys n → Sys n → Prop
  | nil {s : Sys n} : PutAll env [] s s
  | skip {s s' : Sys n} {bufs : List (Option (Fin n))} :
      PutAll env bufs s s' → PutAll env (none :: bufs) s s'
  | put {s t t' s' : Sys n} {b : Fin n} {bufs : List (Option (Fin n))} (mem : ℕ → UInt8) :
      Submits env (.idle, s) (.idle, t) → Submits env (.idle, { t with mem }) (.idle, t') →
      (t'.buf b).bCount ≠ 0 → PutAll env bufs (t'.countDown b) s' →
      PutAll env (some b :: bufs) s s'

theorem TakenAll.steps {blocks : List ℕ} {bufs : List (Option (Fin n))}
    (h : TakenAll env dev blocks s bufs s')
    (hasked : ∀ block ∈ blocks, block ≠ 0 → asked dev block) :
    CacheSteps env asked may s s' := by
  induction h with
  | nil => exact .refl
  | skip _ ih => exact ih fun block hb => hasked block (List.mem_cons_of_mem _ hb)
  | take hne htaken hpath _ ih =>
      exact ((htaken.steps (hasked _ (List.mem_cons_self ..) hne)).tail (.block hpath)).trans
        (ih fun block hb => hasked block (List.mem_cons_of_mem _ hb))

theorem PutAll.steps {bufs : List (Option (Fin n))} (h : PutAll env bufs s s') :
    CacheSteps env asked may s s' := by
  induction h with
  | nil => exact .refl
  | skip _ ih => exact ih
  | put mem hpath hpath' _ _ ih =>
      exact ((((CacheSteps.of_submits hpath).tail (.copy mem)).tail (.block hpath')).tail
        (.down _)).trans ih

theorem pageBuffers_taken {blocks : List ℕ} {bufs : List (Option (Fin n))}
    (h : pageBuffers dev blocks env k s = .ok bufs s') : TakenAll env dev blocks s bufs s' := by
  induction blocks generalizing s bufs with
  | nil =>
      simp only [pageBuffers, pure_run, Res.ok.injEq] at h
      obtain ⟨rfl, rfl⟩ := h
      exact .nil
  | cons block blocks ih =>
      cases block with
      | zero =>
          obtain ⟨rest, s₁, hrest, h⟩ := bind_eq_ok.mp h
          simp only [pure_run, Res.ok.injEq] at h
          obtain ⟨rfl, rfl⟩ := h
          exact .skip (ih hrest)
      | succ block =>
          obtain ⟨b, s₁, hget, h⟩ := bind_eq_ok.mp h
          have htaken := getBuff_taken hget
          obtain ⟨⟨⟩, s₂, hread, h⟩ := bind_eq_ok.mp h
          obtain ⟨rest, s₃, hrest, h⟩ := bind_eq_ok.mp h
          simp only [pure_run, Res.ok.injEq] at h
          obtain ⟨rfl, rfl⟩ := h
          exact .take (Nat.succ_ne_zero block) htaken (readIfStale_submits htaken.unlocked hread)
            (ih hrest)

/-- The second loop of `read_buff_page` gives the buffers back. -/
theorem putPage_all {address : ℕ} (l : List (Option (Fin n) × ℕ)) :
    ∀ t : Sys n, forEach l (fun (buf, i) =>
      match buf with
      | none => pure ()
      | some bh => do
        waitOnBuff bh
        Prog.update fun s =>
          if (s.buf bh).bUptodate then
            { s with mem := copyBlk (s.buf bh).bData (address + 1024 * i) s.mem }
          else s
        putBuff (some bh)) env k t = .ok () s' → PutAll env (l.map Prod.fst) t s' := by
  induction l with
  | nil =>
      intro t ht
      simp only [forEach, pure_run, Res.ok.injEq, true_and] at ht
      exact ht ▸ .nil
  | cons x l ih =>
      obtain ⟨buf, i⟩ := x
      intro t ht
      obtain ⟨⟨⟩, t₁, hround, hrest⟩ := bind_eq_ok.mp ht
      cases buf with
      | none =>
          simp only [pure_run, Res.ok.injEq, true_and] at hround
          exact .skip (hround ▸ ih t₁ hrest)
      | some c =>
          simp only [bind_eq_ok, update_bind] at hround
          obtain ⟨⟨⟩, t₂, hwait, hput⟩ := hround
          obtain ⟨t₃, hpath, hcount, rfl⟩ := putBuff_eq_ok hput
          refine .put (if (t₂.buf c).bUptodate = true then
            copyBlk (t₂.buf c).bData (address + 1024 * i) t₂.mem else t₂.mem)
            (waitOnBuff_submits .idle hwait).1 ?_ hcount (ih _ hrest)
          split at hpath <;> rename_i hup <;> simpa [hup] using hpath

/-- `read_buff_page` takes the buffers of its blocks and gives them all back. -/
theorem readBuffPage_taken {address : ℕ} {blocks : Fin 4 → ℕ} {u : Unit}
    (h : readBuffPage address dev blocks env k s = .ok u s') :
    ∃ bufs t, TakenAll env dev (List.ofFn blocks) s bufs t ∧ PutAll env bufs t s' := by
  unfold readBuffPage at h
  obtain ⟨bufs, s₁, hpage, h⟩ := bind_eq_ok.mp h
  refine ⟨bufs, s₁, pageBuffers_taken hpage, ?_⟩
  have hall := putPage_all bufs.zipIdx s₁ h
  rwa [List.zipIdx_map_fst] at hall

/-- The read-ahead of a list of blocks: each is taken, read and counted down again. -/
inductive Ahead (env : Env n) (dev : ℕ) : List ℕ → Sys n → Sys n → Prop
  | nil {s : Sys n} : Ahead env dev [] s s
  | take {s t t' s' : Sys n} {block : ℕ} {b : Fin n} {blocks : List ℕ} :
      Taken env s dev block b t → Submits env (.idle, t) (.idle, t') →
      Ahead env dev blocks (t'.countDown b) s' → Ahead env dev (block :: blocks) s s'

theorem Ahead.steps {blocks : List ℕ} (h : Ahead env dev blocks s s')
    (hasked : ∀ block ∈ blocks, asked dev block) : CacheSteps env asked may s s' := by
  induction h with
  | nil => exact .refl
  | take htaken hpath _ ih =>
      exact (((htaken.steps (hasked _ (List.mem_cons_self ..))).tail (.block hpath)).tail
        (.down _)).trans (ih fun block hb => hasked block (List.mem_cons_of_mem _ hb))

theorem Ahead.append {blocks blocks' : List ℕ} (h : Ahead env dev blocks s t)
    (h' : Ahead env dev blocks' t s') : Ahead env dev (blocks ++ blocks') s s' := by
  induction h with
  | nil => exact h'
  | take htaken hpath _ ih => exact .take htaken hpath (ih h')

/-- The arguments that `read_buff_ahead` reads are those before the first that is
not below `MAX_HD`. -/
def Listed (args : ℕ → ℤ) (blocks : List ℕ) : Prop :=
  2 ≤ unsigned (args blocks.length) ∧ (∀ i < blocks.length, unsigned (args i) < 2) ∧
    blocks = (List.range blocks.length).map fun i => unsigned (args i)

/-- `read_buff_ahead` takes the buffer of the first block, reads the others ahead and
waits for the first. -/
theorem readBuffAhead_taken {first : ℕ} {args : ℕ → ℤ} {found : Option (Fin n)}
    (h : readBuffAhead dev first args env k s = .ok found s') :
    ∃ b blocks t t₁ t₂ t₃, Taken env s dev first b t ∧ Submits env (.idle, t) (.idle, t₁) ∧
      Listed args blocks ∧ Ahead env dev blocks t₁ t₂ ∧ Submits env (.idle, t₂) (.idle, t₃) ∧
      ReadDone env t₃ b found s' := by
  unfold readBuffAhead at h
  obtain ⟨b, t, hget, h⟩ := bind_eq_ok.mp h
  have htaken := getBuff_taken hget
  obtain ⟨⟨⟩, t₁, hread, h⟩ := bind_eq_ok.mp h
  obtain ⟨⟨⟩, t₂, hloop, h⟩ := bind_eq_ok.mp h
  have hahead : ∃ blocks, Listed args blocks ∧ Ahead env dev blocks t₁ t₂ := by
    -- the blocks that were asked for so far are the arguments that were read so far
    refine iterate_ensures
      (I := fun i t => ∃ blocks, blocks.length = i ∧ (∀ j < i, unsigned (args j) < 2) ∧
        blocks = (List.range i).map (fun j => unsigned (args j)) ∧ Ahead env dev blocks t₁ t)
      (Q := fun _ t => ∃ blocks, Listed args blocks ∧ Ahead env dev blocks t₁ t) ?_ ?_
      ⟨[], rfl, by simp, rfl, .nil⟩ hloop
    · rintro i t i' t' ⟨blocks, hlen, hargs, hblocks, hpath⟩ hbody
      rw [ite_run] at hbody
      split at hbody
      · rename_i harg
        obtain ⟨tmp, u₁, hget, hbody⟩ := bind_eq_ok.mp hbody
        have htmp := getBuff_taken hget
        obtain ⟨⟨⟩, u₂, hread, hbody⟩ := bind_eq_ok.mp hbody
        simp only [update_bind, pure_run, Res.ok.injEq, Sum.inl.injEq] at hbody
        obtain ⟨rfl, rfl⟩ := hbody
        refine ⟨blocks ++ [unsigned (args i)], by simp [hlen], fun j hj => ?_, ?_,
          hpath.append (.take htmp (readIfStale_submits htmp.unlocked hread) .nil)⟩
        · rcases Nat.lt_succ_iff_lt_or_eq.mp hj with hj | rfl
          · exact hargs j hj
          · exact harg
        · rw [hblocks, List.range_succ, List.map_append]
          rfl
      · simp at hbody
    · rintro i t _ t' ⟨blocks, rfl, hargs, hblocks, hpath⟩ hbody
      rw [ite_run] at hbody
      split at hbody
      · simp only [bind_eq_ok, pure_run, Res.ok.injEq] at hbody
        simp at hbody
      · rename_i harg
        simp only [pure_run, Res.ok.injEq] at hbody
        exact hbody.2 ▸ ⟨blocks, ⟨not_lt.mp harg, hargs, hblocks⟩, hpath⟩
  obtain ⟨blocks, hlisted, hahead⟩ := hahead
  simp only [bind_eq_ok, read_bind, ite_run, pure_run] at h
  -- the first block is up to date by now, or it is given back
  obtain ⟨⟨⟩, t₃, hwait, h⟩ := h
  obtain ⟨hwaited, hlock⟩ := waitOnBuff_submits .idle hwait
  refine ⟨b, blocks, t, t₁, t₂, t₃, htaken, readIfStale_submits htaken.unlocked hread, hlisted,
    hahead, hwaited, ?_⟩
  split at h
  · rename_i hup
    simp only [Res.ok.injEq] at h
    obtain ⟨rfl, rfl⟩ := h
    exact .good hup hlock
  · simp only [bind_eq_ok] at h
    obtain ⟨⟨⟩, t₄, hput, rfl, rfl⟩ := h
    obtain ⟨t₅, hpath, hcount, rfl⟩ := putBuff_eq_ok hput
    exact .bad hpath hcount

end EgGS
