import EgGS.Block.Runs
import EgGS.Cache.Create
import EgGS.Cache.Links

/-!
# Runs of the buffer cache

A run starts behind `init_buff` and consists of calls of the functions of
`buffer.c`, of stores by those who hold a buffer, and of time.  Along with the
state it carries the references that were handed out and not yet put back.

* `cache_links`: after every run with device numbers that fit into `b_dev` the lists
  are well formed and `find_buff` is exact.
-/

namespace EgGS

open Lib Prog Relation

variable {n : ℕ} {env : Env n} {k : ℕ} {s s' s₀ : Sys n}

/-! ## References -/

/-- The references outstanding to each header. -/
abbrev Refs (n : ℕ) := Fin n → ℕ

/-- One more reference to `b`. -/
def Refs.add (refs : Refs n) (b : Fin n) : Refs n := Function.update refs b (refs b + 1)

/-- One reference less to `b`. -/
def Refs.sub (refs : Refs n) (b : Fin n) : Refs n := Function.update refs b (refs b - 1)

@[simp] theorem Refs.sub_add (refs : Refs n) (b : Fin n) : (refs.add b).sub b = refs := by
  simp [Refs.add, Refs.sub]

/-- The references after a call that handed out `found`. -/
def Refs.take (refs : Refs n) : Option (Fin n) → Refs n
  | none => refs
  | some b => refs.add b

/-! ## Calls -/

/-- The calls of the buffer cache, `create_block`, and what callers do to the buffers they
hold. -/
inductive CacheCall (n : ℕ) where
  | get (dev block : ℕ)
  | read (dev block : ℕ)
  | retain (dev block : ℕ)
  | put (b : Fin n)
  | invalidate (dev block : ℕ)
  | sync (dev : ℕ)
  | page (address dev : ℕ) (blocks : Fin 4 → ℕ)
  | ahead (dev first : ℕ) (args : ℕ → ℤ)
  | store (b : Fin n) (data : Block)
  | create (dev : ℕ)
  | idle

namespace CacheCall

/-- The call, with the reference it hands out. -/
def exec : CacheCall n → P n (Option (Fin n))
  | get dev block => do
      let b ← getBuff dev block
      pure (some b)
  | read dev block => readBuff dev block
  | retain dev block => retainBuff dev block
  | put b => do
      putBuff (some b)
      pure none
  | invalidate dev block => do
      invalidateBuff dev block
      pure none
  | sync dev => do
      syncDev dev
      pure none
  | page address dev blocks => do
      readBuffPage address dev blocks
      pure none
  | ahead dev first args => readBuffAhead dev first args
  | store b data => do
      Prog.update (EgGS.store b data)
      pure none
  | create dev => do
      let _ ← createBlock dev
      pure none
  | idle => do
      EgGS.idle
      pure none

/-- The references after the call. -/
def account (refs : Refs n) (found : Option (Fin n)) : CacheCall n → Refs n
  | put b => refs.sub b
  | _ => refs.take found

/-- The blocks for which the call may take a buffer. -/
def Asks (env : Env n) (s : Sys n) : CacheCall n → ℕ → ℕ → Prop
  | get dev block => fun d r => d = dev ∧ r = block
  | read dev block => fun d r => d = dev ∧ r = block
  | page _ dev blocks => fun d r => d = dev ∧ r ≠ 0 ∧ r ∈ List.ofFn blocks
  | ahead dev first args => fun d r => d = dev ∧ (r = first ∨ ∃ i, r = unsigned (args i))
  | create dev => fun d r => d = dev ∧
      ∃ t t', Submits env (.idle, s) (.idle, t) ∧ Marked t dev r t'
  | _ => fun _ _ => False

/-- The changes of contents that the call may make are among those in `may`. -/
def Changes (env : Env n) (asked : ℕ → ℕ → Prop) (may : Sys n → Change n → Prop) (s : Sys n) :
    CacheCall n → Prop
  | invalidate _ _ => ∀ t b, may t (.invalidate b)
  | store b _ => may s (.store b)
  | create dev =>
      (∀ t b r, asked dev r → (dev < 65536 → t.Keyed b dev r) → may t (.zero b)) ∧
      ∀ t sb i b, Submits env (.idle, s) (.idle, t) → (t.superBlock sb).sZmap i = some b →
        may t (.store b)
  | _ => True

theorem changes_any (c : CacheCall n) (asked : ℕ → ℕ → Prop) :
    c.Changes env asked (fun _ _ => True) s := by
  cases c <;> simp [Changes]

/-- Buffers are put back and changed by those who hold them. -/
def Held (refs : Refs n) : CacheCall n → Prop
  | put b => 0 < refs b
  | store b _ => 0 < refs b
  | _ => True

end CacheCall

/-- The states a run of the buffer cache can be in, with the references outstanding,
if every call is `legal` where it is made. -/
inductive CacheReach (env : Env n) (legal : Refs n → Sys n → CacheCall n → Prop) [NeZero n]
    (s₀ : Sys n) : Refs n → Sys n → Prop
  | init : CacheReach env legal s₀ (fun _ => 0) (initBuff s₀)
  | call {refs : Refs n} {s s' : Sys n} {k : ℕ} {found : Option (Fin n)} (c : CacheCall n) :
      CacheReach env legal s₀ refs s → legal refs s c → c.exec env k s = .ok found s' →
      CacheReach env legal s₀ (c.account refs found) s'

variable {asked : ℕ → ℕ → Prop} {may : Sys n → Change n → Prop} {found : Option (Fin n)}
  {refs : Refs n}

/-- Every call is a path of steps. -/
theorem CacheCall.steps (c : CacheCall n) (hasked : ∀ d r, c.Asks env s d r → asked d r)
    (hmay : c.Changes env asked may s) (h : c.exec env k s = .ok found s') :
    CacheSteps env asked may s s' := by
  -- what each call does to the headers is known from its own lemma
  cases c with
  | get dev block =>
      simp only [exec, bind_eq_ok, pure_run, Res.ok.injEq] at h
      obtain ⟨b, t, hget, -, rfl⟩ := h
      exact (getBuff_taken hget).steps (hasked dev block ⟨rfl, rfl⟩)
  | read dev block => exact readBuff_steps (hasked dev block ⟨rfl, rfl⟩) h
  | retain dev block =>
      have hretained := retainBuff_retained h
      cases found with
      | none => exact .of_submits hretained
      | some b =>
          obtain ⟨t, hpath, -, rfl⟩ := hretained
          exact (CacheSteps.of_submits hpath).tail (.up b)
  | put b =>
      simp only [exec, bind_eq_ok, pure_run, Res.ok.injEq] at h
      obtain ⟨⟨⟩, t, hput, -, rfl⟩ := h
      exact putBuff_steps hput
  | invalidate dev block =>
      simp only [exec, bind_eq_ok, pure_run, Res.ok.injEq] at h
      obtain ⟨⟨⟩, t, hinv, -, rfl⟩ := h
      exact (invalidateBuff_invalidated hinv).steps hmay
  | sync dev =>
      simp only [exec, bind_eq_ok, pure_run, Res.ok.injEq] at h
      obtain ⟨⟨⟩, t, hsync, -, rfl⟩ := h
      exact .of_submits (syncDev_submits hsync)
  | page address dev blocks =>
      simp only [exec, bind_eq_ok, pure_run, Res.ok.injEq] at h
      obtain ⟨⟨⟩, t, hpage, -, rfl⟩ := h
      obtain ⟨bufs, t', htaken, hput⟩ := readBuffPage_taken hpage
      exact (htaken.steps fun r hr hne => hasked dev r ⟨rfl, hne, hr⟩).trans hput.steps
  | ahead dev first args =>
      obtain ⟨b, blocks, t, t₁, t₂, t₃, htaken, hread, hlisted, hahead, hwait, hdone⟩ :=
        readBuffAhead_taken h
      -- the blocks that are read ahead are among the arguments
      have hblocks : ∀ r ∈ blocks, asked dev r := by
        intro r hr
        rw [hlisted.2.2] at hr
        obtain ⟨i, -, rfl⟩ := List.mem_map.mp hr
        exact hasked dev _ ⟨rfl, .inr ⟨i, rfl⟩⟩
      exact ((((htaken.steps (hasked dev first ⟨rfl, .inl rfl⟩)).tail (.block hread)).trans
        (hahead.steps hblocks)).tail (.block hwait)).trans hdone.steps
  | store b data =>
      -- the holder's own assignment
      simp only [exec, update_bind, pure_run, Res.ok.injEq] at h
      exact h.2 ▸ .single (.store data hmay)
  | create dev =>
      simp only [exec, bind_eq_ok, pure_run, Res.ok.injEq] at h
      obtain ⟨block, t, hcreate, -, rfl⟩ := h
      exact createBlock_steps hcreate
        (fun t r t' hpath hmarked => hasked dev r ⟨rfl, t, t', hpath, hmarked⟩)
        hmay.1 hmay.2
  | idle =>
      simp only [exec, bind_eq_ok, pure_run, Res.ok.injEq] at h
      obtain ⟨⟨⟩, t, hidle, -, rfl⟩ := h
      exact .of_submits (idle_submits hidle)

/-! ## Well-formed lists -/

/-- Blocks are asked for with device numbers that are short and not 0. -/
def Named (env : Env n) (_ : Refs n) (s : Sys n) (c : CacheCall n) : Prop :=
  ∀ dev block, c.Asks env s dev block → 1 ≤ dev ∧ dev < 65536

/-- **The lists of the buffer cache.**  After every run the free list is one circle of
all headers, every header with a device is on the chain of its key and nowhere else,
keys are unique, and `find_buff` returns the header of a block exactly when there is
one. -/
theorem cache_links [NeZero n] (h : CacheReach env (Named env) s₀ refs s) :
    Links s ∧ ∀ dev block k, 1 ≤ dev → n < k →
      (∀ b, s.Keyed b dev block → findBuff dev block env k s = .ok (some b) s) ∧
      ((∀ b, ¬ s.Keyed b dev block) → findBuff dev block env k s = .ok none s) := by
  have hlinks : Links s := by
    induction h with
    | init => exact .init s₀
    | call c _ hlegal hexec ih =>
        have hpath : CacheSteps env (fun dev _ => dev < 65536) (fun _ _ => True) _ _ :=
          c.steps (fun d r hask => (hlegal d r hask).2) (c.changes_any _) hexec
        exact ih.steps (fun dev _ hdev => hdev) hpath
  exact ⟨hlinks, fun dev block k hdev hk => hlinks.findBuff_exact (by omega) hk⟩

/-- A kernel with one header and a disk of sevens, before `init_buff`. -/
def oneHeader : Sys 1 :=
  initRequestQueue { (Sys.load fun _ _ _ => 7) with geo := smallDrive, hdEnabled := true }

/-- The state after a call. -/
def CacheCall.after (c : CacheCall n) (env : Env n) (s : Sys n) : Sys n := (c.exec env 40 s).state

/-- A call that returns is one more call of a run. -/
theorem CacheReach.after [NeZero n] {legal : Refs n → Sys n → CacheCall n → Prop} (c : CacheCall n)
    (h : CacheReach env legal s₀ refs s) (hlegal : legal refs s c)
    (hrun : (c.exec env 40 s).value? = some found) :
    CacheReach env legal s₀ (c.account refs found) (c.after env s) :=
  .call c h hlegal (Res.eq_ok hrun)

/-- The same with two headers, before `init_request_queue`. -/
def twoHeaders : Sys 2 := { (Sys.load fun _ _ _ => 7) with geo := smallDrive, hdEnabled := true }

/-- Block 0 was read, and then block 1843 was asked for, which lies on the same chain. -/
def chainOfTwo : Sys 2 :=
  CacheCall.after (.get 0x300 1843) (Env.diligent 0x50)
    (CacheCall.after (.read 0x300 0) (Env.diligent 0x50) (initBuff (initRequestQueue twoHeaders)))

theorem cache_links_read : Links chainOfTwo ∧
    findBuff 0x300 0 (Env.diligent 0x50) 3 chainOfTwo = .ok (some 0) chainOfTwo ∧
    findBuff 0x300 1843 (Env.diligent 0x50) 3 chainOfTwo = .ok (some 1) chainOfTwo ∧
    findBuff 0x300 1 (Env.diligent 0x50) 3 chainOfTwo = .ok none chainOfTwo := by
  have hread : Named (Env.diligent 0x50) (fun _ => 0) (initBuff (initRequestQueue twoHeaders))
      (.read 0x300 0) := by
    rintro dev block ⟨rfl, -⟩
    decide
  have hfirst : CacheReach (Env.diligent 0x50) (Named (Env.diligent 0x50))
      (initRequestQueue twoHeaders) _ _ :=
    .after (.read 0x300 0) .init hread (show _ = some (some 0) from rfl)
  have hget (refs : Refs 2) (s : Sys 2) : Named (Env.diligent 0x50) refs s (.get 0x300 1843) := by
    rintro dev block ⟨rfl, -⟩
    decide
  obtain ⟨hlinks, hfind⟩ := cache_links
    (hfirst.after (.get 0x300 1843) (hget _ _) (show _ = some (some 1) by decide +kernel))
  exact ⟨hlinks, (hfind 0x300 0 3 (by decide) (by decide)).1 0
    ⟨by decide +kernel, by decide +kernel⟩,
    (hfind 0x300 1843 3 (by decide) (by decide)).1 1 ⟨by decide +kernel, by decide +kernel⟩,
    (hfind 0x300 1 3 (by decide) (by decide)).2 (by unfold Sys.Keyed; decide +kernel)⟩

end EgGS
