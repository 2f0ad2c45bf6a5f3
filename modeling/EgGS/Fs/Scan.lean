import EgGS.Cache.Runs
import EgGS.Fs.Stops

/-!
# Scanning a directory

The entries of a directory are looked at block by block.  Behind a block that is not
mapped or cannot be read, the two loops go on with an entry pointer that stands still and
with no buffer, and the next thing they do is to look at the contents of that buffer.

* `directory_scan`: no `NULL` buffer head is dereferenced exactly if `retain_inode_by_name`
  meets no such block with entries behind the block, and `create_inode_by_name` meets none
  at all.  Then every entry of the directory that is in a block that was read is looked at,
  in order, until the entry that is wanted.
-/

namespace EgGS

open Lib Prog

variable {n : ℕ} {env : Env n} {k : ℕ} {s s' t u : Sys n} {b bh bh' : Fin n}
variable {inode : Fin nrInode} {name : ℕ → UInt8} {namelen entries i e j m : ℕ}

/-! ## From block to block -/

/-- The buffer `bh` is given back and the next block is looked for: it is not mapped, it cannot
be read, or its buffer is there. -/
def nextBlock (inode : Fin nrInode) (block : ℕ) (create : Bool) (bh : Fin n) :
    P n (Option (Option (Fin n))) := do
  putBuff (some bh)
  let zone ← locateByInode inode block create
  if zone = 0 then
    pure none
  else do
    let s ← Prog.read
    let bh ← readBuff (s.inode inode).iDev zone
    pure (some bh)

/-- The fault of the two loops. -/
abbrev nullHead : Stop := .fault "NULL buffer head"

/-- The reason for which the two loops stop. -/
abbrev NullHead (why : Stop) : Prop := why = nullHead

theorem nullHead_foreign : FsForeign NullHead where
  panic _ _ := by simp [NullHead]
  spin := by simp [NullHead]
  division := by simp [NullHead]
  null := by simp [NullHead]
  slot := by simp [NullHead]

theorem nextBlock_avoids (inode : Fin nrInode) (block : ℕ) (create : Bool) (bh : Fin n)
    (s : Sys n) :
    Avoids NullHead (nextBlock inode block create bh) env s :=
  .bind (putBuff_avoids nullHead_foreign.toForeign _ s) fun _ _ s _ =>
    .bind (locateByInode_avoids nullHead_foreign inode block create s) fun _ _ _ _ =>
      .ite (fun _ => .pure _) fun _ => .bind_read <|
        .bind (readBuff_avoids nullHead_foreign.toForeign _ _ _) fun _ _ _ _ => .pure _

/-- The blocks behind the largest file are not looked for. -/
theorem nextBlock_bound {create : Bool} {found : Option (Option (Fin n))}
    (h : nextBlock inode j create bh env k s = .ok found s') : j < 7 + 512 + 512 * 512 := by
  obtain ⟨⟨⟩, t, -, h⟩ := bind_eq_ok.mp h
  obtain ⟨zone, u, hlocate, -⟩ := bind_eq_ok.mp h
  by_contra hge
  have hbig : (j : ℤ) ≥ 7 + 512 + 512 * 512 := by omega
  rw [locateByInode, ite_run, if_neg (by omega), ite_run, if_pos hbig] at hlocate
  exact absurd hlocate (by simp [panic])

/-- The blocks a file can have. -/
abbrev maxBlocks : ℕ := 7 + 512 + 512 * 512

/-! ## Block by block -/

/-- A loop over the entries of a directory, in which something is wanted. -/
structure BlockScan (n : ℕ) (α : Type) where
  /-- blocks that are not there are created -/
  create : Bool
  /-- the entry with this number is looked at -/
  more : ℕ → Bool
  /-- the result behind the last entry -/
  done : Option (Fin n) → α
  /-- the result at a block that is not mapped, if the loop ends there -/
  unmapped : Option α
  /-- the entry with this number, at this place of the buffer, is the one -/
  wanted : ℕ → ℕ → Fin n → Sys n → Bool
  /-- what is done with it -/
  take : ℕ → ℕ → Fin n → P n α

namespace BlockScan

variable {α : Type} (v : BlockScan n α) (inode : Fin nrInode)

/-- The look at an entry. -/
def look (i e : ℕ) (bh : Fin n) : P n ((ℕ × ℕ × Option (Fin n)) ⊕ α) := do
  let s ← Prog.read
  if v.wanted i e bh s then do
    let a ← v.take i e bh
    pure (.inr a)
  else
    pure (.inl (i + 1, e + 1, some bh))

/-- One round of the loop. -/
def round (i e : ℕ) (bh : Option (Fin n)) : P n ((ℕ × ℕ × Option (Fin n)) ⊕ α) :=
  if v.more i then
    match bh with
    | none => Prog.halt nullHead
    | some bh =>
      if e ≥ dirEntriesPerBlock then do
        match ← nextBlock inode (i / dirEntriesPerBlock) v.create bh with
        | none =>
          match v.unmapped with
          | none => pure (.inl (i + dirEntriesPerBlock, e, none))
          | some a => pure (.inr a)
        | some none => pure (.inl (i + dirEntriesPerBlock, e, none))
        | some (some bh) => v.look i 0 bh
      else
        v.look i e bh
  else
    pure (.inr (v.done bh))

/-- The loop, with `fuel` rounds left. -/
abbrev loop (fuel : ℕ) (x : ℕ × ℕ × Option (Fin n)) : P n α :=
  Prog.rounds (fun x => v.round inode x.1 x.2.1 x.2.2) fuel x

/-- The loop, with `fuel` rounds left behind a look at entry `e` of block `j`. -/
def lookAt (fuel j e : ℕ) (bh : Fin n) : P n α := fun env k s =>
  match v.look (dirEntriesPerBlock * j + e) e bh env k s with
  | .ok (.inl x) t => v.loop inode fuel x env k t
  | .ok (.inr a) t => .ok a t
  | .stop why t => .stop why t

/-- The first `m` entries of block `j` are entries of the directory, and not wanted. -/
def Skips (s : Sys n) (bh : Fin n) (j m : ℕ) : Prop :=
  ∀ e < m, v.more (dirEntriesPerBlock * j + e) = true ∧
    v.wanted (dirEntriesPerBlock * j + e) e bh s = false

/-- The loop does not go on at a block that is missing. -/
def Ends (found : Option (Option (Fin n))) : Option α :=
  match found with
  | none => v.unmapped
  | some _ => none

/-- The scan from block `j` on, which is in the buffer `bh`: the entries are looked at in order,
up to the first that is wanted, each inside the block that was read. -/
inductive Scanned (env : Env n) (k : ℕ) : ℕ → Fin n → Sys n → Res (Sys n) α → Prop
  | found {j e : ℕ} {bh : Fin n} {s : Sys n} : e < dirEntriesPerBlock → v.Skips s bh j e →
      v.more (dirEntriesPerBlock * j + e) = true →
      v.wanted (dirEntriesPerBlock * j + e) e bh s = true →
      Scanned env k j bh s (v.take (dirEntriesPerBlock * j + e) e bh env k s)
  | last {j m : ℕ} {bh : Fin n} {s : Sys n} : m ≤ dirEntriesPerBlock → v.Skips s bh j m →
      v.more (dirEntriesPerBlock * j + m) = false →
      Scanned env k j bh s (.ok (v.done (some bh)) s)
  | unmapped {j : ℕ} {bh : Fin n} {s t : Sys n} {found : Option (Option (Fin n))} {a : α} :
      v.Skips s bh j dirEntriesPerBlock → v.more (dirEntriesPerBlock * (j + 1)) = true →
      nextBlock inode (j + 1) v.create bh env k s = .ok found t → v.Ends found = some a →
      Scanned env k j bh s (.ok a t)
  | missing {j : ℕ} {bh : Fin n} {s t : Sys n} {found : Option (Option (Fin n))} :
      v.Skips s bh j dirEntriesPerBlock → v.more (dirEntriesPerBlock * (j + 1)) = true →
      nextBlock inode (j + 1) v.create bh env k s = .ok found t → v.Ends found = none →
      found.join = none → v.more (dirEntriesPerBlock * (j + 2)) = false →
      Scanned env k j bh s (.ok (v.done none) t)
  | stuck {j : ℕ} {bh : Fin n} {s t : Sys n} {why : Stop} :
      v.Skips s bh j dirEntriesPerBlock → v.more (dirEntriesPerBlock * (j + 1)) = true →
      nextBlock inode (j + 1) v.create bh env k s = .stop why t →
      Scanned env k j bh s (.stop why t)
  | next {j : ℕ} {bh bh' : Fin n} {s t : Sys n} {r : Res (Sys n) α} :
      v.Skips s bh j dirEntriesPerBlock → v.more (dirEntriesPerBlock * (j + 1)) = true →
      nextBlock inode (j + 1) v.create bh env k s = .ok (some (some bh')) t →
      Scanned env k (j + 1) bh' t r → Scanned env k j bh s r

/-- From block `j` on, the scan meets a block that is missing and is not the last, before it
comes to what is wanted. -/
inductive Holed (env : Env n) (k : ℕ) : ℕ → Fin n → Sys n → Prop
  | missing {j : ℕ} {bh : Fin n} {s t : Sys n} {found : Option (Option (Fin n))} :
      v.Skips s bh j dirEntriesPerBlock → v.more (dirEntriesPerBlock * (j + 1)) = true →
      nextBlock inode (j + 1) v.create bh env k s = .ok found t → v.Ends found = none →
      found.join = none → v.more (dirEntriesPerBlock * (j + 2)) = true →
      Holed env k j bh s
  | next {j : ℕ} {bh bh' : Fin n} {s t : Sys n} :
      v.Skips s bh j dirEntriesPerBlock → v.more (dirEntriesPerBlock * (j + 1)) = true →
      nextBlock inode (j + 1) v.create bh env k s = .ok (some (some bh')) t →
      Holed env k (j + 1) bh' t → Holed env k j bh s

variable {v inode} {fuel : ℕ}

theorem look_pass (h : v.wanted i e bh s = false) :
    v.look i e bh env k s = .ok (.inl (i + 1, e + 1, some bh)) s := by
  rw [look, read_bind, ite_run, if_neg (by simp [h])]
  rfl

theorem lookAt_found (h : v.wanted (dirEntriesPerBlock * j + e) e bh s = true) :
    v.lookAt inode fuel j e bh env k s = v.take (dirEntriesPerBlock * j + e) e bh env k s := by
  rw [lookAt, look, read_bind, ite_run, if_pos h, bind_run]
  cases v.take (dirEntriesPerBlock * j + e) e bh env k s <;> rfl

theorem loop_look (he : e < dirEntriesPerBlock)
    (hmore : v.more (dirEntriesPerBlock * j + e) = true) :
    v.loop inode (fuel + 1) (dirEntriesPerBlock * j + e, e, some bh) env k s =
      v.lookAt inode fuel j e bh env k s := by
  rw [loop, rounds, bind_run, lookAt, round, ite_run, if_pos hmore]
  dsimp only
  rw [ite_run, if_neg (by omega)]
  cases v.look (dirEntriesPerBlock * j + e) e bh env k s with
  | stop why t => rfl
  | ok x t => cases x <;> rfl

/-- The loop ends behind the last entry. -/
theorem loop_done (hmore : v.more i = false) (buf : Option (Fin n)) :
    v.loop inode (fuel + 1) (i, e, buf) env k s = .ok (v.done buf) s := by
  rw [loop, rounds, bind_run]
  unfold round
  rw [ite_run, if_neg (by simp [hmore])]
  rfl

/-- Behind a block that is missing there is no buffer to look into. -/
theorem loop_null (hmore : v.more i = true) :
    v.loop inode (fuel + 1) (i, e, none) env k s = .stop nullHead s := by
  rw [loop, rounds, bind_run, round, ite_run, if_pos hmore]
  rfl

theorem lookAt_pass (h : v.wanted (dirEntriesPerBlock * j + e) e bh s = false) :
    v.lookAt inode fuel j e bh env k s =
      v.loop inode fuel (dirEntriesPerBlock * j + (e + 1), e + 1, some bh) env k s := by
  rw [lookAt, look_pass h]
  rfl

/-- The first `m` entries of a block are passed. -/
theorem lookAt_skip (hm : m < dirEntriesPerBlock) (h : v.Skips s bh j m)
    (hmore : v.more (dirEntriesPerBlock * j + m) = true) :
    v.lookAt inode (fuel + m) j 0 bh env k s = v.lookAt inode fuel j m bh env k s := by
  induction m generalizing fuel with
  | zero => rfl
  | succ m ih =>
      obtain ⟨hmore', hpass⟩ := h m (Nat.lt_succ_self m)
      have hskip : v.lookAt inode (fuel + 1 + m) j 0 bh env k s =
          v.lookAt inode (fuel + 1) j m bh env k s :=
        ih (by omega) (fun e he => h e (by omega)) hmore'
      rw [show fuel + (m + 1) = fuel + 1 + m by omega, hskip, lookAt_pass hpass,
        loop_look hm hmore]

/-- The last entry of the directory is passed. -/
theorem lookAt_last (hm : m < dirEntriesPerBlock) (h : v.Skips s bh j (m + 1))
    (hmore : v.more (dirEntriesPerBlock * j + (m + 1)) = false) :
    v.lookAt inode (fuel + 1 + m) j 0 bh env k s = .ok (v.done (some bh)) s := by
  obtain ⟨hmore', hpass⟩ := h m (Nat.lt_succ_self m)
  rw [lookAt_skip hm (fun e he => h e (by omega)) hmore', lookAt_pass hpass, loop_done hmore]

/-- A whole block is passed, and the next one is looked for. -/
theorem lookAt_turn (h : v.Skips s bh j dirEntriesPerBlock)
    (hmore : v.more (dirEntriesPerBlock * (j + 1)) = true) :
    v.lookAt inode (fuel + dirEntriesPerBlock) j 0 bh env k s =
      match nextBlock inode (j + 1) v.create bh env k s with
      | .ok none t =>
        match v.unmapped with
        | none => v.loop inode fuel (dirEntriesPerBlock * (j + 2), dirEntriesPerBlock, none) env k t
        | some a => .ok a t
      | .ok (some none) t =>
        v.loop inode fuel (dirEntriesPerBlock * (j + 2), dirEntriesPerBlock, none) env k t
      | .ok (some (some bh')) t => v.lookAt inode fuel (j + 1) 0 bh' env k t
      | .stop why t => .stop why t := by
  obtain ⟨hmore', hpass⟩ := h 31 (by decide)
  have hskip : v.lookAt inode (fuel + 1 + 31) j 0 bh env k s =
      v.lookAt inode (fuel + 1) j 31 bh env k s :=
    lookAt_skip (by decide) (fun e he => h e (by simp only [dirEntriesPerBlock]; omega)) hmore'
  have hdiv : (dirEntriesPerBlock * j + (31 + 1)) / dirEntriesPerBlock = j + 1 := by
    simp only [dirEntriesPerBlock]
    omega
  show v.lookAt inode (fuel + 1 + 31) j 0 bh env k s = _
  have hturn : v.more (dirEntriesPerBlock * j + (31 + 1)) = true := hmore
  -- 31 entries are passed over, and the last one turns to the next block
  rw [hskip, lookAt_pass hpass, loop, rounds, bind_run, round, ite_run, if_pos hturn]
  dsimp only
  rw [ite_run, if_pos (by decide), bind_run, hdiv]
  cases nextBlock inode (j + 1) v.create bh env k s with
  | stop why t => rfl
  | ok found t =>
      cases found with
      | none => cases v.unmapped <;> rfl
      | some found =>
          cases found with
          | none => rfl
          | some bh' =>
              dsimp only
              have hfirst : dirEntriesPerBlock * (j + 1) + 0 = dirEntriesPerBlock * j + (31 + 1) :=
                rfl
              rw [lookAt, hfirst]
              cases v.look (dirEntriesPerBlock * j + (31 + 1)) 0 bh' env k t with
              | stop why u => rfl
              | ok x u => cases x <;> rfl

/-- Behind a block that is missing the loop goes on without a buffer, or it has ended. -/
theorem lookAt_missing {found : Option (Option (Fin n))} (h : v.Skips s bh j dirEntriesPerBlock)
    (hmore : v.more (dirEntriesPerBlock * (j + 1)) = true)
    (hnext : nextBlock inode (j + 1) v.create bh env k s = .ok found t)
    (hend : v.Ends found = none) (hfound : found.join = none) :
    v.lookAt inode (fuel + dirEntriesPerBlock) j 0 bh env k s =
      v.loop inode fuel (dirEntriesPerBlock * (j + 2), dirEntriesPerBlock, none) env k t := by
  rw [lookAt_turn h hmore, hnext]
  cases found with
  | none =>
      have hunmapped : v.unmapped = none := hend
      rw [hunmapped]
  | some found =>
      cases found with
      | none => rfl
      | some bh' => exact absurd hfound (by simp)

/-- Of the first `m` entries one is wanted or the first behind the end, or all are passed. -/
theorem skips_cases (v : BlockScan n α) (s : Sys n) (bh : Fin n) (j m : ℕ) :
    v.Skips s bh j m ∨ ∃ e < m, v.Skips s bh j e ∧
      (v.more (dirEntriesPerBlock * j + e) = false ∨
        v.more (dirEntriesPerBlock * j + e) = true ∧
          v.wanted (dirEntriesPerBlock * j + e) e bh s = true) := by
  induction m with
  | zero => exact .inl fun e he => absurd he (Nat.not_lt_zero e)
  | succ m ih =>
      rcases ih with hskip | ⟨e, he, hstop⟩
      · cases hmore : v.more (dirEntriesPerBlock * j + m) with
        | false => exact .inr ⟨m, Nat.lt_succ_self m, hskip, .inl hmore⟩
        | true =>
            cases hwanted : v.wanted (dirEntriesPerBlock * j + m) m bh s with
            | true => exact .inr ⟨m, Nat.lt_succ_self m, hskip, .inr ⟨hmore, hwanted⟩⟩
            | false =>
                refine .inl fun e he => ?_
                rcases Nat.lt_succ_iff_lt_or_eq.mp he with hlt | rfl
                · exact hskip e hlt
                · exact ⟨hmore, hwanted⟩
      · exact .inr ⟨e, Nat.lt_succ_of_lt he, hstop⟩

/-- **The scan.**  The entries are looked at in order, unless there is a hole. -/
theorem lookAt_scanned (hj : j < maxBlocks) (hfuel : dirEntriesPerBlock * (maxBlocks - j) ≤ fuel)
    (hstart : v.more (dirEntriesPerBlock * j + 0) = true) :
    v.Scanned inode env k j bh s (v.lookAt inode fuel j 0 bh env k s) ∨
      v.Holed inode env k j bh s := by
  -- the induction is on the blocks that a file can still have
  induction hleft : maxBlocks - j using Nat.strong_induction_on generalizing j bh s fuel with
  | _ left ih =>
      obtain ⟨fuel, rfl⟩ : ∃ f, fuel = f + dirEntriesPerBlock :=
        ⟨fuel - dirEntriesPerBlock, by simp only [dirEntriesPerBlock] at hfuel ⊢; omega⟩
      rcases v.skips_cases s bh j dirEntriesPerBlock with hskip | ⟨e, he, hskip, hstop⟩
      · -- no entry of this block ends the scan, so the next block is asked for if there is one
        cases hmore : v.more (dirEntriesPerBlock * (j + 1)) with
        | false =>
            refine .inl ?_
            have hlast : v.lookAt inode (fuel + 1 + 31) j 0 bh env k s = .ok (v.done (some bh)) s :=
              lookAt_last (by decide) hskip hmore
            rw [show fuel + dirEntriesPerBlock = fuel + 1 + 31 from rfl, hlast]
            exact .last le_rfl hskip hmore
        | true =>
            cases hnext : nextBlock inode (j + 1) v.create bh env k s with
            | stop why t =>
                refine .inl ?_
                rw [lookAt_turn hskip hmore, hnext]
                exact .stuck hskip hmore hnext
            | ok found t =>
                have hbound := nextBlock_bound hnext
                cases hend : v.Ends found with
                | some a =>
                    have hnone : found = none := by
                      cases found with
                      | none => rfl
                      | some x => exact absurd hend (by simp [Ends])
                    subst hnone
                    refine .inl ?_
                    have hunmapped : v.unmapped = some a := hend
                    have hrun : v.lookAt inode (fuel + dirEntriesPerBlock) j 0 bh env k s =
                      .ok a t := by
                      rw [lookAt_turn hskip hmore, hnext]
                      dsimp only
                      rw [hunmapped]
                    rw [hrun]
                    exact .unmapped hskip hmore hnext hend
                | none =>
                    -- the next block has a buffer, or the scan goes on without one
                    cases hfound : found.join with
                    | none =>
                        cases hbehind : v.more (dirEntriesPerBlock * (j + 2)) with
                        | true => exact .inr (.missing hskip hmore hnext hend hfound hbehind)
                        | false =>
                            obtain ⟨fuel, rfl⟩ : ∃ f, fuel = f + 1 := ⟨fuel - 1, by
                              simp only [dirEntriesPerBlock, maxBlocks] at hfuel hbound; omega⟩
                            refine .inl ?_
                            rw [lookAt_missing hskip hmore hnext hend hfound, loop_done hbehind]
                            exact .missing hskip hmore hnext hend hfound hbehind
                    | some bh' =>
                        obtain rfl : found = some (some bh') := by
                          cases found with
                          | none => exact absurd hfound (by simp)
                          | some x => exact congrArg some hfound
                        have hleft' : dirEntriesPerBlock * (maxBlocks - (j + 1)) ≤ fuel := by
                          simp only [dirEntriesPerBlock] at hfuel ⊢
                          omega
                        have hrest : v.Scanned inode env k (j + 1) bh' t
                              (v.lookAt inode fuel (j + 1) 0 bh' env k t) ∨
                            v.Holed inode env k (j + 1) bh' t :=
                          ih (maxBlocks - (j + 1)) (by omega) hbound hleft' hmore rfl
                        rcases hrest with hrest | hrest
                        · refine .inl ?_
                          rw [lookAt_turn hskip hmore, hnext]
                          exact .next hskip hmore hnext hrest
                        · exact .inr (.next hskip hmore hnext hrest)
      · refine .inl ?_
        rcases hstop with hmore | ⟨hmore, hwanted⟩
        · -- the directory ends in the middle of the block
          obtain ⟨e, rfl⟩ : ∃ x, e = x + 1 := by
            cases e with
            | zero => exact absurd (hmore.symm.trans hstart) (by decide)
            | succ e => exact ⟨e, rfl⟩
          have hlast : v.lookAt inode (fuel + dirEntriesPerBlock - 1 - e + 1 + e) j 0 bh env k s =
              .ok (v.done (some bh)) s := lookAt_last (by omega) hskip hmore
          rw [show fuel + dirEntriesPerBlock - 1 - e + 1 + e = fuel + dirEntriesPerBlock by
            omega] at hlast
          rw [hlast]
          exact .last he.le hskip hmore
        · have hskipped : v.lookAt inode (fuel + dirEntriesPerBlock - e + e) j 0 bh env k s =
              v.lookAt inode (fuel + dirEntriesPerBlock - e) j e bh env k s :=
            lookAt_skip he hskip hmore
          rw [show fuel + dirEntriesPerBlock - e + e = fuel + dirEntriesPerBlock by omega,
            lookAt_found hwanted] at hskipped
          rw [hskipped]
          exact .found he hskip hmore hwanted

/-- At a hole the loop looks into a buffer that is not there. -/
theorem Holed.lookAt (h : v.Holed inode env k j bh s)
    (hfuel : dirEntriesPerBlock * (maxBlocks - j) ≤ fuel) :
    ∃ t, v.lookAt inode fuel j 0 bh env k s = .stop nullHead t := by
  induction h generalizing fuel with
  | @missing j bh s t found hskip hmore hnext hend hfound hbehind =>
      have hbound := nextBlock_bound hnext
      obtain ⟨fuel, rfl⟩ : ∃ f, fuel = f + 1 + dirEntriesPerBlock :=
        ⟨fuel - 1 - dirEntriesPerBlock, by
          simp only [dirEntriesPerBlock, maxBlocks] at hfuel hbound ⊢; omega⟩
      exact ⟨t, by rw [lookAt_missing hskip hmore hnext hend hfound, loop_null hbehind]⟩
  | @next j bh bh' s t hskip hmore hnext _ ih =>
      have hbound := nextBlock_bound hnext
      obtain ⟨fuel, rfl⟩ : ∃ f, fuel = f + dirEntriesPerBlock :=
        ⟨fuel - dirEntriesPerBlock, by
          simp only [dirEntriesPerBlock, maxBlocks] at hfuel hbound ⊢; omega⟩
      have hleft : dirEntriesPerBlock * (maxBlocks - (j + 1)) ≤ fuel := by
        simp only [dirEntriesPerBlock, maxBlocks] at hfuel hbound ⊢
        omega
      obtain ⟨u, hu⟩ := ih hleft
      exact ⟨u, by rw [lookAt_turn hskip hmore, hnext]; exact hu⟩

/-- A scan in order looks into no buffer that is not there. -/
theorem Scanned.ne_null {r : Res (Sys n) α} (h : v.Scanned inode env k j bh s r)
    (htake : ∀ i e bh s, Avoids NullHead (v.take i e bh) env s) (t : Sys n) :
    r ≠ .stop nullHead t := by
  induction h with
  | found _ _ _ _ => exact fun hr => htake _ _ _ _ k _ t hr rfl
  | last _ _ _ => exact fun hr => absurd hr (by simp)
  | unmapped _ _ _ _ => exact fun hr => absurd hr (by simp)
  | missing _ _ _ _ _ _ => exact fun hr => absurd hr (by simp)
  | stuck _ _ hnext =>
      rintro ⟨⟩
      exact nextBlock_avoids _ _ _ _ _ k _ _ hnext rfl
  | next _ _ _ _ ih => exact ih

/-- **The whole loop.**  It is a scan in order exactly if there is no hole. -/
theorem loop_scanned (hfuel : dirEntriesPerBlock * maxBlocks < fuel)
    (htake : ∀ i e bh s, Avoids NullHead (v.take i e bh) env s) :
    (v.Scanned inode env k 0 bh s (v.loop inode fuel (0, 0, some bh) env k s) ↔
      ¬ v.Holed inode env k 0 bh s) ∧
    ((∃ t, v.loop inode fuel (0, 0, some bh) env k s = .stop nullHead t) ↔
      v.Holed inode env k 0 bh s) := by
  have hnull : v.Holed inode env k 0 bh s →
      ∃ t, v.loop inode fuel (0, 0, some bh) env k s = .stop nullHead t := by
    intro hholed
    obtain ⟨fuel, rfl⟩ : ∃ f, fuel = f + 1 := ⟨fuel - 1, by omega⟩
    have hmore : v.more (dirEntriesPerBlock * 0 + 0) = true := by
      cases hholed with
      | missing hskip _ _ _ _ _ => exact (hskip 0 (by decide)).1
      | next hskip _ _ _ => exact (hskip 0 (by decide)).1
    obtain ⟨t, ht⟩ := hholed.lookAt (Nat.le_of_lt_succ hfuel)
    exact ⟨t, (loop_look (by decide) hmore).trans ht⟩
  have hscan : v.Scanned inode env k 0 bh s (v.loop inode fuel (0, 0, some bh) env k s) ∨
      v.Holed inode env k 0 bh s := by
    obtain ⟨fuel, rfl⟩ : ∃ f, fuel = f + 1 := ⟨fuel - 1, by omega⟩
    cases hmore : v.more (dirEntriesPerBlock * 0 + 0) with
    | false =>
        refine .inl ?_
        rw [show v.loop inode (fuel + 1) (0, 0, some bh) env k s = .ok (v.done (some bh)) s from
          loop_done hmore _]
        exact .last (m := 0) (by decide) (fun e he => absurd he (Nat.not_lt_zero e)) hmore
    | true =>
        rw [show v.loop inode (fuel + 1) (0, 0, some bh) env k s =
          v.lookAt inode fuel 0 0 bh env k s from loop_look (by decide) hmore]
        exact lookAt_scanned (by decide) (Nat.le_of_lt_succ hfuel) hmore
  refine ⟨⟨fun h hholed => ?_, hscan.resolve_right⟩, fun ⟨t, ht⟩ => ?_, hnull⟩
  · obtain ⟨t, ht⟩ := hnull hholed
    exact h.ne_null htake t ht
  · rcases hscan with h | h
    · exact absurd ht (h.ne_null htake t)
    · exact h

end BlockScan

/-! ## The two loops -/

/-- The loop of `retain_inode_by_name`. -/
def nameScan (name : ℕ → UInt8) (namelen entries : ℕ) :
    BlockScan n (Option (Fin n) × Option (Fin n × ℕ)) where
  create := false
  more i := decide (i < entries)
  done bh := (bh, none)
  unmapped := none
  wanted _ e bh s := matchName namelen name ((s.buf bh).bData.entryName e)
  take _ e bh := pure (some bh, some (bh, e))

/-- The entry `e` of the buffer `bh`, the `i`-th of the directory, is taken. -/
def takeEntry (inode : Fin nrInode) (name : ℕ → UInt8) (namelen i e : ℕ) (bh : Fin n) :
    P n (Option (Fin nrInode)) := do
  coverEntry inode i e bh
  fillEntry inode name namelen e bh

/-- The loop of `create_inode_by_name`. -/
def slotScan (inode : Fin nrInode) (name : ℕ → UInt8) (namelen : ℕ) :
    BlockScan n (Option (Fin nrInode)) where
  create := true
  more _ := true
  done _ := none
  unmapped := some none
  wanted i e bh s := decide (i * 32 % 4294967296 ≥ (s.inode inode).iSize.toNat) ||
    decide ((s.buf bh).bData.entryInode e = 0)
  take := takeEntry inode name namelen

/-- How the two loops go on at the end of a block. -/
theorem nextBlock_bind {β : Type} (inode : Fin nrInode) (block : ℕ) (create : Bool) (bh : Fin n)
    (unmapped missing : P n β) (f : Fin n → P n β) :
    (do
      putBuff (some bh)
      let zone ← locateByInode inode block create
      if zone = 0 then
        unmapped
      else do
        let s ← Prog.read
        match ← readBuff (s.inode inode).iDev zone with
        | none => missing
        | some bh => f bh) = (do
      match ← nextBlock inode block create bh with
      | none => unmapped
      | some none => missing
      | some (some bh) => f bh) := by
  funext env k s
  rw [nextBlock, bind_run, bind_run, bind_run]
  cases putBuff (some bh) env k s with
  | stop why t => rfl
  | ok x t =>
      dsimp only
      rw [bind_run, bind_run]
      cases locateByInode inode block create env k t with
      | stop why t => rfl
      | ok zone t =>
          dsimp only
          rw [ite_run, ite_run]
          by_cases hzero : zone = 0
          · rw [if_pos hzero, if_pos hzero]
            rfl
          · rw [if_neg hzero, if_neg hzero, read_bind, read_bind, bind_run, bind_run]
            cases readBuff (t.inode inode).iDev zone env k t with
            | stop why t => rfl
            | ok found t => cases found <;> rfl

theorem scanEntries_eq (inode : Fin nrInode) (name : ℕ → UInt8) (namelen entries : ℕ) (bh : Fin n) :
    scanEntries inode name namelen entries bh env k s =
      (nameScan name namelen entries).loop inode k (0, 0, some bh) env k s := by
  unfold scanEntries Prog.iterate
  dsimp only [BlockScan.loop]
  congr 1
  funext x
  obtain ⟨i, e, buf⟩ := x
  unfold BlockScan.round
  cases buf with
  | none => simp only [nameScan, decide_eq_true_eq]
  | some bh =>
      have hturn := nextBlock_bind inode (i / dirEntriesPerBlock) false bh
        (pure (.inl (i + dirEntriesPerBlock, e, none)))
        (pure (.inl (i + dirEntriesPerBlock, e, none)))
        ((nameScan name namelen entries).look i 0)
      simp only [nameScan, decide_eq_true_eq]
      exact if_congr Iff.rfl (if_congr Iff.rfl hturn rfl) rfl

/-- A word that was stored is there. -/
theorem Block.word_setWord (data : Block) (i : ℕ) (word : UInt16) :
    (data.setWord i word).word i = word := by
  have hne : (⟨2 * i % 1024, Nat.mod_lt _ (by decide)⟩ : Fin 1024) ≠
      ⟨(2 * i + 1) % 1024, Nat.mod_lt _ (by decide)⟩ := by
    intro heq
    have := congrArg Fin.val heq
    dsimp only at this
    omega
  unfold Block.word Block.setWord
  dsimp only
  rw [Function.update_self, Function.update_of_ne hne, Function.update_self]
  apply UInt16.toNat_inj.mp
  have hlt := word.toNat_lt
  simp only [UInt16.toNat_ofNat', UInt8.toNat_ofNat']
  omega

/-- The entry behind the end is empty once the directory has grown. -/
theorem Sys.growDir_entry (s : Sys n) (inode : Fin nrInode) (i e : ℕ) (bh : Fin n) :
    ((s.growDir inode i e bh).buf bh).bData.entryInode e = 0 := by
  show ((Function.update s.buf bh _ bh).bData.word (16 * e)).toNat = 0
  rw [Function.update_self]
  show (((s.buf bh).bData.setWord (16 * e) 0).word (16 * e)).toNat = 0
  rw [Block.word_setWord]
  rfl

/-- An entry is taken if it is empty or behind the end. -/
theorem tryEntry_eq (inode : Fin nrInode) (name : ℕ → UInt8) (namelen i e : ℕ) (bh : Fin n) :
    tryEntry inode name namelen i e bh = (slotScan inode name namelen).look i e bh := by
  funext env k s
  rw [tryEntry, BlockScan.look, read_bind]
  have hcover : coverEntry inode i e bh env k s = .ok ()
      (if i * 32 % 4294967296 ≥ (s.inode inode).iSize.toNat then s.growDir inode i e bh
        else s) := by
    rw [coverEntry, read_bind, ite_run]
    split <;> rfl
  have htake : ∀ t, coverEntry inode i e bh env k s = .ok () t →
      (takeEntry inode name namelen i e bh >>= fun a => pure (.inr a) :
        P n ((ℕ × ℕ × Option (Fin n)) ⊕ Option (Fin nrInode))) env k s =
      (fillEntry inode name namelen e bh >>= fun a => pure (.inr a)) env k t := by
    intro t ht
    rw [bind_run, bind_run, takeEntry, bind_of_ok ht]
  rw [bind_of_ok hcover, read_bind, ite_run, ite_run]
  by_cases hgrow : i * 32 % 4294967296 ≥ (s.inode inode).iSize.toNat
  · have hwanted : (slotScan inode name namelen).wanted i e bh s = true := by
      simp [slotScan, hgrow]
    rw [if_pos hgrow] at hcover ⊢
    rw [if_pos (s.growDir_entry inode i e bh), if_pos hwanted]
    exact (htake _ hcover).symm
  · rw [if_neg hgrow] at hcover ⊢
    by_cases hempty : (s.buf bh).bData.entryInode e = 0
    · have hwanted : (slotScan inode name namelen).wanted i e bh s = true := by
        simp [slotScan, hempty]
      rw [if_pos hempty, if_pos hwanted]
      exact (htake _ hcover).symm
    · have hwanted : ¬ (slotScan inode name namelen).wanted i e bh s = true := by
        simp only [slotScan, Bool.or_eq_true, decide_eq_true_eq]
        exact not_or.mpr ⟨hgrow, hempty⟩
      rw [if_neg hempty, if_neg hwanted]

theorem placeEntry_eq (inode : Fin nrInode) (name : ℕ → UInt8) (namelen : ℕ) (bh : Fin n) :
    placeEntry inode name namelen bh env k s =
      (slotScan inode name namelen).loop inode k (0, 0, some bh) env k s := by
  unfold placeEntry Prog.iterate
  dsimp only [BlockScan.loop]
  congr 1
  funext x
  obtain ⟨i, e, buf⟩ := x
  unfold BlockScan.round
  cases buf with
  | none => rfl
  | some bh =>
      have hturn := nextBlock_bind inode (i / dirEntriesPerBlock) true bh (pure (.inr none))
        (pure (.inl (i + dirEntriesPerBlock, e, none))) ((slotScan inode name namelen).look i 0)
      simp only [tryEntry_eq]
      rw [if_pos (show (slotScan inode name namelen).more i = true from rfl)]
      exact if_congr Iff.rfl hturn rfl

/-! ## The two functions -/

/-- `retain_inode_by_name` comes to the entries of the directory `dir`, the first block of which
is in the buffer `bh`. -/
def LookupStarts (env : Env n) (k : ℕ) (inode : Fin nrInode) (name : ℕ → UInt8) (namelen : ℕ)
    (s : Sys n) (dir : Fin nrInode) (bh : Fin n) (t : Sys n) : Prop :=
  min namelen nameLen ≠ 0 ∧ ∃ u, crossDots inode name (min namelen nameLen) env k s = .ok dir u ∧
    (u.inode dir).iZone 0 ≠ 0 ∧
    readBuff (u.inode dir).iDev ((u.inode dir).iZone 0).toNat env k u = .ok (some bh) t

/-- `create_inode_by_name` comes to the entries of the directory, the first block of which is
in the buffer `bh`. -/
def CreateStarts (env : Env n) (k : ℕ) (inode : Fin nrInode) (namelen : ℕ) (s : Sys n)
    (bh : Fin n) (t : Sys n) : Prop :=
  min namelen nameLen ≠ 0 ∧ (s.inode inode).iZone 0 ≠ 0 ∧
    readBuff (s.inode inode).iDev ((s.inode inode).iZone 0).toNat env k s = .ok (some bh) t

/-- The scan for a name in a directory of the size that `inode` has. -/
abbrev lookupScan (s : Sys n) (inode : Fin nrInode) (name : ℕ → UInt8) (namelen : ℕ) :
    BlockScan n (Option (Fin n) × Option (Fin n × ℕ)) :=
  nameScan name (min namelen nameLen) ((s.inode inode).iSize.toNat / 32)

theorem takeEntry_avoids (i e : ℕ) (bh : Fin n) (s : Sys n) :
    Avoids NullHead (takeEntry inode name namelen i e bh) env s := by
  refine .bind (.bind_read <| .ite (fun _ => .update _) fun _ => .pure _) fun _ _ s _ =>
    .bind_read <| .bind (createInode_avoids nullHead_foreign _ s) fun _ made s _ => ?_
  cases made with
  | none => exact .bind (putBuff_avoids nullHead_foreign.toForeign _ s) fun _ _ _ _ => .pure _
  | some new =>
      exact .bind (.update _) fun _ _ _ _ => .bind (.update _) fun _ _ s _ =>
        .bind (putBuff_avoids nullHead_foreign.toForeign _ s) fun _ _ _ _ => .pure _

/-- A `NULL` buffer head is dereferenced by the scan or not at all. -/
theorem retainInodeByName_null :
    (∃ t, retainInodeByName inode name namelen env k s = .stop nullHead t) ↔
      ∃ dir bh u, LookupStarts env k inode name namelen s dir bh u ∧ ∃ t,
        scanEntries dir name (min namelen nameLen) ((s.inode inode).iSize.toNat / 32) bh env k u =
          .stop nullHead t := by
  constructor
  · rintro ⟨t, h⟩
    -- what stops in front of the scan or behind it, stops for another reason
    rw [retainInodeByName, read_bind, ite_run] at h
    by_cases hlen : min namelen nameLen = 0
    · rw [if_pos hlen] at h
      exact absurd h (by simp)
    rw [if_neg hlen, bind_run] at h
    cases hdots : crossDots inode name (min namelen nameLen) env k s with
    | stop why u =>
        rw [hdots] at h
        obtain ⟨rfl, rfl⟩ : why = nullHead ∧ u = t := by simpa using h
        exact absurd rfl (crossDots_avoids nullHead_foreign inode name _ s k _ _ hdots)
    | ok dir u =>
        rw [hdots] at h
        dsimp only at h
        rw [lookupName, read_bind, ite_run] at h
        by_cases hzone : (u.inode dir).iZone 0 = 0
        · rw [if_pos hzone] at h
          exact absurd h (by simp)
        rw [if_neg hzone, bind_run] at h
        cases hread : readBuff (u.inode dir).iDev ((u.inode dir).iZone 0).toNat env k u with
        | stop why v =>
            rw [hread] at h
            obtain ⟨rfl, rfl⟩ : why = nullHead ∧ v = t := by simpa using h
            exact absurd rfl (readBuff_avoids nullHead_foreign.toForeign _ _ _ k _ _ hread)
        | ok found v =>
            rw [hread] at h
            dsimp only at h
            cases found with
            | none => exact absurd h (by simp)
            | some bh =>
                -- the first block of the directory is in `bh`, and the scan decides
                refine ⟨dir, bh, v, ⟨hlen, u, hdots, hzone, hread⟩, ?_⟩
                dsimp only at h
                rw [bind_run] at h
                cases hscan : scanEntries dir name (min namelen nameLen)
                    ((s.inode inode).iSize.toNat / 32) bh env k v with
                | stop why w =>
                    rw [hscan] at h
                    obtain ⟨rfl, rfl⟩ : why = nullHead ∧ w = t := by simpa using h
                    exact ⟨w, rfl⟩
                | ok x w =>
                    rw [hscan] at h
                    obtain ⟨buf, res⟩ := x
                    exact absurd rfl (finishLookup_avoids nullHead_foreign dir buf res w k _ _ h)
  · rintro ⟨dir, bh, v, ⟨hlen, u, hdots, hzone, hread⟩, t, hscan⟩
    refine ⟨t, ?_⟩
    rw [retainInodeByName, read_bind, ite_run, if_neg hlen, bind_of_ok hdots, lookupName, read_bind,
      ite_run, if_neg hzone, bind_of_ok hread]
    dsimp only
    rw [bind_run, hscan]

theorem createInodeByName_null :
    (∃ t, createInodeByName inode name namelen env k s = .stop nullHead t) ↔
      ∃ bh u, CreateStarts env k inode namelen s bh u ∧ ∃ t,
        placeEntry inode name (min namelen nameLen) bh env k u = .stop nullHead t := by
  constructor
  · rintro ⟨t, h⟩
    rw [createInodeByName, ite_run] at h
    by_cases hlen : min namelen nameLen = 0
    · rw [if_pos hlen] at h
      exact absurd h (by simp)
    rw [if_neg hlen, read_bind, ite_run] at h
    by_cases hzone : (s.inode inode).iZone 0 = 0
    · rw [if_pos hzone] at h
      exact absurd h (by simp)
    rw [if_neg hzone, bind_run] at h
    cases hread : readBuff (s.inode inode).iDev ((s.inode inode).iZone 0).toNat env k s with
    | stop why v =>
        rw [hread] at h
        obtain ⟨rfl, rfl⟩ : why = nullHead ∧ v = t := by simpa using h
        exact absurd rfl (readBuff_avoids nullHead_foreign.toForeign _ _ _ k _ _ hread)
    | ok found v =>
        rw [hread] at h
        dsimp only at h
        cases found with
        | none => exact absurd h (by simp)
        | some bh => exact ⟨bh, v, ⟨hlen, hzone, hread⟩, t, h⟩
  · rintro ⟨bh, v, ⟨hlen, hzone, hread⟩, t, hplace⟩
    refine ⟨t, ?_⟩
    rw [createInodeByName, ite_run, if_neg hlen, read_bind, ite_run, if_neg hzone,
      bind_of_ok hread]
    exact hplace

/-- `retain_inode_by_name` dereferences no `NULL` buffer head, and looks at the entries of the
directory in order until it finds the name, inside the blocks that it has read. -/
structure LookupSafe (env : Env n) (k : ℕ) (inode : Fin nrInode) (name : ℕ → UInt8) (namelen : ℕ)
    (s : Sys n) : Prop where
  nonnull : ∀ t, retainInodeByName inode name namelen env k s ≠ .stop nullHead t
  ordered : ∀ dir bh u, LookupStarts env k inode name namelen s dir bh u →
    (lookupScan s inode name namelen).Scanned dir env k 0 bh u
      (scanEntries dir name (min namelen nameLen) ((s.inode inode).iSize.toNat / 32) bh env k u)

/-- `create_inode_by_name` dereferences no `NULL` buffer head, and takes the first entry that is
empty or behind the end, inside the block that it has read. -/
structure CreateSafe (env : Env n) (k : ℕ) (inode : Fin nrInode) (name : ℕ → UInt8) (namelen : ℕ)
    (s : Sys n) : Prop where
  nonnull : ∀ t, createInodeByName inode name namelen env k s ≠ .stop nullHead t
  ordered : ∀ bh u, CreateStarts env k inode namelen s bh u →
    (slotScan inode name (min namelen nameLen)).Scanned inode env k 0 bh u
      (placeEntry inode name (min namelen nameLen) bh env k u)

/-- Before it finds the name, `retain_inode_by_name` meets a block that is not mapped or cannot
be read, and there are entries of the directory behind that block. -/
def LookupHoled (env : Env n) (k : ℕ) (inode : Fin nrInode) (name : ℕ → UInt8) (namelen : ℕ)
    (s : Sys n) : Prop :=
  ∃ dir bh u, LookupStarts env k inode name namelen s dir bh u ∧
    (lookupScan s inode name namelen).Holed dir env k 0 bh u

/-- Before it finds an entry that is free, `create_inode_by_name` meets a block that has a zone
and cannot be read. -/
def CreateHoled (env : Env n) (k : ℕ) (inode : Fin nrInode) (name : ℕ → UInt8) (namelen : ℕ)
    (s : Sys n) : Prop :=
  ∃ bh u, CreateStarts env k inode namelen s bh u ∧
    (slotScan inode name (min namelen nameLen)).Holed inode env k 0 bh u

/-- **Scanning over holes.**  The two functions scan a directory safely exactly if they meet no
block that is missing and has something behind it. -/
theorem directory_scan (hk : dirEntriesPerBlock * maxBlocks < k) :
    (LookupSafe env k inode name namelen s ↔ ¬ LookupHoled env k inode name namelen s) ∧
      (CreateSafe env k inode name namelen s ↔ ¬ CreateHoled env k inode name namelen s) := by
  have hlookup : ∀ dir bh u,
      ((lookupScan s inode name namelen).Scanned dir env k 0 bh u
        (scanEntries dir name (min namelen nameLen) ((s.inode inode).iSize.toNat / 32) bh env k u) ↔
          ¬ (lookupScan s inode name namelen).Holed dir env k 0 bh u) ∧
      ((∃ t, scanEntries dir name (min namelen nameLen) ((s.inode inode).iSize.toNat / 32) bh
          env k u = .stop nullHead t) ↔
        (lookupScan s inode name namelen).Holed dir env k 0 bh u) := by
    intro dir bh u
    rw [scanEntries_eq]
    exact BlockScan.loop_scanned hk fun _ _ _ _ => .pure _
  have hcreate : ∀ bh u,
      ((slotScan inode name (min namelen nameLen)).Scanned inode env k 0 bh u
        (placeEntry inode name (min namelen nameLen) bh env k u) ↔
          ¬ (slotScan inode name (min namelen nameLen)).Holed inode env k 0 bh u) ∧
      ((∃ t, placeEntry inode name (min namelen nameLen) bh env k u = .stop nullHead t) ↔
        (slotScan inode name (min namelen nameLen)).Holed inode env k 0 bh u) := by
    intro bh u
    rw [placeEntry_eq]
    exact BlockScan.loop_scanned hk fun i e bh s => takeEntry_avoids i e bh s
  constructor
  · constructor
    · rintro ⟨-, hordered⟩ ⟨dir, bh, u, hstart, hholed⟩
      exact (hlookup dir bh u).1.mp (hordered dir bh u hstart) hholed
    · intro hno
      refine ⟨fun t ht => ?_, fun dir bh u hstart => ?_⟩
      · obtain ⟨dir, bh, u, hstart, hnull⟩ := retainInodeByName_null.mp ⟨t, ht⟩
        exact hno ⟨dir, bh, u, hstart, (hlookup dir bh u).2.mp hnull⟩
      · exact (hlookup dir bh u).1.mpr fun hholed => hno ⟨dir, bh, u, hstart, hholed⟩
  · constructor
    · rintro ⟨-, hordered⟩ ⟨bh, u, hstart, hholed⟩
      exact (hcreate bh u).1.mp (hordered bh u hstart) hholed
    · intro hno
      refine ⟨fun t ht => ?_, fun bh u hstart => ?_⟩
      · obtain ⟨bh, u, hstart, hnull⟩ := createInodeByName_null.mp ⟨t, ht⟩
        exact hno ⟨bh, u, hstart, (hcreate bh u).2.mp hnull⟩
      · exact (hcreate bh u).1.mpr fun hholed => hno ⟨bh, u, hstart, hholed⟩

/-! ## A directory with a hole -/

/-- A directory of three blocks, of which only the first is mapped. -/
def holedDirectory : Sys 1 :=
  (initBuff oneHeader).setInode 0 fun x =>
    { x with
      iMode := 0x41ED, iSize := 3072, iNlinks := 1, iZone := fun z => if z = 0 then 2 else 0
      iDev := 0x300, iNum := 5, iCount := 1 }

/-- The name `a`. -/
def letterA : ℕ → UInt8 := fun _ => 0x61

theorem directory_scan_hole :
    (LookupSafe (Env.diligent 0x50) 9000000 0 letterA 1 holedDirectory ↔
        ¬ LookupHoled (Env.diligent 0x50) 9000000 0 letterA 1 holedDirectory) ∧
      (CreateSafe (Env.diligent 0x50) 9000000 0 letterA 1 holedDirectory ↔
        ¬ CreateHoled (Env.diligent 0x50) 9000000 0 letterA 1 holedDirectory) :=
  directory_scan (by decide)

/-- Behind the hole there are 32 entries. -/
theorem directory_scan_null :
    ¬ ∀ (env : Env 1) (k : ℕ) (inode : Fin nrInode) (name : ℕ → UInt8) (namelen : ℕ) (s : Sys 1),
      LookupSafe env k inode name namelen s := by
  intro h
  have hstop : (match retainInodeByName 0 letterA 1 (Env.diligent 0x50) 100 holedDirectory with
      | .stop why _ => decide (why = nullHead)
      | .ok _ _ => false) = true := by decide +kernel
  have hsafe := (h (Env.diligent 0x50) 100 0 letterA 1 holedDirectory).nonnull
  cases hrun : retainInodeByName 0 letterA 1 (Env.diligent 0x50) 100 holedDirectory with
  | ok x t =>
      rw [hrun] at hstop
      exact absurd hstop (by simp)
  | stop why t =>
      rw [hrun] at hstop
      exact hsafe t (hrun.trans (congrArg (Res.stop · t) (of_decide_eq_true hstop)))

end EgGS
