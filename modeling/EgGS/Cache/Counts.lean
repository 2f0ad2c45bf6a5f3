import EgGS.Cache.Runs

/-!
# Reference counts of buffers

`b_count` is the number of references outstanding, in every run that never has 256 of
them to one header and calls `invalidate_buff` only for a block that nobody holds.
Then a header that somebody holds keeps its block.

`Counted` is the invariant, for references counted outside of the state by the calls that take and
give them back, and `Kept` what holders see of a step.  `takenAll` is for the calls that take many
references at once, of which a header may get several.

`invalidate_buff` takes a reference to look at the count, and returns with it if the
count says that somebody else has the buffer, too.
-/

namespace EgGS

open Lib Prog Relation

variable {n : ℕ} {env : Env n} {k : ℕ} {s s' s₀ t : Sys n}
variable {refs : Refs n} {b : Fin n} {dev block : ℕ} {found : Option (Fin n)}

/-! ## References to many buffers -/

/-- The references to all buffers of a list. -/
def Refs.addAll (refs : Refs n) : List (Option (Fin n)) → Refs n
  | [] => refs
  | none :: bufs => refs.addAll bufs
  | some b :: bufs => (refs.add b).addAll bufs

theorem Refs.add_apply (refs : Refs n) (b c : Fin n) :
    refs.add b c = refs c + if c = b then 1 else 0 := by
  by_cases hc : c = b
  · subst hc; simp [Refs.add]
  · simp [Refs.add, hc]

theorem Refs.addAll_apply (refs : Refs n) (bufs : List (Option (Fin n))) (c : Fin n) :
    refs.addAll bufs c = refs c + bufs.count (some c) := by
  induction bufs generalizing refs with
  | nil => rfl
  | cons buf bufs ih =>
      cases buf with
      | none => simpa [Refs.addAll] using ih refs
      | some b =>
          rw [Refs.addAll, ih, List.count_cons, Refs.add_apply]
          by_cases hb : b = c
          · subst hb; simp; omega
          · simp [hb, Ne.symm hb]

theorem Refs.addAll_sub (refs : Refs n) (b : Fin n) (bufs : List (Option (Fin n))) :
    (refs.addAll (some b :: bufs)).sub b = refs.addAll bufs := by
  funext c
  by_cases hc : c = b
  · subst hc; simp [Refs.sub, Refs.addAll_apply, Nat.add_sub_assoc]
  · simp [Refs.sub, Refs.addAll_apply, hc, Ne.symm hc]

/-! ## The invariant -/

/-- `b_count` is the number of references, which fits into it. -/
structure Counted (refs : Refs n) (s : Sys n) : Prop where
  count : ∀ b, (s.buf b).bCount = refs b
  bound : ∀ b, refs b < 256

/-- The headers that somebody holds have the same blocks. -/
def Kept (refs : Refs n) (s s' : Sys n) : Prop :=
  ∀ b, 0 < refs b → (s'.buf b).bDev = (s.buf b).bDev ∧ (s'.buf b).bBlocknr = (s.buf b).bBlocknr

theorem Kept.refl (refs : Refs n) (s : Sys n) : Kept refs s s := fun _ _ => ⟨rfl, rfl⟩

theorem Kept.trans {s'' : Sys n} (h : Kept refs s s') (h' : Kept refs s' s'') :
    Kept refs s s'' :=
  fun b hb => ⟨(h' b hb).1.trans (h b hb).1, (h' b hb).2.trans (h b hb).2⟩

theorem Kept.mono {refs' : Refs n} (h : Kept refs' s s') (hle : refs ≤ refs') : Kept refs s s' :=
  fun b hb => h b (Nat.lt_of_lt_of_le hb (hle b))

theorem Refs.le_add (refs : Refs n) (b : Fin n) : refs ≤ refs.add b := by
  intro c
  rw [Refs.add_apply]
  exact Nat.le_add_right ..

theorem Kept.of_rest (hrest : s'.rest = s.rest) : Kept refs s s' := fun b _ =>
  ⟨congrArg (fun r => (r.links b).bDev) hrest, congrArg (fun r => (r.links b).bBlocknr) hrest⟩

theorem Kept.of_submits {x y : Submission n × Sys n} (h : Submits env x y) :
    Kept refs x.2 y.2 := .of_rest h.rest

theorem Kept.countUp (s : Sys n) (b : Fin n) : Kept refs s (s.countUp b) := by
  intro c _
  by_cases hc : c = b
  · subst hc; simp [Sys.countUp]
  · simp [Sys.countUp, hc]

theorem Kept.countDown (s : Sys n) (b : Fin n) : Kept refs s (s.countDown b) := by
  intro c _
  by_cases hc : c = b
  · subst hc; simp [Sys.countDown]
  · simp [Sys.countDown, hc]

namespace Counted

theorem of_rest (h : Counted refs s) (hrest : s'.rest = s.rest) : Counted refs s' :=
  ⟨fun b => (congrArg (fun r => (r.links b).bCount) hrest).trans (h.count b), h.bound⟩

theorem submits {x y : Submission n × Sys n} (h : Counted refs x.2) (hpath : Submits env x y) :
    Counted refs y.2 := h.of_rest hpath.rest

theorem up (h : Counted refs s) (hb : refs b + 1 < 256) : Counted (refs.add b) (s.countUp b) := by
  refine ⟨fun c => ?_, fun c => ?_⟩
  · by_cases hc : c = b
    · subst hc
      simp only [Sys.countUp, Sys.setBuf_buf, Function.update_self, h.count, Refs.add]
      omega
    · simp [Sys.countUp, Refs.add, hc, h.count]
  · by_cases hc : c = b
    · subst hc; simpa [Refs.add] using hb
    · simpa [Refs.add, hc] using h.bound c

theorem down (h : Counted refs s) (hcount : (s.buf b).bCount ≠ 0) :
    Counted (refs.sub b) (s.countDown b) := by
  have hb := h.count b
  have hlt := h.bound b
  refine ⟨fun c => ?_, fun c => ?_⟩
  · by_cases hc : c = b
    · subst hc
      simp only [Sys.countDown, Sys.setBuf_buf, Function.update_self, h.count, Refs.sub]
      omega
    · simp [Sys.countDown, Refs.sub, hc, h.count]
  · by_cases hc : c = b
    · subst hc
      simp only [Refs.sub, Function.update_self]
      omega
    · simpa [Refs.sub, hc] using h.bound c

/-- Recycling takes a header that nobody holds. -/
theorem recycled (h : Counted refs s) (hrec : Recyclable env s dev block b)
    (hreuse : reuse b dev block env k s = .ok () s') :
    Counted (refs.add b) s' ∧ Kept refs s s' := by
  have hb : refs b = 0 := (h.count b).symm.trans hrec.count
  obtain ⟨-, hself, hother⟩ := reuse_spec hreuse
  have hcount : (s'.buf b).bCount = 1 := congrArg BufferCore.bCount hself
  refine ⟨⟨fun c => ?_, fun c => ?_⟩, fun c hc => ?_⟩
  · by_cases hc : c = b
    · subst hc; simp [Refs.add, hb, hcount]
    · rw [Refs.add, Function.update_of_ne hc, ← h.count c]
      exact congrArg BufferCore.bCount (hother c hc)
  · by_cases hc : c = b
    · subst hc; simp [Refs.add, hb]
    · simpa [Refs.add, hc] using h.bound c
  · have hne : c ≠ b := by
      rintro rfl
      omega
    exact ⟨congrArg BufferCore.bDev (hother c hne), congrArg BufferCore.bBlocknr (hother c hne)⟩

/-- A reference is handed out, unless that would be the 256th.  If the header was held
before, it was the header of the block. -/
theorem taken (h : Counted refs s) (ht : Taken env s dev block b s')
    (hroom : s.Keyed b dev block → refs b + 1 < 256) :
    Counted (refs.add b) s' ∧ Kept refs s s' ∧ (0 < refs b → s.Keyed b dev block) := by
  cases ht with
  | @found t hpath hfound heq =>
      subst heq
      have hkey : s.Keyed b dev block := by
        have hlinks := hpath.links b
        exact ⟨(congrArg BufferLinks.bDev hlinks).symm.trans hfound.key.1,
          (congrArg BufferLinks.bBlocknr hlinks).symm.trans hfound.key.2⟩
      exact ⟨(h.submits hpath).up (hroom hkey), (Kept.of_submits hpath).trans (.countUp t b),
        fun _ => hkey⟩
  | recycled hpath hrec hreuse =>
      obtain ⟨hcounted, hkept⟩ := (h.submits hpath).recycled hrec hreuse
      have hb : refs b = 0 := ((h.submits hpath).count b).symm.trans hrec.count
      exact ⟨hcounted, (Kept.of_submits hpath).trans hkept, fun hpos => absurd hb (by omega)⟩

/-- The end of a read gives the reference to the caller or puts it back. -/
theorem readDone (h : Counted (refs.add b) s) (hdone : ReadDone env s b found s') :
    Counted (refs.take found) s' ∧ Kept refs s s' := by
  cases hdone with
  | good _ _ => exact ⟨h, .refl _ _⟩
  | @bad t hpath hcount =>
      have hdown := (h.submits hpath).down hcount
      rw [Refs.sub_add] at hdown
      exact ⟨hdown, (Kept.of_submits hpath).trans (.countDown t b)⟩

/-- `invalidate_buff` of a block that nobody holds gives its reference back. -/
theorem invalidated (h : Counted refs s) (hinv : Invalidated env s dev block s')
    (hfree : ∀ b k, findBuff dev block env k s = .ok (some b) s → (s.buf b).bCount = 0) :
    Counted refs s' ∧ Kept refs s s' := by
  have hzero : ∀ {t : Sys n} {b : Fin n}, Submits env (.idle, s) (.idle, t) →
      Found env t dev block b → refs b = 0 := by
    intro t b hpath hfound
    obtain ⟨k, hhit⟩ := hfound.hit
    rw [← h.count b]
    refine hfree b k (findBuff_congr (fun c => (hpath.links c).symm) ?_ hhit)
    exact (congrArg Rest.hashTable hpath.rest).symm
  cases hinv with
  | missing hpath => exact ⟨h.submits hpath, .of_submits hpath⟩
  | @leaked t b hpath hfound hcount _ =>
      have ht : (t.buf b).bCount = 0 := ((h.submits hpath).count b).trans (hzero hpath hfound)
      exact absurd (by simp [Sys.countUp, ht]) hcount
  | @done t t' b hpath hfound _ hpath' hcount heq =>
      subst heq
      have hup := (h.submits hpath).up (b := b) (by rw [hzero hpath hfound]; decide)
      have hinv := hup.of_rest ((t.countUp b).invalidate_rest b)
      have hdown := (hinv.submits hpath').down hcount
      rw [Refs.sub_add] at hdown
      exact ⟨hdown, (((Kept.of_submits hpath).trans (.countUp t b)).trans
        (.of_rest ((t.countUp b).invalidate_rest b))).trans
        ((Kept.of_submits hpath').trans (.countDown t' b))⟩

/-- Taking many buffers, with room for as many references to a header as its block is
named. -/
theorem takenAll {blocks : List ℕ} {bufs : List (Option (Fin n))} (h : Counted refs s)
    (ht : TakenAll env dev blocks s bufs s') (hlen : blocks.length < 256)
    (hroom : ∀ b, (s.buf b).bDev = dev → (s.buf b).bBlocknr ≠ 0 →
      refs b + blocks.count (s.buf b).bBlocknr < 256) :
    Counted (refs.addAll bufs) s' ∧ Kept refs s s' := by
  induction ht generalizing refs with
  | nil => exact ⟨h, .refl _ _⟩
  | skip _ ih =>
      refine ih h (by simp at hlen; omega) fun b hdev hne => ?_
      have hb := hroom b hdev hne
      rwa [List.count_cons_of_ne (Ne.symm hne)] at hb
  | @take s t t' s' block b blocks bufs hne htaken hpath _ ih =>
      -- each block on the list takes at most one reference, and a header that is taken keeps it
      rw [List.length_cons] at hlen
      obtain ⟨hcounted, hkept, hkey⟩ := h.taken htaken fun hkey => by
        have hb := hroom b hkey.1 (by rw [hkey.2]; exact hne)
        rw [hkey.2, List.count_cons_self] at hb
        omega
      have hroom' : ∀ c, (t'.buf c).bDev = dev → (t'.buf c).bBlocknr ≠ 0 →
          refs.add b c + blocks.count (t'.buf c).bBlocknr < 256 := by
        intro c hdev hcne
        by_cases hc : 0 < refs c
        · -- held before: the header has kept its block
          obtain ⟨hdev', hnr'⟩ := (hkept.trans (Kept.of_submits hpath)) c hc
          rw [hnr'] at hcne ⊢
          have hb := hroom c (hdev'.symm.trans hdev) hcne
          rw [Refs.add_apply]
          split
          · rename_i hcb
            subst hcb
            rw [(hkey hc).2, List.count_cons_self] at hb
            rw [(hkey hc).2]
            omega
          · have := (List.sublist_cons_self block blocks).count_le (s.buf c).bBlocknr
            omega
        · -- not held before: its references are those of this call, one a block at most
          have hle := List.count_le_length (a := (t'.buf c).bBlocknr) (l := blocks)
          rw [Refs.add_apply]
          split <;> omega
      obtain ⟨hall, hkept'⟩ := ih (hcounted.submits hpath) (by omega) hroom'
      exact ⟨hall, (hkept.trans (Kept.of_submits hpath)).trans (hkept'.mono (refs.le_add b))⟩

theorem putAll {bufs : List (Option (Fin n))} (h : Counted (refs.addAll bufs) s)
    (hput : PutAll env bufs s s') : Counted refs s' ∧ Kept refs s s' := by
  induction hput with
  | nil => exact ⟨h, .refl _ _⟩
  | skip _ ih => exact ih h
  | @put s t t' s' b bufs mem hpath hpath' hcount _ ih =>
      have ht : Counted (refs.addAll (some b :: bufs)) { t with mem } :=
        ⟨(h.submits hpath).count, h.bound⟩
      have hdown := (ht.submits hpath').down hcount
      rw [Refs.addAll_sub] at hdown
      obtain ⟨hall, hkept⟩ := ih hdown
      have hmem : Kept refs t { t with mem } := fun _ _ => ⟨rfl, rfl⟩
      exact ⟨hall, ((((Kept.of_submits hpath).trans hmem).trans (.of_submits hpath')).trans
        (.countDown t' b)).trans hkept⟩

/-- Reading ahead gives every reference back. -/
theorem ahead {blocks : List ℕ} (h : Counted refs s) (ha : Ahead env dev blocks s s')
    (hroom : ∀ b, (s.buf b).bDev = dev → (s.buf b).bBlocknr ∈ blocks → refs b + 1 < 256) :
    Counted refs s' ∧ Kept refs s s' := by
  induction ha with
  | nil => exact ⟨h, .refl _ _⟩
  | @take s t t' s' block b blocks htaken hpath _ ih =>
      obtain ⟨hcounted, hkept, -⟩ := h.taken htaken fun hkey =>
        hroom b hkey.1 (by rw [hkey.2]; exact List.mem_cons_self ..)
      have ht' := hcounted.submits hpath
      have hdown := ht'.down (b := b) (by rw [ht'.count b]; simp [Refs.add])
      rw [Refs.sub_add] at hdown
      have hkept' : Kept refs s (t'.countDown b) :=
        (hkept.trans (Kept.of_submits hpath)).trans (.countDown t' b)
      obtain ⟨hall, hkept''⟩ := ih hdown fun c hdev hmem => by
        by_cases hc : 0 < refs c
        · obtain ⟨hdev', hnr'⟩ := hkept' c hc
          rw [hdev'] at hdev
          rw [hnr'] at hmem
          exact hroom c hdev (List.mem_cons_of_mem _ hmem)
        · omega
      exact ⟨hall, hkept'.trans hkept''⟩

/-- `create_block` insists on the only reference to the buffer, and gives it back. -/
theorem created (h : Counted refs s) (hcreate : createBlock dev env k s = .ok block s') :
    Counted refs s' ∧ Kept refs s s' := by
  obtain ⟨t, t₁, b, t₂, t₃, hpath, hmarked, htaken, hone, hpath', hcount, rfl⟩ :=
    createBlock_created hcreate
  have hmark : t₁.rest = t.rest := by
    cases hmarked with
    | full => rfl
    | bit _ => exact store_rest _ _ t
  have h₁ : Counted refs t₁ := (h.submits hpath).of_rest hmark
  obtain ⟨h₂, hkept, -⟩ := h₁.taken htaken fun _ => by
    cases htaken with
    | @found u hpath'' _ heq =>
        have hb : (u.buf b).bCount = refs b := (h₁.submits hpath'').count b
        have hlt := h.bound b
        rw [heq] at hone
        simp only [Sys.countUp, Sys.setBuf_buf, Function.update_self, hb] at hone
        omega
    | recycled hpath'' hrec _ =>
        have hb : (refs b) = 0 := ((h₁.submits hpath'').count b).symm.trans hrec.count
        omega
  have h₃ := ((h₂.of_rest (t₂.zero_rest b)).submits hpath').down hcount
  rw [Refs.sub_add] at h₃
  exact ⟨h₃, (((Kept.of_submits hpath).trans (.of_rest hmark)).trans hkept).trans
    ((Kept.of_rest (t₂.zero_rest b)).trans ((Kept.of_submits hpath').trans (.countDown t₃ b)))⟩

end Counted

/-! ## Runs -/

/-- The call does not take a 256th reference to a header, and `invalidate_buff` does
not find a header that somebody holds. -/
def CacheCall.Room (env : Env n) (refs : Refs n) (s : Sys n) : CacheCall n → Prop
  | get dev block => ∀ b, s.Keyed b dev block → refs b + 1 < 256
  | read dev block => ∀ b, s.Keyed b dev block → refs b + 1 < 256
  | retain dev block => ∀ b, s.Keyed b dev block → refs b + 1 < 256
  | invalidate dev block =>
      ∀ b k, findBuff dev block env k s = .ok (some b) s → (s.buf b).bCount = 0
  | page _ dev blocks => ∀ b, (s.buf b).bDev = dev → (s.buf b).bBlocknr ≠ 0 →
      refs b + (List.ofFn blocks).count (s.buf b).bBlocknr < 256
  | ahead dev first args => ∀ b, (s.buf b).bDev = dev → ∀ blocks, Listed args blocks →
      refs b + (if (s.buf b).bBlocknr = first then 1 else 0) +
        (if (s.buf b).bBlocknr ∈ blocks then 1 else 0) < 256
  | _ => True

/-- References are put back by those who hold them, and there is room for new ones. -/
def Frugal (env : Env n) (refs : Refs n) (s : Sys n) (c : CacheCall n) : Prop :=
  c.Held refs ∧ c.Room env refs s

theorem Counted.call {c : CacheCall n} (h : Counted refs s) (hlegal : Frugal env refs s c)
    (hexec : c.exec env k s = .ok found s') :
    Counted (c.account refs found) s' ∧ Kept refs s s' := by
  obtain ⟨hheld, hroom⟩ := hlegal
  -- each call comes apart into what it takes, what it gives back and steps of the driver
  cases c with
  | get dev block =>
      simp only [CacheCall.exec, bind_eq_ok, pure_run, Res.ok.injEq] at hexec
      obtain ⟨b, t, hget, rfl, rfl⟩ := hexec
      obtain ⟨hcounted, hkept, -⟩ := h.taken (getBuff_taken hget) (hroom b)
      exact ⟨hcounted, hkept⟩
  | read dev block =>
      obtain ⟨b, t, t', htaken, hpath, hdone⟩ := readBuff_taken hexec
      obtain ⟨hcounted, hkept, -⟩ := h.taken htaken (hroom b)
      obtain ⟨hdone, hkept'⟩ := (hcounted.submits hpath).readDone hdone
      exact ⟨hdone, (hkept.trans (Kept.of_submits hpath)).trans hkept'⟩
  | retain dev block =>
      have hretained := retainBuff_retained hexec
      cases found with
      | none => exact ⟨h.submits hretained, .of_submits hretained⟩
      | some b =>
          obtain ⟨hcounted, hkept, -⟩ := h.taken hretained.handed (hroom b)
          exact ⟨hcounted, hkept⟩
  | put b =>
      simp only [CacheCall.exec, bind_eq_ok, pure_run, Res.ok.injEq] at hexec
      obtain ⟨⟨⟩, t, hput, rfl, rfl⟩ := hexec
      obtain ⟨t', hpath, hcount, rfl⟩ := putBuff_eq_ok hput
      exact ⟨(h.submits hpath).down hcount, (Kept.of_submits hpath).trans (.countDown t' b)⟩
  | invalidate dev block =>
      simp only [CacheCall.exec, bind_eq_ok, pure_run, Res.ok.injEq] at hexec
      obtain ⟨⟨⟩, t, hinv, rfl, rfl⟩ := hexec
      exact h.invalidated (invalidateBuff_invalidated hinv) hroom
  | sync dev =>
      simp only [CacheCall.exec, bind_eq_ok, pure_run, Res.ok.injEq] at hexec
      obtain ⟨⟨⟩, t, hsync, rfl, rfl⟩ := hexec
      have hpath := syncDev_submits hsync
      exact ⟨h.submits hpath, .of_submits hpath⟩
  | page address dev blocks =>
      simp only [CacheCall.exec, bind_eq_ok, pure_run, Res.ok.injEq] at hexec
      obtain ⟨⟨⟩, t, hpage, rfl, rfl⟩ := hexec
      obtain ⟨bufs, t', htaken, hput⟩ := readBuffPage_taken hpage
      obtain ⟨hcounted, hkept⟩ := h.takenAll htaken (by simp) hroom
      obtain ⟨hdone, hkept'⟩ := hcounted.putAll hput
      exact ⟨hdone, hkept.trans hkept'⟩
  | ahead dev first args =>
      obtain ⟨b, blocks, t, t₁, t₂, t₃, htaken, hread, hlisted, hahead, hwait, hdone⟩ :=
        readBuffAhead_taken hexec
      obtain ⟨hcounted, hkept, hkey⟩ := h.taken htaken fun hkey => by
        have := hroom b hkey.1 blocks hlisted
        rw [if_pos hkey.2] at this
        omega
      have hkept₁ := hkept.trans (Kept.of_submits hread)
      obtain ⟨hcounted₂, hkept₂⟩ := (hcounted.submits hread).ahead hahead fun c hdev hmem => by
        rw [Refs.add_apply]
        -- a header that is held keeps its key, so it is one of those with room
        by_cases hc : 0 < refs c
        · obtain ⟨hdev', hnr'⟩ := hkept₁ c hc
          rw [hdev'] at hdev
          rw [hnr'] at hmem
          have hlt := hroom c hdev blocks hlisted
          rw [if_pos hmem] at hlt
          split
          · rename_i hcb
            subst hcb
            rw [if_pos (hkey hc).2] at hlt
            omega
          · omega
        · split <;> omega
      obtain ⟨hcounted₃, hkept₃⟩ := (hcounted₂.submits hwait).readDone hdone
      exact ⟨hcounted₃, ((hkept₁.trans (hkept₂.mono (refs.le_add b))).trans
        (Kept.of_submits hwait)).trans hkept₃⟩
  | store b data =>
      simp only [CacheCall.exec, update_bind, pure_run, Res.ok.injEq] at hexec
      obtain ⟨rfl, rfl⟩ := hexec
      exact ⟨h.of_rest (store_rest b data s), .of_rest (store_rest b data s)⟩
  | create dev =>
      simp only [CacheCall.exec, bind_eq_ok, pure_run, Res.ok.injEq] at hexec
      obtain ⟨block, t, hcreate, rfl, rfl⟩ := hexec
      exact h.created hcreate
  | idle =>
      simp only [CacheCall.exec, bind_eq_ok, pure_run, Res.ok.injEq] at hexec
      obtain ⟨⟨⟩, t, hidle, rfl, rfl⟩ := hexec
      have hpath : Submits env (.idle, s) (.idle, t) := idle_submits hidle
      exact ⟨h.submits hpath, .of_submits hpath⟩

/-- **Reference counts.**  As long as no header has 256 references at once and
`invalidate_buff` finds no header that somebody holds, `b_count` is the number of
references outstanding, and a header that somebody holds keeps its block. -/
theorem references_counted [NeZero n] (h : CacheReach env (Frugal env) s₀ refs s) :
    (∀ b, (s.buf b).bCount = refs b) ∧
    ∀ c found s' k, Frugal env refs s c → c.exec env k s = .ok found s' → Kept refs s s' := by
  have hcounted : Counted refs s := by
    induction h with
    | init => exact ⟨fun _ => rfl, fun _ => by decide⟩
    | call c _ hlegal hexec ih => exact (ih.call hlegal hexec).1
  exact ⟨hcounted.count, fun c found s' k hlegal hexec => (hcounted.call hlegal hexec).2⟩

theorem references_counted_get :
    ((CacheCall.after (.get 0x300 0) (Env.diligent 0x50) (initBuff oneHeader)).buf 0).bCount =
      1 := by
  have hrun : CacheReach (Env.diligent 0x50) (Frugal (Env.diligent 0x50)) oneHeader _ _ :=
    CacheReach.after (.get 0x300 0) .init ⟨trivial, fun b _ => by decide +revert⟩
      (show _ = some (some 0) from rfl)
  exact (references_counted hrun).1 0

/-- A block is taken and then invalidated: `invalidate_buff` returns with the reference
it took itself, and one holder makes a count of two. -/
theorem count_after_invalidate :
    ¬ ∀ (env : Env 1) (s₀ : Sys 1) (refs : Refs 1) (s : Sys 1),
      CacheReach env (fun refs _ c => c.Held refs) s₀ refs s → ∀ b, (s.buf b).bCount = refs b := by
  intro h
  have hget : CacheReach (Env.diligent 0x50) (fun refs _ c => c.Held refs) oneHeader _
      (CacheCall.after (.get 0x300 0) (Env.diligent 0x50) (initBuff oneHeader)) :=
    CacheReach.after (.get 0x300 0) .init trivial (show _ = some (some 0) from rfl)
  have hinvalidate := CacheReach.after (.invalidate 0x300 0) hget trivial
    (show _ = some none from rfl)
  have hcount := h _ _ _ _ hinvalidate 0
  exact absurd hcount (by decide)

end EgGS
