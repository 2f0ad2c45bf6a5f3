import EgGS.Cache.Ready

/-!
# Recycling a header

`get_buff` of a block that has no header recycles one.  The scan of the free list settles on
the first unreferenced header of the least badness; it is written back if it is dirty, and
when it is given to the block it is clean, unlocked and still unreferenced.  It becomes the
last header of the free list.

One round of `get_buff` is enough, as long as the block has a header or some header is
unreferenced.
-/

namespace EgGS

open Lib Prog Relation

variable {n : ℕ} {env : Env n} {k : ℕ} {s s' t : Sys n}
variable {b c : Fin n} {dev block : ℕ} {which : Rw → Prop}

/-! ## The first of the least -/

section
variable {α : Type} {p : α → Prop} {w : α → ℕ} {l : List α} {a d : α}

/-- Among the elements of the list with `p`, `a` is the first of the least weight. -/
structure FirstLeast (p : α → Prop) (w : α → ℕ) (l : List α) (a : α) : Prop where
  able : p a
  split : ∃ l₁ l₂, l = l₁ ++ a :: l₂ ∧ (∀ d ∈ l₁, p d → w a < w d) ∧ ∀ d ∈ l₂, p d → w a ≤ w d

theorem FirstLeast.le (h : FirstLeast p w l a) (hd : d ∈ l) (hp : p d) : w a ≤ w d := by
  obtain ⟨l₁, l₂, rfl, hbefore, hbehind⟩ := h.split
  rcases List.mem_append.mp hd with hd | hd
  · exact (hbefore d hd hp).le
  · rcases List.mem_cons.mp hd with rfl | hd
    · exact le_rfl
    · exact hbehind d hd hp

/-- An element behind the list does not matter if it is not better. -/
theorem FirstLeast.snoc (h : FirstLeast p w l a) (hd : p d → w a ≤ w d) :
    FirstLeast p w (l ++ [d]) a := by
  obtain ⟨l₁, l₂, rfl, hbefore, hbehind⟩ := h.split
  refine ⟨h.able, l₁, l₂ ++ [d], by simp, hbefore, fun e he => ?_⟩
  rcases List.mem_append.mp he with he | he
  · exact hbehind e he
  · exact List.mem_singleton.mp he ▸ hd

/-- The first of the least, if an element has `p`. -/
def Best (p : α → Prop) (w : α → ℕ) (l : List α) : Option α → Prop
  | none => ∀ d ∈ l, ¬ p d
  | some a => FirstLeast p w l a

/-- The element `a` has `p` and is better than the best one so far. -/
abbrev Better (p : α → Prop) (w : α → ℕ) (best : Option α) (a : α) : Prop :=
  p a ∧ best.all fun d => w a < w d

variable {best : Option α}

theorem Best.lt (h : Best p w l best) (hbetter : Better p w best a) :
    ∀ d ∈ l, p d → w a < w d := by
  intro d hd hp
  cases best with
  | none => exact absurd hp (h d hd)
  | some e =>
      have hlt : w a < w e := by simpa using hbetter.2
      exact hlt.trans_le (FirstLeast.le h hd hp)

theorem Best.step [DecidablePred p] (h : Best p w l best) (a : α) :
    Best p w (l ++ [a]) (if Better p w best a then some a else best) := by
  split
  · rename_i hbetter
    exact ⟨hbetter.1, l, [], rfl, h.lt hbetter, by simp⟩
  · rename_i hworse
    cases best with
    | none =>
        intro d hd
        rcases List.mem_append.mp hd with hd | hd
        · exact h d hd
        · intro hp
          exact hworse ⟨List.mem_singleton.mp hd ▸ hp, rfl⟩
    | some e =>
        refine FirstLeast.snoc h fun hp => ?_
        simpa [Better, hp] using hworse

/-- Nothing is better than the weight 0. -/
theorem Best.least (h : Best p w l best) (hbetter : Better p w best a) (hzero : w a = 0)
    (l₂ : List α) : Best p w (l ++ a :: l₂) (some a) :=
  ⟨hbetter.1, l, l₂, rfl, h.lt hbetter, fun _ _ _ => hzero.le.trans (Nat.zero_le _)⟩

end

/-! ## The scan of the free list -/

/-- One round of the scan of the free list. -/
def scanRound (x : Fin n × Option (Fin n)) : P n ((Fin n × Option (Fin n)) ⊕ Option (Fin n)) := do
  let s ← Prog.read
  let better := (s.buf x.1).bCount = 0 ∧
    x.2.all fun b => badness (s.buf x.1) < badness (s.buf b)
  if better ∧ badness (s.buf x.1) = 0 then
    pure (.inr (some x.1))
  else
    let best := if better then some x.1 else x.2
    match (s.buf x.1).bNextFree with
    | none => Prog.halt (.fault "NULL dereference")
    | some next =>
      if next = s.freeList then
        pure (.inr best)
      else
        pure (.inl (next, best))

theorem scanFree_rounds :
    (scanFree : P n (Option (Fin n))) =
      (Prog.read >>= fun s => Prog.iterate scanRound (s.freeList, none)) := rfl

/-- The header behind another one on the free list. -/
theorem FreeCircle.next {l₁ l₂ : List (Fin n)} (h : FreeCircle s (l₁ ++ b :: l₂)) :
    (s.buf b).bNextFree = some (l₂.head?.getD s.freeList) := by
  have hcircle : DCircle (fun b => (s.buf b).bNextFree) (fun b => (s.buf b).bPrevFree)
      (b :: (l₂ ++ l₁)) := h.ring.rotate
  by_cases hne : l₂ ++ l₁ = []
  · obtain ⟨rfl, rfl⟩ := List.append_eq_nil_iff.mp hne
    obtain ⟨q, p, hq, -, hend⟩ := h.ring
    have hhead : s.freeList = b := (Option.some.inj h.head).symm
    rw [hhead]
    exact hend.2.symm.trans hq
  · have hnext : (s.buf b).bNextFree = (l₂ ++ l₁).head? := hcircle.next_head hne
    cases l₂ with
    | cons c l₂ => exact hnext
    | nil =>
        cases l₁ with
        | nil => exact absurd rfl hne
        | cons c l₁ =>
            have hhead : s.freeList = c := (Option.some.inj h.head).symm
            rw [hnext, hhead]
            rfl

/-- A header is unreferenced. -/
abbrev Sys.Unused (s : Sys n) (b : Fin n) : Prop := (s.buf b).bCount = 0

/-- The best header among those of `l`. -/
abbrev Sys.Best (s : Sys n) (l : List (Fin n)) : Option (Fin n) → Prop :=
  EgGS.Best s.Unused (fun c => badness (s.buf c)) l

/-- **A round of the scan** returns the best header of the list, or goes on with the best one
so far. -/
theorem FreeCircle.scan {l : List (Fin n)} (h : FreeCircle s l) :
    ∀ (l₂ l₁ : List (Fin n)) (b : Fin n) (best : Option (Fin n)), l = l₁ ++ b :: l₂ →
      s.Best l₁ best →
      ∃ victim, LoopEnds scanRound env (b, best) s (.ok victim s) ∧ s.Best l victim := by
  intro l₂
  induction l₂ with
  | nil =>
      -- the last header of the list: the loop ends, whatever it found
      rintro l₁ b best rfl hbest
      have hnext := h.next
      by_cases hdone : Better s.Unused (fun c => badness (s.buf c)) best b ∧ badness (s.buf b) = 0
      · refine ⟨some b, .done (.of_eq fun k => ?_), hbest.least hdone.1 hdone.2 []⟩
        rw [scanRound, read_bind, ite_run, if_pos hdone]
        rfl
      · refine ⟨_, .done (.of_eq fun k => ?_), hbest.step b⟩
        rw [scanRound, read_bind, ite_run, if_neg hdone]
        dsimp only
        rw [hnext]
        simp [Better]
  | cons next l₂ ih =>
      rintro l₁ b best rfl hbest
      have hnext := h.next
      -- the list has not come round to its first header yet
      have hhead : next ≠ s.freeList := by
        rintro rfl
        have hnodup := h.nodup
        have hfirst := h.head
        cases l₁ with
        | nil =>
            obtain rfl : b = s.freeList := by simpa using hfirst
            simp at hnodup
        | cons c l₁ =>
            obtain rfl : c = s.freeList := by simpa using hfirst
            simp at hnodup
      by_cases hdone : Better s.Unused (fun c => badness (s.buf c)) best b ∧ badness (s.buf b) = 0
      · -- a header that is neither dirty nor locked ends the search at once
        refine ⟨some b, .done (.of_eq fun k => ?_), hbest.least hdone.1 hdone.2 _⟩
        rw [scanRound, read_bind, ite_run, if_pos hdone]
        rfl
      · obtain ⟨victim, hends, hvictim⟩ := ih (l₁ ++ [b]) next _ (by simp) (hbest.step b)
        refine ⟨victim, .step (.of_eq fun k => ?_) hends, hvictim⟩
        rw [scanRound, read_bind, ite_run, if_neg hdone]
        dsimp only
        rw [hnext]
        simp [hhead, Better]

/-- The header `b` is the first one in the order of the free list of the least badness among
the unreferenced ones. -/
def Sys.Victim (s : Sys n) (b : Fin n) : Prop :=
  ∃ l, FreeCircle s l ∧ (∀ c, c ∈ l) ∧
    FirstLeast s.Unused (fun c => badness (s.buf c)) l b

/-- The header `b` is the last one of the free list. -/
def Sys.LastFree (s : Sys n) (b : Fin n) : Prop :=
  ∃ l, FreeCircle s (l ++ [b]) ∧ ∀ c, c ∈ l ++ [b]

/-- **The scan of the free list** finds an unreferenced header if there is one. -/
theorem Links.scanFree (h : Links s) (hspare : ∃ c, (s.buf c).bCount = 0) :
    ∃ b, Evals scanFree env s (some b) s ∧ s.Victim b := by
  obtain ⟨l, hl, hall⟩ := h.free
  obtain ⟨c, hc⟩ := hspare
  obtain ⟨l₂, rfl⟩ : ∃ l₂, l = s.freeList :: l₂ := by
    cases l with
    | nil => exact absurd (hall c) (by simp)
    | cons b l₂ => exact ⟨l₂, by rw [Option.some.inj hl.head]⟩
  obtain ⟨victim, hends, hvictim⟩ :
      ∃ victim, LoopEnds scanRound env (s.freeList, none) s (.ok victim s) ∧
        s.Best (s.freeList :: l₂) victim :=
    hl.scan l₂ [] s.freeList none rfl (fun d hd => absurd hd (by simp))
  have heval : Evals EgGS.scanFree env s victim s := by
    rw [scanFree_rounds]
    exact Evals.bind (.of_eq fun _ => rfl) hends.evals
  cases victim with
  | none => exact absurd hc (hvictim c (hall c))
  | some b => exact ⟨b, heval, _, hl, hall, hvictim⟩

/-! ## `new_buff` and `get_buff` -/

/-- How a reference to the buffer of a block is obtained: its header is found, or the best
unreferenced one is recycled. -/
inductive Obtained (env : Env n) (s : Sys n) (dev block : ℕ) (b : Fin n) (s' : Sys n) : Prop
  | found {t : Sys n} : Submits env (.idle, s) (.idle, t) → Found env t dev block b →
      s' = t.countUp b → Obtained env s dev block b s'
  | recycled {t u : Sys n} {k : ℕ} : (∀ c, ¬ s.Keyed c dev block) →
      Submits env (.idle, s) (.idle, t) → Evals scanFree env t (some b) t → t.Victim b →
      Submits env (.idle, t) (.idle, u) → Recyclable env u dev block b →
      reuse b dev block env k u = .ok () s' → s'.LastFree b →
      Obtained env s dev block b s'

theorem Obtained.taken (h : Obtained env s dev block b s') : Taken env s dev block b s' := by
  cases h with
  | found hpath hfound heq => exact .found hpath hfound heq
  | recycled _ hpath _ _ hclean hrec hreuse _ => exact .recycled (hpath.trans hclean) hrec hreuse

/-- A header that was found has one more reference, and one that was recycled has one. -/
theorem Obtained.count (h : Obtained env s dev block b s') :
    s.Keyed b dev block ∧ (s'.buf b).bCount = ((s.buf b).bCount + 1) % 256 ∨
      (∀ c, ¬ s.Keyed c dev block) ∧ (s'.buf b).bCount = 1 := by
  cases h with
  | @found t hpath hfound heq =>
      have hcount : (t.buf b).bCount = (s.buf b).bCount :=
        congrArg BufferLinks.bCount (hpath.links b)
      refine .inl ⟨(Submits.keyed_iff hpath b).mp hfound.key, ?_⟩
      rw [heq, ← hcount]
      simp [Sys.countUp]
  | recycled hmissing _ _ _ _ _ hreuse _ =>
      obtain ⟨-, hself, -⟩ := reuse_spec hreuse
      exact .inr ⟨hmissing, congrArg BufferCore.bCount hself⟩

/-- One round of `get_buff`: one look for the header, and one attempt to recycle one. -/
def getRound (dev block : ℕ) : P n (Unit ⊕ Fin n) := do
  let found ← retainBuff dev block
  match found with
  | some b => pure (.inr b)
  | none => do
    let made ← newBuff dev block
    match made with
    | some b => pure (.inr b)
    | none => pure (.inl ())

namespace Ready

section
variable (henv : env.Works which)
include henv

/-- **`new_buff`** recycles the victim of the scan for a block that has no header. -/
theorem newBuff (h : Ready which s) (hdev : dev ≠ 0) (hshort : dev < 65536)
    (hspare : ∃ c, (s.buf c).bCount = 0) (hmissing : ∀ c, ¬ s.Keyed c dev block) :
    Does (newBuff dev block) env s fun made s' => ∃ b, made = some b ∧
      Obtained env s dev block b s' := by
  refine (h.poll henv).bind fun _ t hpath => ?_
  have ht := h.submits henv hpath
  obtain ⟨c, hc⟩ := hspare
  obtain ⟨b, hscan, hvictim⟩ : ∃ b, Evals EgGS.scanFree env t (some b) t ∧ t.Victim b :=
    ht.links.scanFree ⟨c, (congrArg BufferLinks.bCount (Submits.links hpath c)).trans hc⟩
  have hcount : (t.buf b).bCount = 0 := by
    obtain ⟨_, _, _, hleast⟩ := hvictim
    exact hleast.able
  refine (hscan.does (Q := fun victim u => victim = some b ∧ t = u) ⟨rfl, rfl⟩).bind ?_
  rintro _ _ ⟨rfl, rfl⟩
  refine (ht.waitOnBuff henv b).bind fun _ u ⟨hwait, hlock⟩ => .bind_read ?_
  have hu := ht.submits henv hwait
  have hcount' : (u.buf b).bCount = 0 :=
    (congrArg BufferLinks.bCount (Submits.links hwait b)).trans hcount
  refine .ite (fun hne => absurd hcount' hne) fun _ => ?_
  refine (hu.cleanVictim henv hcount' hlock).bind ?_
  rintro _ v ⟨rfl, hclean, hcount'', hlock', hdirt⟩
  have hv := hu.submits henv hclean
  have hbehind : Submits env (.idle, t) (.idle, v) := hwait.trans hclean
  have hmissing' : ∀ c, ¬ v.Keyed c dev block := fun c hc =>
    hmissing c ((Submits.keyed_iff (hpath.trans hbehind) c).mp hc)
  refine .ite (fun _ => ?_) fun hfalse => absurd rfl hfalse
  refine ((findBuff_missing hv.links hdev hmissing').does
    (Q := fun found w => found = none ∧ v = w) ⟨rfl, rfl⟩).bind ?_
  rintro _ _ ⟨rfl, rfl⟩
  obtain ⟨w, hreuse, -⟩ := hv.links.reuse_links hshort (fun _ => hmissing') b
  have hreuse' : Evals (EgGS.reuse b dev block) env v () w := .of_eq fun k => hreuse env k
  refine (hreuse'.does (Q := fun _ w' => w = w') rfl).bind ?_
  rintro _ _ rfl
  have hrec : Recyclable env v dev block b := ⟨hcount'', hlock', hdirt, n + 1,
    (hv.links.findBuff_exact hdev (Nat.lt_succ_self n)).2 hmissing'⟩
  exact .pure ⟨b, rfl, .recycled hmissing hpath hscan hvictim hbehind hrec (hreuse env 0)
    (hv.links.reuse_tail (hreuse env 0))⟩

/-- **A round of `get_buff`** obtains the header of the block. -/
theorem getRound (h : Ready which s) (hdev : dev ≠ 0) (hshort : dev < 65536)
    (hspare : (∃ b, s.Keyed b dev block) ∨ ∃ c, (s.buf c).bCount = 0) :
    Does (getRound dev block) env s fun x s' => ∃ b, x = .inr b ∧
      Obtained env s dev block b s' := by
  refine (h.retainBuff henv hdev).bind ?_
  rintro (_ | b) t ⟨hretained, hnone⟩
  · have ht := h.submits henv hretained
    have hfree : ∃ c, (t.buf c).bCount = 0 := by
      obtain ⟨c, hc⟩ := hspare.resolve_left fun ⟨b, hb⟩ => hnone rfl b hb
      exact ⟨c, (congrArg BufferLinks.bCount (Submits.links hretained c)).trans hc⟩
    have hmissing : ∀ c, ¬ t.Keyed c dev block := fun c hc =>
      hnone rfl c ((Submits.keyed_iff hretained c).mp hc)
    refine (ht.newBuff henv hdev hshort hfree hmissing).bind ?_
    rintro _ u ⟨b, rfl, hobtained⟩
    refine .pure ⟨b, rfl, ?_⟩
    cases hobtained with
    | found hpath hfound heq => exact .found (hretained.trans hpath) hfound heq
    | recycled _ hpath hscan hvictim hbehind hrec hreuse hlast =>
        exact .recycled (hnone rfl) (hretained.trans hpath) hscan hvictim hbehind hrec hreuse hlast
  · obtain ⟨u, hpath, hfound, heq⟩ := hretained
    exact .pure ⟨b, rfl, .found hpath hfound heq⟩

/-- **`get_buff`** obtains the header of the block. -/
theorem getBuff (h : Ready which s) (hdev : dev ≠ 0) (hshort : dev < 65536)
    (hspare : (∃ b, s.Keyed b dev block) ∨ ∃ c, (s.buf c).bCount = 0) :
    Does (getBuff dev block) env s fun b s' => Obtained env s dev block b s' :=
  .iterate (h.getRound henv hdev hshort hspare)

end

end Ready

/-! ## Runs -/

/-- Contents are changed only in buffers of the hard disk. -/
def Owned (s : Sys n) : Change n → Prop
  | .store b => major (s.buf b).bDev = 3
  | .zero b => major (s.buf b).bDev = 3
  | .invalidate _ => True

/-- Device numbers fit into `b_dev`, and what is changed has a driver. -/
def Driven (env : Env n) (_ : Refs n) (s : Sys n) (c : CacheCall n) : Prop :=
  (∀ dev block, c.Asks env s dev block → dev < 65536) ∧ c.Changes env (c.Asks env s) Owned s

/-- No header gets another device, and one that becomes dirty is one of the hard disk. -/
theorem Ready.kept (h : Ready (fun _ => False) s) (ht : Touched s s')
    (hen : s'.hdEnabled = s.hdEnabled) (hlinks : Links s')
    (hdev : ∀ b, (s'.buf b).bDev = (s.buf b).bDev) (hcount : ∀ b, (s'.buf b).bCount < 256)
    (hdirt : ∀ b, (s'.buf b).bDirt = true → (s.buf b).bDirt = true ∨ major (s.buf b).bDev = 3) :
    Ready (fun _ => False) s' := by
  refine h.touched ht hen (fun _ _ hfalse => hfalse.elim) hlinks (fun b hb => ?_) hcount
  rw [hdev]
  exact (hdirt b hb).elim (h.dirty b) id

/-- A count is assigned. -/
theorem Ready.counted (h : Ready (fun _ => False) s) (b : Fin n) {count : ℕ}
    (hcount : count < 256) :
    Ready (fun _ => False) (s.setBuf b fun bh => { bh with bCount := count }) := by
  refine h.kept (.count s b _) rfl (h.links.congr (.setBuf fun _ => rfl)) (fun c => ?_)
    (fun c => ?_)
    fun c hd => .inl ?_
  · rw [Sys.setBuf_at (·.bDev), ite_self]
  · rw [Sys.setBuf_at (·.bCount)]
    split
    · exact hcount
    · exact h.count c
  · rwa [Sys.setBuf_at (·.bDirt), ite_self] at hd

/-- The contents of a buffer of the hard disk change. -/
theorem Ready.changed (h : Ready (fun _ => False) s) (hrest : s'.rest = s.rest) (ht : Touched s s')
    (hdirt : ∀ c, (s'.buf c).bDirt = true → (s.buf c).bDirt = true ∨ major (s.buf c).bDev = 3) :
    Ready (fun _ => False) s' := by
  refine h.kept ht (congrArg Rest.hdEnabled hrest) (h.links.congr (.of_rest hrest))
    (fun c => congrArg (fun r => (r.links c).bDev) hrest) (fun c => ?_) hdirt
  have hcount : (s'.buf c).bCount = (s.buf c).bCount := congrArg (fun r => (r.links c).bCount) hrest
  rw [hcount]
  exact h.count c

/-- **Every step** keeps the cache in order. -/
theorem Ready.step {asked : ℕ → ℕ → Prop} (henv : env.Works fun _ => False)
    (hasked : ∀ d r, asked d r → d < 65536) (h : Ready (fun _ => False) s)
    (hstep : CacheStep env asked Owned s s') : Ready (fun _ => False) s' := by
  have hlinks : Links s' := h.links.step hasked hstep
  have hmod : ∀ m : ℕ, m % 256 < 256 := fun m => Nat.mod_lt m (by decide)
  -- a header that is reused is clean, and only the buffer of an owner becomes dirty
  cases hstep with
  | block hpath => exact h.submits henv hpath
  | up b => exact h.counted b (hmod _)
  | down b => exact h.counted b (hmod _)
  | @reuse _ b dev block k hask hrec hreuse =>
      obtain ⟨hstate, hself, hother⟩ := reuse_spec hreuse
      refine h.touched (hrec.touched hreuse) (by rw [hstate]) (fun _ _ hfalse => hfalse.elim) hlinks
        (fun c hc => ?_) fun c => ?_
      · have hcb : c ≠ b := by
          rintro rfl
          have hclean : (s'.buf c).bDirt = false := congrArg BufferCore.bDirt hself
          exact absurd (hc.symm.trans hclean) (by decide)
        have hdev : (s'.buf c).bDev = (s.buf c).bDev := congrArg BufferCore.bDev (hother c hcb)
        have hdirt : (s'.buf c).bDirt = (s.buf c).bDirt := congrArg BufferCore.bDirt (hother c hcb)
        rw [hdev]
        exact h.dirty c (hdirt.symm.trans hc)
      · by_cases hcb : c = b
        · have hone : (s'.buf c).bCount = 1 := hcb ▸ congrArg BufferCore.bCount hself
          omega
        · have hsame : (s'.buf c).bCount = (s.buf c).bCount :=
            congrArg BufferCore.bCount (hother c hcb)
          exact hsame ▸ h.count c
  | copy mem =>
      exact h.kept ⟨rfl, rfl, rfl, rfl, rfl, rfl, fun _ => rfl, fun _ _ => .of_eq rfl, [], rfl, by
        simp⟩
        rfl hlinks (fun _ => rfl) h.count fun _ => .inl
  | @store b data hown =>
      refine h.changed (store_rest b data s) (.store s b data) fun c hd => ?_
      by_cases hcb : c = b
      · exact .inr (hcb ▸ hown)
      · exact .inl (by simpa [EgGS.store, hcb] using hd)
  | @zero b hown hlock =>
      refine h.changed (s.zero_rest b) (.zero hlock) fun c hd => ?_
      by_cases hcb : c = b
      · exact .inr (hcb ▸ hown)
      · exact .inl (by simpa [Sys.zero, hcb] using hd)
  | @invalidate b _ hlock =>
      refine h.changed (s.invalidate_rest b) (.invalidate hlock) fun c hd => .inl ?_
      by_cases hcb : c = b
      · simp [Sys.invalidate, hcb] at hd
      · simpa [Sys.invalidate, hcb] using hd

/-- A reference is taken. -/
theorem Ready.taken (henv : env.Works fun _ => False) (h : Ready (fun _ => False) s)
    (hshort : dev < 65536) (htaken : Taken env s dev block b s') : Ready (fun _ => False) s' := by
  have hpath : CacheSteps env (fun d _ => d < 65536) Owned s s' := htaken.steps hshort
  exact hpath.invariant (fun h hstep => h.step henv (fun _ _ => id) hstep) h

/-- Behind `init_request_queue` and `init_buff` the cache is in order. -/
theorem Ready.init [NeZero n] {s₀ : Sys n} (hquiet : s₀.Quiet) (hdrives : s₀.geo.Drives)
    (hen : s₀.hdEnabled = true) : Ready (fun _ => False) (initBuff (initRequestQueue s₀)) := by
  have hsecure := Secure.init hquiet
  have hnone : (initBuff (initRequestQueue s₀)).current = none := hquiet.current
  have hlog : (initBuff (initRequestQueue s₀)).log = [] := hquiet.log
  exact ⟨⟨hsecure.serving, ⟨by simp [hlog], fun _ _ _ hfalse => hfalse.elim⟩, hdrives, hen,
    fun _ _ hfalse => hfalse.elim, fun hcur => absurd hnone hcur⟩, .init _,
    fun b hb => absurd hb (by simp [initBuff]), fun b => Nat.zero_lt_succ _⟩

theorem Ready.reach [NeZero n] {s₀ : Sys n} {refs : Refs n} (hquiet : s₀.Quiet)
    (hdrives : s₀.geo.Drives) (hen : s₀.hdEnabled = true) (henv : env.Works fun _ => False)
    (h : CacheReach env (Driven env) (initRequestQueue s₀) refs s) : Ready (fun _ => False) s := by
  induction h with
  | init => exact .init hquiet hdrives hen
  | call c _ hlegal hexec ih =>
      refine (c.steps (fun _ _ => id) hlegal.2 hexec).invariant (I := Ready fun _ => False)
        (fun h hstep => h.step henv hlegal.1 hstep) ih

/-- **`get_buff` end to end.**  In every state of a run, if the block has a header or some header
is unreferenced, the first round of `get_buff` returns the header of the block.  Either it was
there and has one more reference, counted by an `unsigned char`, or it was recycled: it was the
victim of the scan, clean and unlocked when it was given to the block, and is now the last of
the free list with one reference. -/
theorem get_buff_ends [NeZero n] {s₀ : Sys n} {refs : Refs n} (hquiet : s₀.Quiet)
    (hdrives : s₀.geo.Drives) (hen : s₀.hdEnabled = true) (henv : env.Works fun _ => False)
    (h : CacheReach env (Driven env) (initRequestQueue s₀) refs s) (hdev : dev ≠ 0)
    (hshort : dev < 65536) (hspare : (∃ b, s.Keyed b dev block) ∨ ∃ c, (s.buf c).bCount = 0) :
    ∃ b s', Evals (getRound dev block) env s (.inr b) s' ∧ Evals (getBuff dev block) env s b s' ∧
      s'.Keyed b dev block ∧
      (s.Keyed b dev block ∧ (s'.buf b).bCount = ((s.buf b).bCount + 1) % 256 ∨
        (∀ c, ¬ s.Keyed c dev block) ∧ (s'.buf b).bCount = 1 ∧
          ∃ t u k, Submits env (.idle, s) (.idle, t) ∧ Evals scanFree env t (some b) t ∧
          t.Victim b ∧
            Submits env (.idle, t) (.idle, u) ∧ (u.buf b).bDirt = false ∧ (u.buf b).bLock = false ∧
            reuse b dev block env k u = .ok () s' ∧ s'.LastFree b) := by
  have hready := Ready.reach hquiet hdrives hen henv h
  obtain ⟨x, s', hround, b, rfl, hobtained⟩ := hready.getRound henv hdev hshort hspare
  refine ⟨b, s', hround, (LoopEnds.done hround).evals, hobtained.taken.keyed hshort, ?_⟩
  refine hobtained.count.imp id fun ⟨hmissing, hcount⟩ => ⟨hmissing, hcount, ?_⟩
  cases hobtained with
  | found hpath hfound _ => exact absurd ((Submits.keyed_iff hpath b).mp hfound.key) (hmissing b)
  | @recycled t u k _ hpath hscan hvictim hclean hrec hreuse hlast =>
      exact ⟨t, u, k, hpath, hscan, hvictim, hclean, hrec.dirt, hrec.lock, hreuse, hlast⟩

/-- A controller that always answers serves every request. -/
theorem diligent_works (status : UInt8) : (Env.diligent status : Env n).Works fun _ => False :=
  ⟨diligent_answers status,
    ⟨fun _ _ _ _ _ _ hfalse => hfalse.elim, fun _ _ _ _ hfalse => hfalse.elim⟩, fun _ => rfl,
    fun s hout => ⟨0, by simp [Env.diligent, hout], Nat.one_pos⟩⟩

theorem smallDrive_drives : smallDrive.Drives :=
  ⟨by decide, fun _ _ => by simp [smallDrive], fun _ _ => by simp [smallDrive]⟩

theorem oneHeader_quiet : Sys.Quiet { (Sys.load fun _ _ _ => 7 : Sys 1) with
    geo := smallDrive, hdEnabled := true } := ⟨rfl, fun _ => rfl, rfl, rfl⟩

theorem twoHeaders_quiet : twoHeaders.Quiet := ⟨rfl, fun _ => rfl, rfl, rfl⟩

/-- Block 5 has the first header. -/
def blockFive : Sys 2 :=
  CacheCall.after (.get 0x300 5) (Env.diligent 0x51) (initBuff (initRequestQueue twoHeaders))

/-- Block 6 gets the second one, which goes to the end of the free list. -/
theorem get_buff_ends_first : ∃ b s', Evals (getBuff 0x300 6) (Env.diligent 0x51) blockFive b s' ∧
    s'.Keyed b 0x300 6 ∧ (s'.buf b).bCount = 1 ∧ s'.LastFree b := by
  have hget : Driven (Env.diligent 0x51) (fun _ => 0) (initBuff (initRequestQueue twoHeaders))
      (.get 0x300 5) := by
    refine ⟨?_, trivial⟩
    rintro dev block ⟨rfl, -⟩
    decide
  have hreach : CacheReach (Env.diligent 0x51) (Driven (Env.diligent 0x51))
      (initRequestQueue twoHeaders) _ blockFive :=
    .after (.get 0x300 5) .init hget (show _ = some (some 0) from rfl)
  have hnone : ∀ b, ¬ blockFive.Keyed b 0x300 6 := by
    unfold Sys.Keyed
    decide +kernel
  have hspare : (∃ b, blockFive.Keyed b 0x300 6) ∨ ∃ c, (blockFive.buf c).bCount = 0 :=
    .inr ⟨1, by decide +kernel⟩
  obtain ⟨b, s', -, heval, hkeyed, hfound | ⟨-, hcount, t, u, k, -, -, -, -, -, -, -, hlast⟩⟩ :=
    get_buff_ends twoHeaders_quiet smallDrive_drives rfl (diligent_works 0x51) hreach (by decide)
      (by decide) hspare
  · exact absurd hfound.1 (hnone b)
  · exact ⟨b, s', heval, hkeyed, hcount, hlast⟩

/-- A run that takes `j` references to one block, and one more. -/
theorem taken_often (status : UInt8) (block : ℕ) : ∀ j < 256, ∃ (refs : Refs 1) (s s' : Sys 1),
    CacheReach (Env.diligent status) (Driven (Env.diligent status)) oneHeader refs s ∧
      (s.buf 0).bCount = j ∧ (j ≠ 0 → s.Keyed 0 0x300 block) ∧
      Evals (getBuff 0x300 block) (Env.diligent status) s 0 s' ∧ s'.Keyed 0 0x300 block ∧
      (s'.buf 0).bCount = (j + 1) % 256 := by
  have hlegal : ∀ (refs : Refs 1) s, Driven (Env.diligent status) refs s (.get 0x300 block) := by
    refine fun refs s => ⟨?_, trivial⟩
    rintro _ _ ⟨rfl, rfl⟩
    decide
  -- one more reference to the only header
  have hmore : ∀ {refs : Refs 1} {s : Sys 1},
      CacheReach (Env.diligent status) (Driven (Env.diligent status)) oneHeader refs s →
      (s.Keyed 0 0x300 block ∨ (s.buf 0).bCount = 0) →
      ∃ s', Evals (getBuff 0x300 block) (Env.diligent status) s 0 s' ∧ s'.Keyed 0 0x300 block ∧
        (s'.buf 0).bCount = ((s.buf 0).bCount + 1) % 256 := by
    intro refs s h hspare
    have hready := Ready.reach oneHeader_quiet smallDrive_drives rfl (diligent_works status) h
    obtain ⟨b, s', heval, hobtained⟩ := hready.getBuff (diligent_works status)
      (show 0x300 ≠ 0 by decide) (by decide) (hspare.imp (⟨0, ·⟩) (⟨0, ·⟩))
    obtain rfl : b = 0 := Subsingleton.elim _ _
    refine ⟨s', heval, hobtained.taken.keyed (by decide), ?_⟩
    rcases hobtained.count with ⟨-, hcount⟩ | ⟨hmissing, hcount⟩
    · exact hcount
    · rw [hcount, hspare.resolve_left (hmissing 0)]
  intro j
  induction j with
  | zero =>
      intro _
      obtain ⟨s', heval, hkey, hcount⟩ := hmore .init (.inr rfl)
      exact ⟨_, _, s', .init, rfl, fun h => absurd rfl h, heval, hkey, hcount⟩
  | succ j ih =>
      intro hj
      obtain ⟨refs, s, t, hreach, -, -, heval, hkey, hcount⟩ := ih (by omega)
      obtain ⟨k, hk⟩ := heval.exists_run
      have hexec : (CacheCall.get 0x300 block).exec (Env.diligent status) k s = .ok (some 0) t := by
        simp only [CacheCall.exec, bind_run, hk, pure_run]
      have hreach' := CacheReach.call _ hreach (hlegal _ _) hexec
      obtain ⟨s', heval', hkey', hcount'⟩ := hmore hreach' (.inl hkey)
      have hj' : (t.buf 0).bCount = j + 1 := by omega
      exact ⟨_, t, s', hreach', hj', fun _ => hkey, heval', hkey', hj' ▸ hcount'⟩

/-- The 256th reference to a header makes `b_count` 0, so it counts as unreferenced. -/
theorem get_buff_wraps : ∃ (refs : Refs 1) (s s' : Sys 1),
    CacheReach (Env.diligent 0x50) (Driven (Env.diligent 0x50)) oneHeader refs s ∧
      s.Keyed 0 0x300 0 ∧ (s.buf 0).bCount = 255 ∧
      Evals (getBuff 0x300 0) (Env.diligent 0x50) s 0 s' ∧
      ¬ ((s'.buf 0).bCount = (s.buf 0).bCount + 1 ∨ (s'.buf 0).bCount = 1) := by
  obtain ⟨refs, s, s', hreach, hfull, hkeyed, heval, -, hcount⟩ :=
    taken_often 0x50 0 255 (by decide)
  exact ⟨refs, s, s', hreach, hkeyed (by decide), hfull, heval, by omega⟩

end EgGS
