import EgGS.Fs.Identity
import EgGS.Fs.Table
import EgGS.Lib.WriteBack

/-!
# The cache of inodes

The entries of `inode_list` cache the inodes of a device, and the inode table has the others.  An
entry that nobody holds is written back when it is dirty, and given to another inode.

`InodeTable` is the invariant of the whole table: the entries, as records with a key, and the inode
table of the device are a write-back cache of the inodes `V`.  `newInode` picks an entry and cleans
it, `readMade` gives it to an inode, `readInode` and `putInode` count references, `change` is the
holder's assignment and `syncAllInodesToBuff` writes back; `InodeRun.table` puts them together, and
`inode_cache_refines_map` reads the map off.
-/

namespace EgGS

open Lib Prog

variable {n : ℕ} {env : Env n} {k : ℕ} {s s₀ t u : Sys n} {dev nr : ℕ} {sb : Fin nrSuper}
variable {which : Rw → Prop} {used : ℕ × ℕ → Prop} {M M₁ M₂ : Contents} {refs : Refs n}
variable {i j : Fin nrInode} {V : ℕ → DInode}

/-! ## Taking an entry -/

/-- The entry that the round robin comes to after `m` steps. -/
def roundRobin (a : Fin nrInode) (m : ℕ) : Fin nrInode :=
    ⟨(a.val + m) % nrInode, Nat.mod_lt _ (by decide)⟩

theorem roundRobin_succ (a : Fin nrInode) (m : ℕ) : roundRobin a m + 1 = roundRobin a (m + 1) := by
  refine Fin.ext ?_
  show ((a.val + m) % 32 + 1) % 32 = (a.val + (m + 1)) % 32
  omega

/-- The round robin comes to every entry. -/
theorem roundRobin_all (a j : Fin nrInode) : ∃ m, 1 ≤ m ∧ m ≤ nrInode ∧ roundRobin a m = j := by
  have ha := a.isLt
  have hj := j.isLt
  unfold nrInode at ha hj
  by_cases hlt : a.val < j.val
  · refine ⟨j.val - a.val, by omega, by unfold nrInode; omega, Fin.ext ?_⟩
    show (a.val + (j.val - a.val)) % 32 = j.val
    omega
  · refine ⟨j.val + 32 - a.val, by omega, by unfold nrInode; omega, Fin.ext ?_⟩
    show (a.val + (j.val + 32 - a.val)) % 32 = j.val
    omega

/-- One round of the round robin. -/
def pickRound (i : ℕ) (best : Option (Fin nrInode)) :
    P n ((ℕ × Option (Fin nrInode)) ⊕ Option (Fin nrInode)) := do
  if i < nrInode then do
    Prog.update fun s => { s with lastInode := s.lastInode + 1 }
    let s ← Prog.read
    let last := s.inode s.lastInode
    if last.iCount = 0 ∧ best.all fun b => inodeBadness last < inodeBadness (s.inode b) then
      if inodeBadness last = 0 then
        pure (.inr (some s.lastInode))
      else
        pure (.inl (i + 1, some s.lastInode))
    else
      pure (.inl (i + 1, best))
  else
    pure (.inr best)

theorem pickInode_rounds : (pickInode : P n _) = Prog.iterate (fun x => pickRound x.1 x.2)
    (0, none) := rfl

/-- The state when the round robin has come to the entry `last`. -/
def Sys.withLast (s : Sys n) (last : Fin nrInode) : Sys n := { s with lastInode := last }

/-- A round that has not seen an entry that nobody holds has seen none so far. -/
def Unseen (s : Sys n) (i : ℕ) (best : Option (Fin nrInode)) : Prop :=
  (∀ b ∈ best, (s.inode b).iCount = 0) ∧
    (best = none → ∀ m, 1 ≤ m → m ≤ i → (s.inode (roundRobin s.lastInode m)).iCount ≠ 0)

variable (env) in
/-- The loop ends with an entry that nobody holds, if there is one. -/
theorem pickRound_ends (hfree : ∃ i, (s.inode i).iCount = 0) (m : ℕ) : ∀ i best, i + m = nrInode →
    Unseen s i best →
    LoopDoes (fun x => pickRound x.1 x.2) env (i, best) (s.withLast (roundRobin s.lastInode i))
      fun found t => ∃ i last, found = some i ∧ (s.inode i).iCount = 0 ∧ t = s.withLast last := by
  -- on the entries that are left; `best` is the best free one of those that were seen
  induction m with
  | zero =>
      rintro i best hi ⟨hbest, hnone⟩
      refine .done (.ite (fun hlt => absurd hlt (by dsimp only; omega)) fun _ => .pure
        ⟨best, rfl, ?_⟩)
      cases best with
      | none =>
          obtain ⟨j, hj⟩ := hfree
          obtain ⟨m, hpos, hle, rfl⟩ := roundRobin_all s.lastInode j
          exact absurd hj (hnone rfl m hpos (by omega))
      | some b => exact ⟨b, _, rfl, hbest b rfl, rfl⟩
  | succ m ih =>
      rintro i best hi ⟨hbest, hnone⟩
      have hlt : i < nrInode := by omega
      have hnext : ({ s.withLast (roundRobin s.lastInode i) with
          lastInode := (s.withLast (roundRobin s.lastInode i)).lastInode + 1 } : Sys n) =
          s.withLast (roundRobin s.lastInode (i + 1)) := by
        unfold Sys.withLast
        rw [roundRobin_succ]
      set j := roundRobin s.lastInode (i + 1) with hj
      by_cases hcount : (s.inode j).iCount = 0 ∧
          best.all fun b => inodeBadness (s.inode j) < inodeBadness (s.inode b)
      · -- a free entry that is clean and unlocked ends the search
        by_cases hbad : inodeBadness (s.inode j) = 0
        · refine .done (.ite (fun _ => .bind_update ?_) fun hge => absurd hlt hge)
          rw [hnext]
          refine .bind_read (.ite (fun _ => .ite (fun _ => ?_) fun h => absurd hbad h) fun h =>
            absurd hcount h)
          exact .pure ⟨_, rfl, j, j, rfl, hcount.1, rfl⟩
        · refine .step (.ite (fun _ => .bind_update ?_) fun hge => absurd hlt hge)
          rw [hnext]
          refine .bind_read (.ite (fun _ => .ite (fun h => absurd h hbad) fun _ => ?_) fun h =>
            absurd hcount h)
          refine .pure ⟨_, rfl, ih (i + 1) (some j) (by omega) ⟨?_, fun h => by cases h⟩⟩
          rintro b hb
          obtain rfl : j = b := by simpa using hb
          exact hcount.1
      · refine .step (.ite (fun _ => .bind_update ?_) fun hge => absurd hlt hge)
        rw [hnext]
        refine .bind_read (.ite (fun h => absurd h hcount) fun _ => ?_)
        refine .pure ⟨_, rfl, ih (i + 1) best (by omega) ⟨hbest, fun hbest' m' hpos hle => ?_⟩⟩
        rcases Nat.lt_succ_iff_lt_or_eq.mp (Nat.lt_succ_of_le hle) with hlt' | rfl
        · exact hnone hbest' m' hpos (by omega)
        · exact fun h0 => hcount ⟨h0, by simp [hbest']⟩

/-- **`new_inode`** settles on an entry that nobody holds, if there is one. -/
theorem pickInode_does (hfree : ∃ i, (s.inode i).iCount = 0) : Does pickInode env s fun found t =>
    ∃ i last, found = some i ∧ (s.inode i).iCount = 0 ∧ t = s.withLast last := by
  have hstart : s.withLast (roundRobin s.lastInode 0) = s := by
    have hzero : roundRobin s.lastInode 0 = s.lastInode :=
      Fin.ext (Nat.mod_eq_of_lt s.lastInode.isLt)
    unfold Sys.withLast
    rw [hzero]
  have hends := pickRound_ends env hfree nrInode 0 none (by omega)
    ⟨fun b hb => absurd hb (by simp), fun _ m hpos hle => by omega⟩
  rw [hstart] at hends
  rw [pickInode_rounds]
  exact hends.does

/-! ## Entries and records -/

/-- An entry of `inode_list` as an entry of the cache of the inodes of `dev`. -/
def MInode.entry (x : MInode) (dev : ℕ) : Entry ℕ DInode where
  key := if x.iDev = dev then some x.iNum else none
  value := x.toDInode
  dirty := x.iDirt

theorem MInode.mem_key {x : MInode} : nr ∈ (x.entry dev).key ↔ x.Is dev nr := by
  unfold MInode.entry MInode.Is
  split <;> simp [*]

/-- The cache of the inodes of `dev`. -/
def Sys.entries (s : Sys n) (dev : ℕ) (i : Fin nrInode) : Entry ℕ DInode := (s.inode i).entry dev

theorem Sys.entries_setInode (s : Sys n) (i : Fin nrInode) (f : MInode → MInode) (dev : ℕ) :
    (s.setInode i f).entries dev =
    Function.update (s.entries dev) i ((f (s.inode i)).entry dev) := by
  funext j
  by_cases hj : j = i
  · subst hj
    simp [Sys.entries]
  · simp [Sys.entries, Sys.setInode, hj]

/-- The numbers of the inodes of a device. -/
def SuperBlock.numbers (p : SuperBlock n) : Set ℕ := {nr | 1 ≤ nr ∧ nr ≤ p.sNinodes}

/-- What a call of `inode.c` leaves alone besides the entries: the super blocks, and the headers
that somebody holds. -/
structure Apart (refs : Refs n) (s t : Sys n) : Prop where
  superBlock : t.superBlock = s.superBlock
  geo : t.geo = s.geo
  key : ∀ b, 0 < refs b → t.key b = s.key b
  uptodate : ∀ b, 0 < refs b → (s.buf b).bUptodate = true → (t.buf b).bUptodate = true

namespace Apart

theorem refl (refs : Refs n) (s : Sys n) : Apart refs s s :=
    ⟨rfl, rfl, fun _ _ => rfl, fun _ _ => id⟩

theorem trans (h : Apart refs s t) (h' : Apart refs t u) : Apart refs s u where
  superBlock := h'.superBlock.trans h.superBlock
  geo := h'.geo.trans h.geo
  key b hb := (h'.key b hb).trans (h.key b hb)
  uptodate b hb := h'.uptodate b hb ∘ h.uptodate b hb

theorem of_beside (h : Beside refs s t) : Apart refs s t := ⟨h.superBlock, h.geo, h.key, h.uptodate⟩

/-- Besides the entries nothing has changed. -/
theorem beside (h : Apart refs s t) :
    Beside refs { s with inode := t.inode, lastInode := t.lastInode } t where
  inode := rfl
  lastInode := rfl
  superBlock := h.superBlock
  geo := h.geo
  key := h.key
  uptodate := h.uptodate

end Apart

/-- Of the contents only the inode table may have changed. -/
def SuperBlock.TableOnly (p : SuperBlock n) (dev : ℕ) (M M₁ : Contents) : Prop :=
  ∀ x, ¬ (x.1 = dev ∧ p.TableBlock x.2) → M₁ x = M x

/-- The entries of `inode_list` cache the inodes `V` of a mounted device.  Nothing is mounted over,
no entry is locked, an entry that is dirty has links, and the blocks of the inode table can be
read. -/
structure InodeTable (which : Rw → Prop) (used : ℕ × ℕ → Prop) (M : Contents) (refs : Refs n)
    (s : Sys n) (dev : ℕ) (sb : Fin nrSuper) (V : ℕ → DInode) : Prop where
  mapped : Mapped which used (fun _ => False) M refs s
  mounted : Mounted s dev sb
  short : (s.superBlock sb).sNinodes < 65536
  flat : s.Flat
  unlocked : ∀ i, (s.inode i).iLock = false
  counts : ∀ i, (s.inode i).iCount < 65536
  foreign : ∀ i, (s.inode i).iDev ≠ dev → (s.inode i).iDirt = false
  linked : ∀ i, (s.inode i).iDirt = true → (s.inode i).iNlinks ≠ 0
  cached : WriteBack (s.superBlock sb).numbers (s.entries dev) ((s.superBlock sb).inodeAt dev M) V
  readable : ∀ nr ∈ (s.superBlock sb).numbers,
    s.Readable used (fun _ => False) refs dev ((s.superBlock sb).inodeBlock nr)

/-- From `s` to `t` the inodes have stayed, and of the contents only the inode table may have
changed. -/
structure TableStep (which : Rw → Prop) (used : ℕ × ℕ → Prop) (M : Contents) (refs : Refs n)
    (s : Sys n) (dev : ℕ) (sb : Fin nrSuper) (V : ℕ → DInode) (M₁ : Contents) (t : Sys n) :
    Prop where
  table : InodeTable which used M₁ refs t dev sb V
  apart : Apart refs s t
  outside : (s.superBlock sb).TableOnly dev M M₁

theorem TableStep.trans (h : TableStep which used M refs s dev sb V M₁ t)
    (h' : TableStep which used M₁ refs t dev sb V M₂ u) :
    TableStep which used M refs s dev sb V M₂ u where
  table := h'.table
  apart := h.apart.trans h'.apart
  outside x hx := by
    have houtside := h'.outside
    rw [h.apart.superBlock] at houtside
    exact (houtside x hx).trans (h.outside x hx)

namespace InodeTable

/-- No inode is in memory. -/
theorem init (hmapped : Mapped which used (fun _ => False) M refs s) (hm : Mounted s dev sb)
    (hshort : (s.superBlock sb).sNinodes < 65536) (hzero : ∀ i, s.inode i = MInode.zero)
    (hread : ∀ nr ∈ (s.superBlock sb).numbers,
      s.Readable used (fun _ => False) refs dev ((s.superBlock sb).inodeBlock nr)) :
    InodeTable which used M refs s dev sb ((s.superBlock sb).inodeAt dev M) := by
  have hnone (i : Fin nrInode) (nr : ℕ) : nr ∉ (s.entries dev i).key := fun hin => by
    have his := (MInode.mem_key.mp hin).1
    rw [hzero i] at his
    exact hm.device his.symm
  have hfield (P : MInode → Prop) (h : P MInode.zero) (i : Fin nrInode) : P (s.inode i) := by
    rw [hzero i]
    exact h
  exact
    { mapped := hmapped
      mounted := hm
      short := hshort
      flat := hfield (·.iMount = false) rfl
      unlocked := hfield (·.iLock = false) rfl
      counts := hfield (·.iCount < 65536) (by decide)
      foreign := hfield (fun x => x.iDev ≠ dev → x.iDirt = false) fun _ => rfl
      linked := hfield (fun x => x.iDirt = true → x.iNlinks ≠ 0) fun hd => by cases hd
      cached := ⟨fun i nr hin => absurd hin (hnone i nr), fun i _ nr hin => absurd hin (hnone i nr),
        fun i nr hin => absurd hin (hnone i nr), fun _ _ _ => rfl⟩
      readable := hread }

theorem step (h : InodeTable which used M refs s dev sb V) :
    TableStep which used M refs s dev sb V M s :=
  ⟨h, .refl refs s, fun _ _ => rfl⟩

/-- An entry of the device has the record of its inode. -/
theorem value (h : InodeTable which used M refs s dev sb V) (hi : (s.inode i).Is dev nr) :
    (s.inode i).toDInode = V nr := h.cached.cached i nr (MInode.mem_key.mpr hi)

theorem number (h : InodeTable which used M refs s dev sb V) (hi : (s.inode i).Is dev nr) :
    nr ∈ (s.superBlock sb).numbers := h.cached.inside i nr (MInode.mem_key.mpr hi)

theorem dev_lt (h : InodeTable which used M refs s dev sb V)
    (hnr : nr ∈ (s.superBlock sb).numbers) :
    dev < 65536 := (h.mapped.tiled.dev _ (h.readable nr hnr).used).2

theorem num_lt (h : InodeTable which used M refs s dev sb V)
    (hnr : nr ∈ (s.superBlock sb).numbers) :
    nr < 65536 := lt_of_le_of_lt hnr.2 h.short

/-- **One entry is assigned.** -/
theorem setEntry {V₁ : ℕ → DInode} {f : MInode → MInode}
    (h : InodeTable which used M refs s dev sb V)
    (ht : Mapped which used (fun _ => False) M₁ refs t) (hbeside : Beside refs (s.setInode i f) t)
    (hmount : (f (s.inode i)).iMount = false) (hlock : (f (s.inode i)).iLock = false)
    (hcount : (f (s.inode i)).iCount < 65536)
    (hforeign : (f (s.inode i)).iDev ≠ dev → (f (s.inode i)).iDirt = false)
    (hlinked : (f (s.inode i)).iDirt = true → (f (s.inode i)).iNlinks ≠ 0)
    (hcached : WriteBack (s.superBlock sb).numbers
      (Function.update (s.entries dev) i ((f (s.inode i)).entry dev))
      ((s.superBlock sb).inodeAt dev M₁) V₁) : InodeTable which used M₁ refs t dev sb V₁ := by
  have hinode : t.inode = (s.setInode i f).inode := hbeside.inode
  have hsuper : t.superBlock = s.superBlock := hbeside.superBlock
  have hentries : t.entries dev = (s.setInode i f).entries dev := by
    unfold Sys.entries
    rw [hinode]
  have hall (P : MInode → Prop) (hold : ∀ j, P (s.inode j)) (hnew : P (f (s.inode i)))
    (j : Fin nrInode) :
      P (t.inode j) := by
    rw [hinode]
    by_cases hj : j = i
    · subst hj
      simpa using hnew
    · simpa [Sys.setInode, hj] using hold j
  refine ⟨ht, h.mounted.congr hsuper, ?_, ?_, ?_, ?_, ?_, ?_, ?_, ?_⟩
  · rw [hsuper]
    exact h.short
  · exact hall (fun x => x.iMount = false) h.flat hmount
  · exact hall (fun x => x.iLock = false) h.unlocked hlock
  · exact hall (fun x => x.iCount < 65536) h.counts hcount
  · exact hall (fun x => x.iDev ≠ dev → x.iDirt = false) h.foreign hforeign
  · exact hall (fun x => x.iDirt = true → x.iNlinks ≠ 0) h.linked hlinked
  · rw [hsuper, hentries, Sys.entries_setInode]
    exact hcached
  · rw [hsuper]
    exact fun nr hnr => ((h.readable nr hnr).setInode i f).beside hbeside

/-- A call that changes no contents and no entry. -/
theorem beside (h : InodeTable which used M refs s dev sb V)
    (ht : Mapped which used (fun _ => False) M refs t) (hbeside : Beside refs s t) :
    InodeTable which used M refs t dev sb V := by
  have hself : s.setInode 0 id = s := Sys.setInode_self rfl
  refine h.setEntry (i := 0) (f := id) ht (by rwa [hself]) (h.flat 0) (h.unlocked 0) (h.counts 0)
    (h.foreign 0) (h.linked 0) ?_
  rw [← Sys.entries_setInode, hself]
  exact h.cached

end InodeTable

/-! ## Writing an entry back -/

theorem MInode.cleaned_eq {x : MInode} (hdirt : x.iDirt = false) (hlock : x.iLock = false) :
    { x with iDirt := false, iLock := false } = x := by
  cases x
  simp only at hdirt hlock
  rw [hdirt, hlock]

/-- One round of the loop of `new_inode`. -/
def cleanRound (i : Fin nrInode) : P n (Unit ⊕ Bool) := do
  let s ← Prog.read
  if (s.inode i).iDirt then do
    waitOnInode i
    syncInodeToBuff i
    let s ← Prog.read
    if (s.inode i).iCount ≠ 0 then
      pure (.inr false)
    else
      pure (.inl ())
  else
    pure (.inr true)

theorem cleanInode_rounds : (cleanInode i : P n Bool) = Prog.iterate (fun _ => cleanRound i) () :=
    rfl

theorem cleanRound_clean (hclean : (s.inode i).iDirt = false) :
    Does (cleanRound i) env s fun x t => x = .inr true ∧ s = t :=
  .bind_read (.ite (fun hd => absurd (hclean.symm.trans hd) (by decide)) fun _ => .pure ⟨rfl, rfl⟩)

namespace InodeTable

section

variable (henv : env.Works which) (hall : ∀ cmd, which cmd)
  (h : InodeTable which used M refs s dev sb V)
include henv hall h

theorem setIntr (on : Bool) : InodeTable which used M refs (s.setIntr on) dev sb V :=
  h.beside (h.mapped.setIntr henv (hall .write) on)
  ⟨rfl, rfl, rfl, rfl, fun _ _ => rfl, fun _ _ => id⟩

/-- **`sync_inode_to_buff`** of a dirty entry keeps the inodes. -/
theorem syncInodeToBuff (hdirt : (s.inode i).iDirt = true) :
    Does (syncInodeToBuff i) env s fun _ t => ∃ M₁, TableStep which used M refs s dev sb V M₁ t ∧
      t.inode = (s.setInode i fun x => { x with iDirt := false, iLock := false }).inode := by
  have hdev : (s.inode i).iDev = dev := by
    by_contra hne
    exact absurd ((h.foreign i hne).symm.trans hdirt) (by decide)
  have hi : (s.inode i).Is dev (s.inode i).iNum := ⟨hdev, rfl⟩
  have hnum := h.number hi
  have hstored := h.mounted.inodeStored (M := M) h.short hnum (s.inode i).toDInode
  refine (h.mapped.syncInodeToBuff henv hall h.mounted hdev (h.unlocked i) hdirt
    (h.readable _ hnum)).mono ?_
  rintro _ t ⟨ht, hbeside⟩
  refine ⟨_, ⟨?_, ⟨hbeside.superBlock, hbeside.geo, hbeside.key, hbeside.uptodate⟩,
    hstored.outside⟩, hbeside.inode⟩
  refine h.setEntry ht hbeside (h.flat i) rfl (h.counts i) (fun _ => rfl) (fun hd => by cases hd) ?_
  refine (h.cached.flush (MInode.mem_key.mpr hi) hstored.stored fun nr hnr hne => ?_).congr
    (fun _ => rfl) (fun _ _ _ => rfl) (fun _ _ _ => id) fun _ _ => rfl
  exact hstored.others nr hnr.1 hnr.2 hne

/-- **The loop of `new_inode`** writes the entry back if it is dirty. -/
theorem cleanInode (hcount : (s.inode i).iCount = 0) :
    Does (cleanInode i) env s fun clean t => clean = true ∧ ∃ M₁,
      TableStep which used M refs s dev sb V M₁ t ∧
      t.inode = (s.setInode i fun x => { x with iDirt := false, iLock := false }).inode := by
  rw [cleanInode_rounds]
  refine LoopDoes.does ?_
  cases hdirt : (s.inode i).iDirt with
  | false =>
      refine .done ((cleanRound_clean hdirt).mono ?_)
      rintro _ _ ⟨rfl, rfl⟩
      have hself := MInode.cleaned_eq hdirt (h.unlocked i)
      exact ⟨true, rfl, rfl, M, h.step, congrArg Sys.inode (Sys.setInode_self hself).symm⟩
  | true =>
      refine .step (.bind_read (.ite (fun _ => ?_) fun hd => absurd hdirt hd))
      refine ((waitOnInode_evals (h.unlocked i)).does
        (Q := fun _ t => t = s.setIntr false) rfl).bind ?_
      rintro _ _ rfl
      refine ((h.setIntr henv hall false).syncInodeToBuff henv hall hdirt).bind ?_
      rintro _ t ⟨M₁, hstep, hinode⟩
      have ht : t.inode i = { s.inode i with iDirt := false, iLock := false } := by
        rw [hinode]
        simp
      refine .bind_read (.ite (fun hne => absurd ?_ hne) fun _ => .pure ⟨(), rfl, ?_⟩)
      · rw [ht]
        exact hcount
      · refine .done ((cleanRound_clean (by rw [ht])).mono ?_)
        rintro _ _ ⟨rfl, rfl⟩
        exact ⟨true, rfl, rfl, M₁,
          ⟨hstep.table, ⟨hstep.apart.superBlock, hstep.apart.geo, hstep.apart.key,
          hstep.apart.uptodate⟩, hstep.outside⟩, hinode⟩

/-! ## Taking an inode -/

omit henv hall in
/-- The round robin is not part of the cache. -/
theorem withLast (last : Fin nrInode) :
    InodeTable which used M refs (s.withLast last) dev sb V where
  mapped := h.mapped.rebase
    ⟨rfl, rfl, rfl, rfl, rfl, rfl, fun _ => rfl, fun _ _ => .of_eq rfl, [], rfl, by
      simp⟩ rfl rfl rfl rfl
  mounted := h.mounted.congr rfl
  short := h.short
  flat := h.flat
  unlocked := h.unlocked
  counts := h.counts
  foreign := h.foreign
  linked := h.linked
  cached := h.cached
  readable nr hnr := ⟨(h.readable nr hnr).used, (h.readable nr hnr).firm, (h.readable nr hnr).room,
    (h.readable nr hnr).header⟩

/-- **`new_inode`** gives an entry to an inode that has none; its record is still to be read. -/
theorem newInode (hnone : ∀ i, ¬ (s.inode i).Is dev nr) (hfree : ∃ i, (s.inode i).iCount = 0) :
    Does (newInode dev nr) env s fun found t => ∃ i M₁ u, found = some i ∧
      TableStep which used M refs s dev sb V M₁ u ∧ (s.inode i).iCount = 0 ∧
      u.inode = (s.setInode i fun x => { x with iDirt := false, iLock := false }).inode ∧
      t = u.claimInode i dev nr := by
  refine (pickInode_does hfree).bind ?_
  rintro _ _ ⟨i, last, rfl, hcount, rfl⟩
  refine ((h.withLast last).cleanInode henv hall hcount).bind ?_
  rintro _ u ⟨rfl, M₁, hstep, hinode⟩
  have hinode' : u.inode =
    (s.setInode i fun x => { x with iDirt := false, iLock := false }).inode := hinode
  have hnone' : ∀ j, ¬ (u.inode j).Is dev nr := by
    intro j
    rw [hinode']
    by_cases hj : j = i
    · subst hj
      simpa [MInode.Is] using hnone j
    · simpa [Sys.setInode, hj] using hnone j
  refine .ite (fun _ => ?_) fun hbad => absurd rfl hbad
  refine (findInode_does hstep.table.flat h.mounted.device).bind ?_
  rintro ⟨found, d, r⟩ _ ⟨rfl, hkey, hlookup⟩
  obtain ⟨rfl, rfl⟩ := Prod.ext_iff.mp hkey
  cases found with
  | some j => exact absurd hlookup (hnone' j)
  | none =>
      refine .bind_update (.pure
        ⟨i, M₁, u, rfl, ⟨hstep.table, ?_, hstep.outside⟩, hcount, hinode', rfl⟩)
      exact ⟨hstep.apart.superBlock, hstep.apart.geo, hstep.apart.key, hstep.apart.uptodate⟩

/-- **`get_inode`** counts the entry of the inode, or gives it one. -/
theorem getInode (hfree : (∃ i, (s.inode i).Is dev nr) ∨ ∃ i, (s.inode i).iCount = 0) :
    Does (getInode dev nr) env s fun i t =>
      (s.inode i).Is dev nr ∧ t = (s.setIntr false).inodeUp i ∨
      (∀ j, ¬ (s.inode j).Is dev nr) ∧ ∃ M₁ u, TableStep which used M refs s dev sb V M₁ u ∧
        (s.inode i).iCount = 0 ∧
        u.inode = (s.setInode i fun x => { x with iDirt := false, iLock := false }).inode ∧
        t = u.claimInode i dev nr := by
  unfold EgGS.getInode
  refine Does.iterate ((retainInode_does h.flat h.unlocked h.mounted.device).bind ?_)
  rintro ⟨found, d, r⟩ t ⟨hkey, hfound⟩
  obtain ⟨rfl, rfl⟩ := Prod.ext_iff.mp hkey
  dsimp only at hfound ⊢
  rcases hfound with ⟨rfl, rfl, hnone⟩ | ⟨i, rfl, hi, rfl⟩
  · refine (h.newInode henv hall hnone (hfree.resolve_left fun ⟨i, hi⟩ => hnone i hi)).bind ?_
    rintro _ t ⟨i, M₁, u, rfl, hstep, hcount, hinode, rfl⟩
    exact .pure ⟨i, rfl, .inr ⟨hnone, M₁, u, hstep, hcount, hinode, rfl⟩⟩
  · exact .pure ⟨i, rfl, .inl ⟨hi, rfl⟩⟩

end

end InodeTable

/-- `read_inode` has handed out the entry `i` for the inode `nr`, and left the others alone. -/
structure InodeRead (which : Rw → Prop) (used : ℕ × ℕ → Prop) (M : Contents) (refs : Refs n)
    (s : Sys n) (dev : ℕ) (sb : Fin nrSuper) (V : ℕ → DInode) (nr : ℕ) (M₁ : Contents)
    (i : Fin nrInode) (t : Sys n) : Prop where
  step : TableStep which used M refs s dev sb V M₁ t
  entry : (t.inode i).Is dev nr
  others : ∀ j, j ≠ i → t.inode j = s.inode j
  count : (t.inode i).iCount = (s.inode i).iCount + 1
  held : 0 < (s.inode i).iCount → (s.inode i).Is dev nr

namespace InodeTable

section

variable (henv : env.Works which) (hall : ∀ cmd, which cmd)
  (h : InodeTable which used M refs s dev sb V)
include henv hall h

/-- **`read_inode_from_buff`** gives an entry of the device the record of its inode. -/
theorem readInodeFromBuff (hi : (s.inode i).Is dev nr) (hclean : (s.inode i).iDirt = false) :
    Does (readInodeFromBuff i) env s fun _ t => InodeTable which used M refs t dev sb V ∧
      Beside refs s t := by
  have hnum := h.number hi
  obtain ⟨hdev, rfl⟩ := hi
  refine (h.mapped.readInodeFromBuff henv hall h.mounted hdev (h.unlocked i)
    (h.readable _ hnum)).mono ?_
  rintro _ t ⟨ht, hbeside⟩
  have hstored : (s.superBlock sb).inodeAt dev M (s.inode i).iNum = (s.inode i).toDInode :=
    h.cached.clean (MInode.mem_key.mpr ⟨hdev, rfl⟩) hclean
  have hself : s.setInode i (fun x =>
      { x with
        toDInode := (s.superBlock sb).inodeAt dev M (s.inode i).iNum
        iLock := false }) = s := by
    refine Sys.setInode_self ?_
    rw [hstored, ← h.unlocked i]
  rw [hself] at hbeside
  exact ⟨h.beside ht hbeside, hbeside⟩

omit henv hall in
/-- A reference is counted. -/
theorem inodeUp (hi : (s.inode i).Is dev nr) (hroom : (s.inode i).iCount < 65535) :
    InodeTable which used M refs (s.inodeUp i) dev sb V := by
  refine h.setEntry (h.mapped.setInode i _) (.refl refs _) (h.flat i) (h.unlocked i) ?_
    (h.foreign i)
    (h.linked i) ?_
  · exact Nat.mod_lt _ (by decide)
  · refine h.cached.congr (fun j => ?_) (fun j _ _ => ?_) (fun j _ _ hd => ?_) fun _ _ => rfl
    all_goals
      by_cases hj : j = i
      · subst hj
        simp_all [MInode.entry, Sys.entries]
      · simp_all [Sys.entries]

/-- An entry that was found is read again only if it has no links. -/
theorem readFound (hi : (s.inode i).Is dev nr) (hroom : (s.inode i).iCount < 65535) :
    Does (do
      let s ← Prog.read
      if (s.inode i).iNlinks = 0 then do
        EgGS.readInodeFromBuff i
        pure i
      else
        pure i) env ((s.setIntr false).inodeUp i) fun j t => i = j ∧
      InodeRead which used M refs s dev sb V nr M i t := by
  have hup := (h.setIntr henv hall false).inodeUp hi hroom
  have hinode : ((s.setIntr false).inodeUp i).inode i =
      { s.inode i with iCount := ((s.inode i).iCount + 1) % 65536 } := by simp [Sys.inodeUp]
  have hdone {t : Sys n} (ht : InodeTable which used M refs t dev sb V)
      (hbeside : Beside refs ((s.setIntr false).inodeUp i) t) :
      InodeRead which used M refs s dev sb V nr M i t := by
    refine ⟨⟨ht, ⟨hbeside.superBlock, hbeside.geo, hbeside.key, hbeside.uptodate⟩, fun _ _ => rfl⟩,
      ?_, fun j hj => ?_, ?_, fun _ => hi⟩
    · rw [hbeside.inode, hinode]
      exact hi
    · rw [hbeside.inode]
      simp [Sys.inodeUp, Sys.setInode, hj]
    · rw [hbeside.inode, hinode]
      show ((s.inode i).iCount + 1) % 65536 = (s.inode i).iCount + 1
      omega
  refine .bind_read (.ite (fun hlinks => ?_) fun _ => .pure ⟨rfl, hdone hup (.refl refs _)⟩)
  have hi' : (((s.setIntr false).inodeUp i).inode i).Is dev nr := hinode ▸ hi
  have hclean : (((s.setIntr false).inodeUp i).inode i).iDirt = false := by
    by_contra hd
    exact hup.linked i (Bool.not_eq_false _ ▸ hd) hlinks
  refine (hup.readInodeFromBuff henv hall hi' hclean).bind ?_
  rintro _ t ⟨ht, hbeside⟩
  exact .pure ⟨rfl, hdone ht hbeside⟩

/-- An entry that was given to the inode is read. -/
theorem readMade (hnr : nr ∈ (s.superBlock sb).numbers) (hnone : ∀ j, ¬ (s.inode j).Is dev nr)
    (hclean : (s.inode i).iDirt = false) (hcount : (s.inode i).iCount = 0) :
    Does (do
      let s ← Prog.read
      if (s.inode i).iNlinks = 0 then do
        EgGS.readInodeFromBuff i
        pure i
      else
        pure i) env (s.claimInode i dev nr) fun j t => i = j ∧
      InodeRead which used M refs s dev sb V nr M i t := by
  have hdev : dev % 65536 = dev := Nat.mod_eq_of_lt (h.dev_lt hnr)
  have hnum : nr % 65536 = nr := Nat.mod_eq_of_lt (h.num_lt hnr)
  have hentry : (s.claimInode i dev nr).inode i =
    { MInode.zero with iCount := 1, iDev := dev, iNum := nr } := by
    simp [Sys.claimInode, hdev, hnum]
  have hnum' : ((s.claimInode i dev nr).inode i).iNum = nr := by rw [hentry]
  -- the new entry was cleared, so it has no links and is read
  refine .bind_read (.ite (fun _ => ?_) fun hlinks => absurd ?_ hlinks)
  · have hmapped : Mapped which used (fun _ => False) M refs (s.claimInode i dev nr) :=
      h.mapped.setInode i _
    have hmounted : Mounted (s.claimInode i dev nr) dev sb := h.mounted.congr rfl
    have hread := hmapped.readInodeFromBuff henv hall hmounted (by rw [hentry])
      (by rw [hentry]; rfl)
      (by rw [hnum']; exact (h.readable nr hnr).setInode i _)
    refine hread.bind ?_
    rintro _ t ⟨ht, hbeside⟩
    rw [hnum'] at hbeside
    unfold Sys.claimInode at hbeside
    rw [Sys.setInode_setInode] at hbeside
    have hinode := hbeside.inode
    have htable : InodeTable which used M refs t dev sb V := by
      refine h.setEntry ht hbeside rfl rfl (by simp) (fun _ => rfl) (fun hd => by cases hd) ?_
      refine (h.cached.load (i := i) hclean hnr fun j hj => hnone j (MInode.mem_key.mp hj)).congr
        (fun j => ?_) (fun j _ _ => ?_) (fun j _ _ hd => ?_) fun _ _ => rfl
      all_goals
        by_cases hj : j = i
        · subst hj
          simp_all [MInode.entry]
        · simp_all
    refine .pure ⟨rfl, ⟨htable, ⟨hbeside.superBlock, hbeside.geo, hbeside.key, hbeside.uptodate⟩,
      fun _ _ => rfl⟩, ?_, fun j hj => ?_, ?_, fun hpos => absurd hcount hpos.ne'⟩
    · rw [hinode]
      simp [MInode.Is, hdev, hnum]
    · rw [hinode]
      simp [Sys.setInode, hj]
    · rw [hinode, hcount]
      simp
  · rw [hentry]
    rfl

/-- **`read_inode`** hands out an entry with the record of the inode. -/
theorem readInode (hnr : nr ∈ (s.superBlock sb).numbers)
    (hfree : (∃ i, (s.inode i).Is dev nr) ∨ ∃ i, (s.inode i).iCount = 0)
    (hroom : ∀ i, (s.inode i).Is dev nr → (s.inode i).iCount < 65535) :
    Does (readInode dev nr) env s fun i t => ∃ M₁,
      InodeRead which used M refs s dev sb V nr M₁ i t := by
  have hdev : unsigned dev = dev := unsigned_natCast ((h.dev_lt hnr).trans (by decide))
  have hnum : unsigned nr = nr := unsigned_natCast ((h.num_lt hnr).trans (by decide))
  unfold EgGS.readInode
  rw [hdev, hnum]
  refine (h.getInode henv hall hfree).bind ?_
  rintro i t (⟨hi, rfl⟩ | ⟨hnone, M₁, u, hstep, hcount, hinode, rfl⟩)
  · refine (h.readFound henv hall hi (hroom i hi)).mono ?_
    rintro _ t ⟨rfl, hread⟩
    exact ⟨M, hread⟩
  · have hother (j : Fin nrInode) (hj : j ≠ i) : u.inode j = s.inode j := by
      rw [hinode]
      simp [Sys.setInode, hj]
    have hself : u.inode i = { s.inode i with iDirt := false, iLock := false } := by
      rw [hinode]
      simp
    have hnone' (j : Fin nrInode) : ¬ (u.inode j).Is dev nr := by
      by_cases hj : j = i
      · subst hj
        rw [hself]
        exact hnone j
      · rw [hother j hj]
        exact hnone j
    have hnr' : nr ∈ (u.superBlock sb).numbers := hstep.apart.superBlock ▸ hnr
    have hread := hstep.table.readMade henv hall hnr' hnone'
      (by rw [hself]) (by rw [hself]; exact hcount)
    refine hread.mono ?_
    rintro _ t ⟨rfl, hread⟩
    refine ⟨M₁, hstep.trans hread.step, hread.entry, fun j hj => (hread.others j hj).trans
      (hother j hj), ?_, fun hpos => absurd hcount hpos.ne'⟩
    rw [hread.count, hself]

end

end InodeTable

/-! ## Giving an inode back -/

/-- One round of `put_inode`. -/
def putRound (i : Fin nrInode) : P n (Unit ⊕ Unit) := do
  let s ← Prog.read
  if (s.inode i).iCount = 1 ∧ (s.inode i).iNlinks = 0 then do
    truncate i
    deleteInode (some i)
    pure (.inr ())
  else if (s.inode i).iCount = 1 ∧ (s.inode i).iDirt then do
    syncInodeToBuff i
    waitOnInode i
    pure (.inl ())
  else do
    Prog.update (Sys.inodeDown · i)
    pure (.inr ())

theorem putInode_rounds : (putInode (some i) : P n Unit) = (do
    waitOnInode i
    let s ← Prog.read
    if (s.inode i).iCount = 0 then
      panic "iput: trying to free free inode"
    else
      Prog.iterate (fun _ => putRound i) ()) := rfl

/-- `put_inode` has taken a reference back, and left the other entries alone. -/
structure PutInode (which : Rw → Prop) (used : ℕ × ℕ → Prop) (M : Contents) (refs : Refs n)
    (s : Sys n) (dev : ℕ) (sb : Fin nrSuper) (V : ℕ → DInode) (nr : ℕ) (M₁ : Contents)
    (i : Fin nrInode) (t : Sys n) : Prop where
  step : TableStep which used M refs s dev sb V M₁ t
  entry : (t.inode i).Is dev nr
  others : ∀ j, j ≠ i → t.inode j = s.inode j
  count : (t.inode i).iCount + 1 = (s.inode i).iCount

namespace InodeTable

section

variable (henv : env.Works which) (hall : ∀ cmd, which cmd)
  (h : InodeTable which used M refs s dev sb V)
include henv hall h

omit henv hall in
variable (env) in
/-- The last round takes the reference back. -/
theorem putLast (hi : (s.inode i).Is dev nr) (hcount : 0 < (s.inode i).iCount)
    (hlinks : (s.inode i).iNlinks ≠ 0 ∨ 1 < (s.inode i).iCount)
    (hclean : (s.inode i).iCount = 1 → (s.inode i).iDirt = false) :
    Does (putRound i) env s fun x t => x = .inr () ∧
    PutInode which used M refs s dev sb V nr M i t := by
  refine .bind_read (.ite (fun hlast => ?_) fun _ => .ite (fun hdirt => ?_) fun _ => .bind_update
    (.pure ?_))
  · rcases hlinks with hne | hlt
    · exact absurd hlast.2 hne
    · omega
  · exact absurd ((hclean hdirt.1).symm.trans hdirt.2) (by decide)
  · have hlt := h.counts i
    have hentry : (s.inodeDown i).inode i =
        { s.inode i with iCount := ((s.inode i).iCount + 65535) % 65536 } := by simp [Sys.inodeDown]
    have htable : InodeTable which used M refs (s.inodeDown i) dev sb V := by
      refine h.setEntry (h.mapped.setInode i _) (.refl refs _) (h.flat i) (h.unlocked i) ?_
        (h.foreign i)
        (h.linked i) ?_
      · exact Nat.mod_lt _ (by decide)
      · refine h.cached.congr (fun j => ?_) (fun j _ _ => ?_) (fun j _ _ hd => ?_) fun _ _ => rfl
        all_goals
          by_cases hj : j = i
          · subst hj
            simp_all [MInode.entry, Sys.entries]
          · simp_all [Sys.entries]
    refine ⟨rfl, ⟨htable, ⟨rfl, rfl, fun _ _ => rfl, fun _ _ => id⟩, fun _ _ => rfl⟩, ?_,
      fun j hj => ?_, ?_⟩
    · unfold MInode.Is
      rw [hentry]
      exact hi
    · simp [Sys.inodeDown, Sys.setInode, hj]
    · rw [hentry]
      show ((s.inode i).iCount + 65535) % 65536 + 1 = (s.inode i).iCount
      omega

/-- **`put_inode`** takes a reference back, and writes the entry back if it was the last one. -/
theorem putInode (hi : (s.inode i).Is dev nr) (hcount : 0 < (s.inode i).iCount)
    (hlinks : (s.inode i).iNlinks ≠ 0 ∨ 1 < (s.inode i).iCount) :
    Does (putInode (some i)) env s fun _ t => ∃ M₁,
      PutInode which used M refs s dev sb V nr M₁ i t := by
  rw [putInode_rounds]
  refine ((waitOnInode_evals (h.unlocked i)).does (Q := fun _ t => t = s.setIntr false) rfl).bind ?_
  rintro _ _ rfl
  refine .bind_read (.ite (fun hzero => absurd hzero hcount.ne') fun _ => LoopDoes.does ?_)
  have h₁ := h.setIntr henv hall false
  have hapart : Apart refs s (s.setIntr false) := ⟨rfl, rfl, fun _ _ => rfl, fun _ _ => id⟩
  -- only the last reference to a dirty entry writes it back before it is given up
  by_cases hdirt : (s.inode i).iCount = 1 ∧ (s.inode i).iDirt = true
  · -- the entry is written back, and the next round is the last
    have hne : (s.inode i).iNlinks ≠ 0 := h.linked i hdirt.2
    refine .step (.bind_read (.ite (fun hlast => absurd hlast.2 hne) fun _ => .ite (fun _ => ?_)
      fun hd => absurd hdirt hd))
    refine (h₁.syncInodeToBuff henv hall hdirt.2).bind ?_
    rintro _ t ⟨M₁, hstep, hinode⟩
    have hself : t.inode i = { s.inode i with iDirt := false, iLock := false } := by
      rw [hinode]
      simp
    have hother (j : Fin nrInode) (hj : j ≠ i) : t.inode j = s.inode j := by
      rw [hinode]
      simp [Sys.setInode, hj]
    refine ((waitOnInode_evals (hstep.table.unlocked i)).does
      (Q := fun _ u => u = t.setIntr false) rfl).bind ?_
    rintro _ _ rfl
    refine .pure ⟨(), rfl, .done ?_⟩
    have hi' : ((t.setIntr false).inode i).Is dev nr := by
      show (t.inode i).Is dev nr
      rw [hself]
      exact hi
    have hlast := (hstep.table.setIntr henv hall false).putLast env hi'
      (by show 0 < (t.inode i).iCount; rw [hself]; exact hcount)
      (.inl (by show (t.inode i).iNlinks ≠ 0; rw [hself]; exact hne))
      (fun _ => by show (t.inode i).iDirt = false; rw [hself])
    refine hlast.mono ?_
    rintro _ u ⟨rfl, hput⟩
    have hwhole : TableStep which used M refs s dev sb V M₁ u :=
      ⟨hput.step.table, (hapart.trans hstep.apart).trans
        ⟨hput.step.apart.superBlock, hput.step.apart.geo, hput.step.apart.key,
          hput.step.apart.uptodate⟩, hstep.outside⟩
    refine ⟨(), rfl, M₁, hwhole, hput.entry, fun j hj => (hput.others j hj).trans (hother j hj), ?_⟩
    rw [hput.count]
    show (t.inode i).iCount = (s.inode i).iCount
    rw [hself]
  · refine .done ((h₁.putLast env hi hcount hlinks fun hone => ?_).mono ?_)
    · exact Bool.eq_false_iff.mpr fun hd => hdirt ⟨hone, hd⟩
    · rintro _ u ⟨rfl, hput⟩
      exact ⟨(), rfl, M, ⟨hput.step.table, hapart.trans hput.step.apart, fun _ _ => rfl⟩,
        hput.entry, hput.others, hput.count⟩

/-! ## Changing and synchronising inodes -/

omit henv hall in
/-- **A holder changes an inode**, and marks it dirty. -/
theorem change (hi : (s.inode i).Is dev nr) (d : DInode) (hlinks : d.iNlinks ≠ 0) :
    InodeTable which used M refs
    (s.setInode i fun x => { x with toDInode := d, iDirt := true }) dev sb
      (Function.update V nr d) := by
  refine h.setEntry (h.mapped.setInode i _) (.refl refs _) (h.flat i) (h.unlocked i) (h.counts i)
    (fun hne => absurd hi.1 hne) (fun _ => hlinks) ?_
  have hkey : (s.entries dev i).key = some nr := MInode.mem_key.mpr hi
  have hentry :
      ({ s.inode i with toDInode := d, iDirt := true } : MInode).entry dev =
        ⟨some nr, d, true⟩ := by
    unfold MInode.entry
    rw [if_pos hi.1, hi.2]
  rw [hentry]
  exact h.cached.assign hkey d

/-- **`sync_all_inodes_to_buff`** keeps the inodes. -/
theorem syncAllInodesToBuff : Does syncAllInodesToBuff env s fun _ t => ∃ M₁,
    TableStep which used M refs s dev sb V M₁ t ∧ ∀ j, (t.inode j).core = (s.inode j).core := by
  unfold EgGS.syncAllInodesToBuff
  refine Does.forEach (I := fun _ t => ∃ M₁, TableStep which used M refs s dev sb V M₁ t ∧
    ∀ j, (t.inode j).core = (s.inode j).core) ?_ _ _ ⟨M, h.step, fun _ => rfl⟩
  rintro i _ t ⟨M₁, hstep, hcore⟩
  refine ((waitOnInode_evals (hstep.table.unlocked i)).does
    (Q := fun _ u => u = t.setIntr false) rfl).bind ?_
  rintro _ _ rfl
  have hstep' : TableStep which used M refs s dev sb V M₁ (t.setIntr false) :=
    ⟨hstep.table.setIntr henv hall false, hstep.apart.trans
      ⟨rfl, rfl, fun _ _ => rfl, fun _ _ => id⟩, hstep.outside⟩
  refine .bind_read (.ite (fun hdirt => ?_) fun _ => .pure ⟨M₁, hstep', hcore⟩)
  refine (hstep'.table.syncInodeToBuff henv hall hdirt.1).mono ?_
  rintro _ u ⟨M₂, hsync, hinode⟩
  refine ⟨M₂, hstep'.trans hsync, fun j => ?_⟩
  rw [hinode, ← hcore j]
  by_cases hj : j = i
  · subst hj
    simp [MInode.core]
  · simp [Sys.setInode, hj]

end

end InodeTable

/-! ## Runs -/

/-- The runs over the inodes of a device, with the changes that were made, the last first. -/
inductive InodeRun (env : Env n) (dev : ℕ) (sb : Fin nrSuper) (s₀ : Sys n) :
    List (ℕ × DInode) → Sys n → Prop
  | start : InodeRun env dev sb s₀ [] s₀
  | read {changes : List (ℕ × DInode)} {s t : Sys n} {nr k : ℕ} {i : Fin nrInode} :
      InodeRun env dev sb s₀ changes s → nr ∈ (s.superBlock sb).numbers →
      (∃ j, (s.inode j).Is dev nr) ∨ (∃ j, (s.inode j).iCount = 0) →
      (∀ j, (s.inode j).Is dev nr → (s.inode j).iCount < 65535) →
      readInode dev nr env k s = .ok i t → InodeRun env dev sb s₀ changes t
  | change {changes : List (ℕ × DInode)} {s : Sys n} {i : Fin nrInode} (d : DInode) :
      InodeRun env dev sb s₀ changes s → (s.inode i).iDev = dev → 0 < (s.inode i).iCount →
      d.iNlinks ≠ 0 →
      InodeRun env dev sb s₀ (((s.inode i).iNum, d) :: changes)
        (s.setInode i fun x => { x with toDInode := d, iDirt := true })
  | put {changes : List (ℕ × DInode)} {s t : Sys n} {i : Fin nrInode} {k : ℕ} :
      InodeRun env dev sb s₀ changes s → (s.inode i).iDev = dev → 0 < (s.inode i).iCount →
      (s.inode i).iNlinks ≠ 0 ∨ 1 < (s.inode i).iCount → putInode (some i) env k s = .ok () t →
      InodeRun env dev sb s₀ changes t
  | syncInodes {changes : List (ℕ × DInode)} {s t : Sys n} {k : ℕ} :
      InodeRun env dev sb s₀ changes s → syncAllInodesToBuff env k s = .ok () t →
      InodeRun env dev sb s₀ changes t
  | sync {changes : List (ℕ × DInode)} {s t : Sys n} {dev' k : ℕ} :
      InodeRun env dev sb s₀ changes s → syncDev dev' env k s = .ok () t →
      InodeRun env dev sb s₀ changes t
  | idle {changes : List (ℕ × DInode)} {s t : Sys n} {k : ℕ} :
      InodeRun env dev sb s₀ changes s → idle env k s = .ok () t → InodeRun env dev sb s₀ changes t

/-- **Runs over inodes** keep the inodes, but for the changes. -/
theorem InodeRun.table {changes : List (ℕ × DInode)} (henv : env.Works which)
    (hall : ∀ cmd, which cmd)
    (hstart : InodeTable which used M refs s₀ dev sb V) (hrun : InodeRun env dev sb s₀ changes s) :
    ∃ M₁, InodeTable which used M₁ refs s dev sb (assigned V changes) := by
  induction hrun with
  | start => exact ⟨M, hstart⟩
  | read _ hnr hfree hroom hread ih =>
      obtain ⟨M₁, htable⟩ := ih
      obtain ⟨M₂, hdone⟩ := (readInode_stable _ _).ensures
        (htable.readInode henv hall hnr hfree hroom) _ _ _ hread
      exact ⟨M₂, hdone.step.table⟩
  | change d _ hdev _ hlinks ih =>
      obtain ⟨M₁, htable⟩ := ih
      exact ⟨M₁, htable.change ⟨hdev, rfl⟩ d hlinks⟩
  | put _ hdev hcount hlinks hput ih =>
      obtain ⟨M₁, htable⟩ := ih
      obtain ⟨M₂, hdone⟩ := (putInode_stable _).ensures
        (htable.putInode henv hall ⟨hdev, rfl⟩ hcount hlinks) _ _ _ hput
      exact ⟨M₂, hdone.step.table⟩
  | syncInodes _ hsync ih =>
      obtain ⟨M₁, htable⟩ := ih
      obtain ⟨M₂, hdone, -⟩ := syncAllInodesToBuff_stable.ensures
        (htable.syncAllInodesToBuff henv hall) _ _ _ hsync
      exact ⟨M₂, hdone.table⟩
  | @sync changes s t dev' k _ hsync ih =>
      obtain ⟨M₁, htable⟩ := ih
      have hpath := syncDev_submits hsync
      exact ⟨M₁, htable.beside (htable.mapped.submits henv (hall .write) hpath)
        (htable.mapped.beside henv (hall .write) hpath)⟩
  | @idle changes s t k _ hidle ih =>
      obtain ⟨M₁, htable⟩ := ih
      have hpath : Submits env (.idle, s) (.idle, t) := idle_submits hidle
      exact ⟨M₁, htable.beside (htable.mapped.submits henv (hall .write) hpath)
        (htable.mapped.beside henv (hall .write) hpath)⟩

/-- **The cache of inodes refines a map** from numbers to inodes, on a disk that works.  In every
run in which inodes that are changed keep a link, `read_inode` hands out an entry with the fields
that the inode was given last, or with those that it had at the start, however often it was written
back, lost its entry and was read again. -/
theorem inode_cache_refines_map {changes : List (ℕ × DInode)} (henv : env.Works which)
    (hall : ∀ cmd, which cmd) (hstart : InodeTable which used M refs s₀ dev sb V)
    (hrun : InodeRun env dev sb s₀ changes s) (hnr : nr ∈ (s.superBlock sb).numbers)
    (hfree : (∃ j, (s.inode j).Is dev nr) ∨ ∃ j, (s.inode j).iCount = 0)
    (hroom : ∀ j, (s.inode j).Is dev nr → (s.inode j).iCount < 65535) :
    Does (readInode dev nr) env s fun i t => (t.inode i).Is dev nr ∧
      (t.inode i).toDInode = assigned V changes nr ∧ (t.inode i).iCount = (s.inode i).iCount + 1 ∧
      (0 < (s.inode i).iCount → (s.inode i).Is dev nr) ∧ ∀ j, j ≠ i → t.inode j = s.inode j := by
  obtain ⟨M₁, htable⟩ := hrun.table henv hall hstart
  refine (htable.readInode henv hall hnr hfree hroom).mono ?_
  rintro i t ⟨M₂, hread⟩
  exact ⟨hread.entry, hread.step.table.value hread.entry, hread.count, hread.held, hread.others⟩

/-! ## An inode that is changed and written back -/

/-- A kernel with one header; the device `0x300` has 64 inodes, and none is in memory. -/
def noInodes : Sys 1 :=
  (initBuff oneHeader).setSuper 0 fun p =>
    { p with sDev := 0x300, sImapBlocks := 1, sZmapBlocks := 1, sNinodes := 64 }

theorem noInodes_mapped : ∃ M, Mapped (fun _ => True) tableUsed (fun _ => False) M
    (fun _ => 0) noInodes := by
  have hmajor : ∀ x, tableUsed x → major x.1 = 3 := by
    rintro x (rfl | rfl) <;> decide
  have hinit : Mapped (fun _ => True) tableUsed (fun _ => False) _ (fun _ => 0)
    (initBuff oneHeader) :=
    Mapped.init oneHeader_quiet smallDrive_drives rfl smallDrive_tableUsed hmajor
  exact ⟨_, hinit.setSuper 0 _⟩

theorem noInodes_mounted : Mounted noInodes 0x300 0 where
  device := by decide
  super := ⟨rfl, by decide⟩
  lock := rfl
  imapBlocks := by decide
  zmapBlocks := by decide
  imapOwn := by decide
  zmapOwn := by decide
  short := by decide

theorem noInodes_blocks : ∀ nr : Fin 65, 1 ≤ nr.val →
    (noInodes.superBlock 0).inodeBlock nr = 4 ∨ (noInodes.superBlock 0).inodeBlock nr = 5 := by
  decide +kernel

theorem noInodes_table : ∃ M, InodeTable (fun _ => True) tableUsed M (fun _ => 0) noInodes 0x300 0
    ((noInodes.superBlock 0).inodeAt 0x300 M) := by
  obtain ⟨M, hmapped⟩ := noInodes_mapped
  refine ⟨M, .init hmapped noInodes_mounted (by decide) (fun _ => rfl) fun nr hnr => ?_⟩
  have hle : nr < 65 := Nat.lt_succ_of_le hnr.2
  refine ⟨?_, not_false, fun _ _ => by decide, .inr ⟨0, rfl⟩⟩
  rcases noInodes_blocks ⟨nr, hle⟩ hnr.1 with hblock | hblock
  · exact .inl (congrArg (Prod.mk 0x300) hblock)
  · exact .inr (congrArg (Prod.mk 0x300) hblock)

/-- The state after inode 1 was read. -/
def inodeRead : Sys 1 := (readInode (0x300 : ℕ) (1 : ℕ) (Env.diligent 0x50) 60 noInodes).state

/-- An inode with one link and nothing else. -/
def linkedInode : DInode := { MInode.zero.toDInode with iNlinks := 1 }

/-- The state after it was changed. -/
def inodeChanged : Sys 1 := inodeRead.setInode 1 fun x =>
    { x with toDInode := linkedInode, iDirt := true }

/-- The state after it was put. -/
def inodeWritten : Sys 1 := (putInode (some 1) (Env.diligent 0x50) 60 inodeChanged).state

theorem inodeWritten_run : InodeRun
    (Env.diligent 0x50) 0x300 0 noInodes [(1, linkedInode)] inodeWritten := by
  have hread : readInode (0x300 : ℕ) (1 : ℕ) (Env.diligent 0x50) 60 noInodes = .ok 1 inodeRead :=
    Res.eq_ok (by decide +kernel)
  have hput : putInode (some 1) (Env.diligent 0x50) 60 inodeChanged = .ok () inodeWritten :=
    Res.eq_ok (by decide +kernel)
  have hnum : (inodeRead.inode 1).iNum = 1 := by decide +kernel
  have hfirst : InodeRun (Env.diligent 0x50) 0x300 0 noInodes [] inodeRead := by
    exact .read .start ⟨le_rfl, by decide⟩ (.inr ⟨0, rfl⟩)
      (fun _ _ => (by decide : 0 < 65535)) hread
  have hsecond := InodeRun.change (i := 1) linkedInode hfirst (by decide +kernel)
    (by decide +kernel) (by decide)
  rw [hnum] at hsecond
  exact .put hsecond (by decide +kernel) (by decide +kernel) (.inl (by decide +kernel)) hput

/-- Inode 1 is read with its link. -/
theorem inode_cache_refines_map_written : Does (readInode (0x300 : ℕ) (1 : ℕ)) (Env.diligent 0x50)
    inodeWritten fun i t => (t.inode i).toDInode = linkedInode := by
  obtain ⟨M, htable⟩ := noInodes_table
  have hroom : ∀ j, (inodeWritten.inode j).iCount < 65535 := by decide +kernel
  refine (inode_cache_refines_map (diligent_works_all _) (fun _ => trivial) htable inodeWritten_run
    ⟨le_rfl, by decide +kernel⟩ (.inr ⟨0, by decide +kernel⟩) fun j _ => hroom j).mono ?_
  rintro i t ⟨-, hvalue, -⟩
  exact hvalue.trans rfl

end EgGS
