import EgGS.Fs.Directory
import EgGS.Fs.Walk
import Mathlib.Data.List.Find

/-!
# Resolving a path

What the inodes and the blocks of a device contain says where a path leads: from directory to
directory, to the inode of the first entry that begins with the component.

`resolve` follows a path on the contents alone, and `Walkable` asks that every directory on it has
no hole and can be read.  Of the walk, `Walker` is the invariant: it holds one reference more than
the caller gave, to the inode of the directory that it has come to.  `Walker.read` takes the inode
of the next component and `Walker.passed` gives the last one back; `Walker.walkEnd` is the induction
on the components.  Reading an inode may write others back, so the inode table changes on the way,
but no directory does.

* `path_resolves`: this is where `retain_inode_by_path` comes to, through inodes that are read and
  given back on the way, whichever of them are in memory.
-/

namespace EgGS

open Lib Prog

variable {n : ℕ} {env : Env n} {k : ℕ} {s t u : Sys n} {dev nr nr₀ : ℕ} {sb : Fin nrSuper}
variable {which : Rw → Prop} {used : ℕ × ℕ → Prop} {M M₁ M₂ : Contents} {refs : Refs n}
variable {inode : Fin nrInode} {p : SuperBlock n} {V : ℕ → DInode} {d : DInode} {c : List UInt8}
variable {cs : List (List UInt8)}

/-! ## Where a path leads -/

/-- The inode that a name leads to in the directory `nr`. -/
def nameIn (V : ℕ → DInode) (M : Contents) (dev nr : ℕ) (c : List UInt8) : Option ℕ :=
  if c = [] then none
  else ((V nr).findEntry M dev (nameOf c) (min c.length nameLen) ((V nr).iSize.toNat / 32)).map
    ((V nr).entryNum M dev)

/-- The inode that the components lead to from `nr`. -/
def resolve (V : ℕ → DInode) (M : Contents) (dev : ℕ) : List (List UInt8) → ℕ → Option ℕ
  | [], nr => some nr
  | c :: cs, nr =>
    match nameIn V M dev nr c with
    | none => none
    | some e => resolve V M dev cs e

/-- A directory can be looked into: it has links and no hole, and its tree lies outside the inode
table. -/
structure Enterable (used : ℕ × ℕ → Prop) (M : Contents) (refs : Refs n) (s : Sys n) (dev : ℕ)
    (p : SuperBlock n) (d : DInode) : Prop where
  links : d.iNlinks ≠ 0
  whole : Unbroken used (fun _ => False) M refs s dev d (d.iSize.toNat / 32)
  outside : ∀ q, d.zoneAt M dev q ≠ 0 → ¬ p.TableBlock (d.zoneAt M dev q)

/-- Every directory on the way can be looked into, and every entry that is followed names an
inode. -/
def Walkable (used : ℕ × ℕ → Prop) (M : Contents) (refs : Refs n) (s : Sys n) (dev : ℕ)
    (p : SuperBlock n) (V : ℕ → DInode) : List (List UInt8) → ℕ → Prop
  | [], _ => True
  | c :: cs, nr => Enterable used M refs s dev p (V nr) ∧ ∀ e, nameIn V M dev nr c = some e →
      e ∈ p.numbers ∧ Walkable used M refs s dev p V cs e

/-! ## Directories stay -/

/-- A change of the inode table leaves the trees alone that lie outside of it. -/
theorem Enterable.zoneAt (h : Enterable used M refs s dev p d) (hout : p.TableOnly dev M M₁)
    (q : ZonePos) :
    d.zoneAt M₁ dev q = d.zoneAt M dev q :=
  d.zoneAt_congr fun q' _ hq' => hout _ fun hin => h.outside q' hq' hin.2

theorem Enterable.blockZone (h : Enterable used M refs s dev p d) (hout : p.TableOnly dev M M₁)
    (block : ℕ) :
    d.blockZone M₁ dev block = d.blockZone M dev block := h.zoneAt hout _

/-- The entries of a directory stay. -/
theorem Enterable.entryBlock (h : Enterable used M refs s dev p d) (hout : p.TableOnly dev M M₁)
    {e : ℕ} (he : e < d.iSize.toNat / 32) : d.entryBlock M₁ dev e = d.entryBlock M dev e := by
  have hne := h.whole.zone (e / dirEntriesPerBlock) (by unfold dirEntriesPerBlock; omega)
  unfold DInode.entryBlock
  rw [h.blockZone hout]
  exact hout _ fun hin => h.outside _ hne hin.2

theorem Enterable.entryNum (h : Enterable used M refs s dev p d) (hout : p.TableOnly dev M M₁)
    {e : ℕ} (he : e < d.iSize.toNat / 32) : d.entryNum M₁ dev e = d.entryNum M dev e := by
  unfold DInode.entryNum
  rw [h.entryBlock hout he]

theorem Enterable.findEntry (h : Enterable used M refs s dev p d) (hout : p.TableOnly dev M M₁)
    (name : ℕ → UInt8) (namelen : ℕ) :
    d.findEntry M₁ dev name namelen (d.iSize.toNat / 32) =
      d.findEntry M dev name namelen (d.iSize.toNat / 32) := by
  refine List.find?_congr fun e he => ?_
  unfold DInode.entryMatch
  rw [h.entryBlock hout (List.mem_range.mp he)]

/-- A directory that can be looked into stays so. -/
theorem Enterable.apart (h : Enterable used M refs s dev p d) (hout : p.TableOnly dev M M₁)
    (hapart : Apart refs s t) : Enterable used M₁ refs t dev p d := by
  refine ⟨h.links, ⟨fun j hj => ?_, h.whole.bound, fun q hq => ?_⟩, fun q hq => ?_⟩
  · rw [h.blockZone hout]
    exact h.whole.zone j hj
  · rw [h.zoneAt hout] at hq ⊢
    have hr := h.whole.read q hq
    exact Sys.Readable.beside (s := { s with inode := t.inode, lastInode := t.lastInode })
      ⟨hr.used, hr.firm, hr.room, hr.header⟩ hapart.beside
  · rw [h.zoneAt hout] at hq ⊢
    exact h.outside q hq

/-- A name leads to where it led. -/
theorem Enterable.nameIn (h : Enterable used M refs s dev p (V nr)) (hout : p.TableOnly dev M M₁)
    (c : List UInt8) : EgGS.nameIn V M₁ dev nr c = EgGS.nameIn V M dev nr c := by
  unfold EgGS.nameIn
  rw [h.findEntry hout]
  cases hfind : (V nr).findEntry M dev (nameOf c) (min c.length nameLen)
    ((V nr).iSize.toNat / 32) with
  | none => rfl
  | some e =>
      have hlt := List.mem_range.mp (List.find?_range_eq_some.mp hfind).2.1
      simp only [Option.map_some, h.entryNum hout hlt]

/-! ## One step of the walk -/

/-- The walk from the entry `i₀` has come to the entry `i` of the inode `nr`, on which it has a
reference besides those in `held`. -/
structure Walker (which : Rw → Prop) (used : ℕ × ℕ → Prop) (M : Contents) (refs : Refs n)
    (s : Sys n) (dev : ℕ) (sb : Fin nrSuper) (V : ℕ → DInode) (held : Fin nrInode → ℕ)
    (i₀ : Fin nrInode) (nr₀ nr : ℕ) (M₁ : Contents) (i : Fin nrInode) (t : Sys n) : Prop where
  step : TableStep which used M refs s dev sb V M₁ t
  start : (t.inode i₀).Is dev nr₀
  here : (t.inode i).Is dev nr
  count : ∀ j, (t.inode j).iCount = held j + if j = i then 1 else 0

/-- The caller holds the inode at the start, and leaves two entries and some references free. -/
structure WalkHeld (held : Fin nrInode → ℕ) (i₀ : Fin nrInode) : Prop where
  start : 0 < held i₀
  room : ∀ j, held j < 65534
  free : ∃ j j', j ≠ j' ∧ held j = 0 ∧ held j' = 0

theorem MInode.Is.number {x : MInode} {nr' : ℕ} (h : x.Is dev nr) (h' : x.Is dev nr') : nr = nr' :=
  h.2.symm.trans h'.2

section

variable {held : Fin nrInode → ℕ} {i₀ i : Fin nrInode}

/-- Wherever the walk is, there is an entry that nobody holds. -/
theorem Walker.free (h : Walker which used M refs s dev sb V held i₀ nr₀ nr M₁ i t)
    (hheld : WalkHeld held i₀) :
    ∃ j, (t.inode j).iCount = 0 := by
  obtain ⟨j, j', hne, hj, hj'⟩ := hheld.free
  by_cases hji : j = i
  · refine ⟨j', ?_⟩
    rw [h.count, hj', if_neg fun heq => hne (hji.trans heq.symm)]
  · refine ⟨j, ?_⟩
    rw [h.count, hj, if_neg hji]

/-- An entry that somebody holds stays with its inode when another is read, … -/
theorem InodeRead.kept {nr' a : ℕ} {j j' : Fin nrInode}
    (h : InodeRead which used M refs s dev sb V nr' M₁ j t)
    (hpos : 0 < (s.inode j').iCount) (his : (s.inode j').Is dev a) : (t.inode j').Is dev a := by
  by_cases hj : j' = j
  · subst hj
    obtain rfl := (h.held hpos).number his
    exact h.entry
  · rw [h.others j' hj]
    exact his

theorem InodeRead.count_eq {nr' : ℕ} {j : Fin nrInode}
    (h : InodeRead which used M refs s dev sb V nr' M₁ j t)
    (j' : Fin nrInode) : (t.inode j').iCount = (s.inode j').iCount + if j' = j then 1 else 0 := by
  split
  · rename_i hj
    rw [hj, h.count]
  · rename_i hj
    rw [h.others j' hj, Nat.add_zero]

/-- … and when one is put. -/
theorem PutInode.kept {a : ℕ} {i j : Fin nrInode}
    (h : PutInode which used M refs s dev sb V nr M₁ i t)
    (hi : (s.inode i).Is dev nr) (his : (s.inode j).Is dev a) : (t.inode j).Is dev a := by
  by_cases hj : j = i
  · subst hj
    obtain rfl := hi.number his
    exact h.entry
  · rw [h.others j hj]
    exact his

theorem PutInode.count_eq {i : Fin nrInode} (h : PutInode which used M refs s dev sb V nr M₁ i t)
    (j : Fin nrInode) : (t.inode j).iCount + (if j = i then 1 else 0) = (s.inode j).iCount := by
  split
  · rename_i hj
    rw [hj, h.count]
  · rename_i hj
    rw [h.others j hj, Nat.add_zero]

/-- The entry where the walk is stays when the next one is read. -/
theorem Walker.read {nr' : ℕ} {j : Fin nrInode}
    (h : Walker which used M refs s dev sb V held i₀ nr₀ nr M₁ i t)
    (hread : InodeRead which used M₁ refs t dev sb V nr' M₂ j u) :
    (u.inode i).Is dev nr ∧ 0 < (u.inode i).iCount := by
  have hcount := h.count i
  rw [if_pos rfl] at hcount
  refine ⟨hread.kept (by omega) h.here, ?_⟩
  rw [hread.count_eq]
  omega

/-- The walk has come to the next inode. -/
theorem Walker.passed {nr' : ℕ} {j : Fin nrInode} {v : Sys n} {M₃ : Contents}
    (h : Walker which used M refs s dev sb V held i₀ nr₀ nr M₁ i t) (hheld : WalkHeld held i₀)
    (hread : InodeRead which used M₁ refs t dev sb V nr' M₂ j u)
    (hput : PutInode which used M₂ refs u dev sb V nr M₃ i v) :
    Walker which used M refs s dev sb V held i₀ nr₀ nr' M₃ j v where
  step := (h.step.trans hread.step).trans hput.step
  start := by
    have hpos := hheld.start
    refine hput.kept (h.read hread).1 (hread.kept ?_ h.start)
    rw [h.count]
    omega
  here := hput.kept (h.read hread).1 hread.entry
  count j' := by
    have hdown := hput.count_eq j'
    rw [hread.count_eq, h.count] at hdown
    omega

variable (henv : env.Works which) (hall : ∀ cmd, which cmd) (hheld : WalkHeld held i₀)
variable (hroot : (s.superBlock sb).sImount = none)
include henv hall hheld hroot

/-- **A component is looked up**, and the walk goes on to its inode. -/
theorem Walker.descend (h : Walker which used M refs s dev sb V held i₀ nr₀ nr M₁ i t)
    (hdir : Enterable used M refs s dev (s.superBlock sb) (V nr))
    (hnum : ∀ e, nameIn V M dev nr c = some e → e ∈ (s.superBlock sb).numbers) :
    Does (descend i c) env t fun x u => (nameIn V M dev nr c = none → x = none) ∧
      ∀ e, nameIn V M dev nr c = some e → ∃ j M₂, x = some j ∧
        Walker which used M refs s dev sb V held i₀ nr₀ e M₂ j u := by
  have hsuper := h.step.apart.superBlock
  have hout := h.step.outside
  have hdir' := hdir.apart hout h.step.apart
  have hsame := hdir.nameIn hout c
  by_cases hc : c = []
  · subst hc
    have hnone : nameIn V M dev nr [] = none := if_pos rfl
    have hempty : Does (retainInodeByName i (nameOf []) 0) env t fun x _ => x = (i, none) :=
      .bind_read (.ite (fun _ => .pure rfl) fun hne => absurd rfl hne)
    refine hempty.bind ?_
    rintro _ u rfl
    exact .pure ⟨fun _ => rfl, fun e he => absurd (hnone.symm.trans he) (by simp)⟩
  have hname : nameIn V M₁ dev nr c = ((V nr).findEntry M₁ dev (nameOf c) (min c.length nameLen)
      ((V nr).iSize.toNat / 32)).map ((V nr).entryNum M₁ dev) := if_neg hc
  have hpos : 0 < c.length := List.length_pos_iff.mpr hc
  have hlookup := h.step.table.retainInodeByName henv hall h.here (hsuper ▸ hroot) hpos hdir'.whole
    fun e (he : (V nr).findEntry M₁ dev (nameOf c) _ _ = some e) => ?_
  · refine hlookup.bind ?_
    rintro x u ⟨hnone, hsome⟩
    cases hfind : (V nr).findEntry M₁ dev (nameOf c) (min c.length nameLen)
      ((V nr).iSize.toNat / 32) with
    | none =>
        obtain ⟨rfl, -, -⟩ := hnone hfind
        rw [hfind, hsame] at hname
        exact .pure ⟨fun _ => rfl, fun e he => absurd (hname.symm.trans he) (by simp)⟩
    | some e =>
        obtain ⟨j, M₂, rfl, hread⟩ := hsome e hfind
        rw [hfind, hsame, Option.map_some] at hname
        -- the directory is given back
        obtain ⟨hi, hpos⟩ := h.read hread
        have hlinks : (u.inode i).iNlinks ≠ 0 := by
          rw [hread.step.table.value hi]
          exact hdir.links
        refine (hread.step.table.putInode henv hall hi hpos (.inl hlinks)).bind ?_
        rintro _ v ⟨M₃, hput⟩
        refine .pure ⟨fun hnone => absurd (hname.symm.trans hnone) (by simp), fun e' he' => ?_⟩
        obtain rfl : (V nr).entryNum M₁ dev e = e' := Option.some_injective _ (hname.symm.trans he')
        exact ⟨j, M₃, rfl, h.passed hheld hread hput⟩
  · have hname' : nameIn V M dev nr c = some ((V nr).entryNum M₁ dev e) := by
      rw [← hsame, hname, he, Option.map_some]
    refine ⟨hsuper ▸ hnum _ hname', .inr (h.free hheld), fun j _ => ?_⟩
    have hroom := hheld.room j
    rw [h.count]
    split <;> omega

/-! ## The walk -/

omit henv hall hheld hroot in
theorem walkEnd_nil (enters : Sys n → Fin nrInode → Bool) (i : Fin nrInode) :
    (walkEnd enters [] i : P n _) = pure (some i) := rfl

omit henv hall hheld hroot in
theorem walkEnd_cons (enters : Sys n → Fin nrInode → Bool) (i : Fin nrInode) :
    (walkEnd enters (c :: cs) i : P n _) = (do
      let s ← Prog.read
      if !enters s i then
        pure none
      else do
        match ← EgGS.descend i c with
        | none => pure none
        | some e => walkEnd enters cs e) := by
  funext env k s
  rw [read_bind]
  by_cases hin : enters s i = true
  · rw [walkEnd_entered enters hin, if_neg (by simp [hin]), bind_run]
    cases EgGS.descend i c env k s with
    | stop why t => rfl
    | ok found t => cases found <;> rfl
  · rw [walkEnd_barred enters (by simpa using hin), if_pos (by simpa using hin)]
    rfl

/-- **The walk** comes to where the path leads. -/
theorem Walker.walkEnd (cs : List (List UInt8)) : ∀ (nr : ℕ) (M₁ : Contents) (i : Fin nrInode)
    (t : Sys n),
    Walkable used M refs s dev (s.superBlock sb) V cs nr → (cs ≠ [] → isDir (V nr₀).iMode = true) →
    Walker which used M refs s dev sb V held i₀ nr₀ nr M₁ i t →
    Does (walkEnd (startsIn i₀) cs i) env t fun x u => (resolve V M dev cs nr = none → x = none) ∧
      ∀ e, resolve V M dev cs nr = some e → ∃ j M₂, x = some j ∧
        Walker which used M refs s dev sb V held i₀ nr₀ e M₂ j u := by
  induction cs with
  | nil =>
      intro nr M₁ i t _ _ h
      rw [walkEnd_nil]
      refine .pure ⟨fun hnone => absurd hnone (by simp [resolve]), fun e he => ?_⟩
      obtain rfl : nr = e := by simpa [resolve] using he
      exact ⟨i, M₁, rfl, h⟩
  | cons c cs ih =>
      intro nr M₁ i t hwalk hdir h
      obtain ⟨hin, hnext⟩ := hwalk
      have hmode : startsIn i₀ t i = true := by
        show isDir (t.inode i₀).toDInode.iMode = true
        rw [h.step.table.value h.start]
        exact hdir (by simp)
      rw [walkEnd_cons]
      refine .bind_read (.ite (fun hbad => absurd hbad (by simp [hmode])) fun _ => ?_)
      refine (h.descend henv hall hheld hroot hin fun e he => (hnext e he).1).bind ?_
      rintro x u ⟨hnone, hsome⟩
      cases hname : nameIn V M dev nr c with
      | none =>
          obtain rfl := hnone hname
          have hresolve : resolve V M dev (c :: cs) nr = none := by rw [resolve, hname]
          exact .pure ⟨fun _ => rfl, fun e he => absurd (hresolve.symm.trans he) (by simp)⟩
      | some e =>
          obtain ⟨j, M₂, rfl, hj⟩ := hsome e hname
          have hresolve : resolve V M dev (c :: cs) nr = resolve V M dev cs e := by
            rw [resolve, hname]
          rw [hresolve]
          exact ih e M₂ j u (hnext e hname).2 (fun _ => hdir (by simp)) hj

end

/-- The walk begins. -/
theorem InodeTable.walker (h : InodeTable which used M refs s dev sb V)
    (hi : (s.inode inode).Is dev nr) (hroom : (s.inode inode).iCount < 65535) :
    Walker which used M refs s dev sb V (fun j => (s.inode j).iCount) inode nr nr M inode
    (s.inodeUp inode) where
  step := ⟨h.inodeUp hi hroom, ⟨rfl, rfl, fun _ _ => rfl, fun _ _ => id⟩, fun _ _ => rfl⟩
  start := by simpa [Sys.inodeUp, MInode.Is] using hi
  here := by simpa [Sys.inodeUp, MInode.Is] using hi
  count j := by
    by_cases hj : j = inode
    · subst hj
      have hmod : ((s.inode j).iCount + 1) % 65536 = (s.inode j).iCount + 1 :=
        Nat.mod_eq_of_lt (by omega)
      simp [Sys.inodeUp, hmod]
    · simp [Sys.inodeUp, Sys.setInode, hj]

/-- **Resolving a path.**  The caller holds the inode at the start, which is a directory if a
component of the path is followed by a slash; two entries of `inode_list` are free; and every
directory on the way can be looked into.  Then `retain_inode_by_path` returns `NULL` if the
components lead nowhere, and otherwise hands out an entry of the inode that they lead to.  The
inodes stay, and of the contents all but the inode table; of the references only the one that is
handed out is new. -/
theorem path_resolves {pathname : ℕ → UInt8} {path : List UInt8} (henv : env.Works which)
    (hall : ∀ cmd, which cmd) (h : InodeTable which used M refs s dev sb V)
    (hi : (s.inode inode).Is dev nr) (hroot : (s.superBlock sb).sImount = none)
    (hheld : WalkHeld (fun j => (s.inode j).iCount) inode) (hstring : IsString pathname path)
    (hne : path ≠ []) (hdir : components path ≠ [] → isDir (V nr).iMode = true)
    (hwalk : Walkable used M refs s dev (s.superBlock sb) V (components path) nr) :
    Does (retainInodeByPath inode pathname) env s fun found t =>
      (resolve V M dev (components path) nr = none → found = none) ∧
      ∀ e, resolve V M dev (components path) nr = some e → ∃ i M₁, found = some i ∧
        (t.inode i).Is dev e ∧ (t.inode i).toDInode = V e ∧
        InodeTable which used M₁ refs t dev sb V ∧ (s.superBlock sb).TableOnly dev M M₁ ∧
        ∀ j, (t.inode j).iCount = (s.inode j).iCount + if j = i then 1 else 0 := by
  have hroom := hheld.room inode
  have hstart := h.walker hi (by omega)
  obtain ⟨found, t, ⟨N, hN⟩, hend⟩ := hstart.walkEnd henv hall hheld hroot
    (components path) nr M inode
    (s.inodeUp inode) hwalk hdir
  refine ⟨found, t, ⟨max N (path.length + 1), fun k hk => ?_⟩, hend.1, fun e he => ?_⟩
  · rw [retainInodeByPath_walk hstring hne (by omega)]
    exact hN k (by omega)
  · obtain ⟨i, M₁, rfl, hi⟩ := hend.2 e he
    exact ⟨i, M₁, rfl, hi.here, hi.step.table.value hi.here, hi.step.table, hi.step.outside,
      hi.count⟩

/-- The path `a/c/`. -/
def innerPath : List UInt8 := [0x61, 0x2F, 0x63, 0x2F]

theorem innerPath_string : IsString (nameOf innerPath) innerPath where
  bytes i h := by simp [nameOf, h]
  zero := rfl
  nonzero := by decide

theorem innerPath_components : components innerPath = [[0x61], [0x63]] := by decide

theorem dirHeld_walkable :
    Walkable dirUsed dirContents (fun _ => 0) dirHeld 0x300 (dirHeld.superBlock 0) dirInodes
      [[0x61], [0x63]] 1 := by
  have houtside (z : ℕ) (hz : 5 ≤ z) : ¬ (dirHeld.superBlock 0).TableBlock z := by
    have hfield : (dirHeld.superBlock 0).sImapBlocks = 1 ∧ (dirHeld.superBlock 0).sZmapBlocks = 1 ∧
        (dirHeld.superBlock 0).tableBlocks = 1 := by decide
    unfold SuperBlock.TableBlock
    omega
  have hfirst : nameIn dirInodes dirContents 0x300 1 [0x61] = some 2 := by decide
  have hsecond : nameIn dirInodes dirContents 0x300 2 [0x63] = some 3 := by decide
  refine ⟨⟨by decide, dirHeld_unbroken (.inl rfl), fun q hq => houtside _ ?_⟩, fun e he => ?_⟩
  · rw [(dirInodes_zoneAt q).1] at hq ⊢
    split_ifs at hq ⊢
    · exact le_rfl
    · exact absurd rfl hq
  obtain rfl : 2 = e := Option.some_injective _ (hfirst.symm.trans he)
  refine ⟨⟨by decide, by decide⟩,
    ⟨by decide, dirHeld_unbroken (.inr rfl), fun q hq => houtside _ ?_⟩, fun e he => ?_⟩
  · rw [(dirInodes_zoneAt q).2] at hq ⊢
    split_ifs at hq ⊢
    · decide
    · exact absurd rfl hq
  obtain rfl : 3 = e := Option.some_injective _ (hsecond.symm.trans he)
  exact ⟨⟨by decide, by decide⟩, trivial⟩

/-- The path leads to inode 3. -/
theorem path_resolves_inner : Does (retainInodeByPath 1 (nameOf innerPath))
    (Env.diligent 0x50) dirHeld
    fun found t => ∃ i, found = some i ∧ (t.inode i).Is 0x300 3 := by
  have hheld : WalkHeld (fun j => (dirHeld.inode j).iCount) 1 :=
    ⟨by decide, by decide +kernel, 2, 3, by decide, by decide +kernel, by decide +kernel⟩
  have hleads : resolve dirInodes dirContents 0x300 (components innerPath) 1 = some 3 := by
    rw [innerPath_components]
    decide
  have hstart : (dirHeld.inode 1).Is 0x300 1 := ⟨rfl, rfl⟩
  refine (path_resolves (diligent_works_all _) (fun _ => trivial) dirHeld_table hstart rfl hheld
    innerPath_string (by decide) (fun _ => by decide)
    (innerPath_components ▸ dirHeld_walkable)).mono ?_
  rintro found t ⟨-, hfound⟩
  obtain ⟨i, -, rfl, hi, -⟩ := hfound 3 hleads
  exact ⟨i, rfl, hi⟩

end EgGS
