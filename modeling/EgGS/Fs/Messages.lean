import EgGS.Fs.Balance
import EgGS.Fs.Stops
import EgGS.Print.Format
import Mathlib.Data.List.GetD
import Mathlib.Data.Nat.Digits.Lemmas

/-!
# The messages of a lookup

`printk` formats into a static buffer of 1024 bytes, and `vsprintf` knows no bound.  The
messages that `retain_inode_by_path` prints on its way fit into it, but for one: a
component of the path is printed in full before it is cut to `NAME_LEN`.

Where a component is looked up is read off the runs of the model (`LooksUp`), and what `panic`
prints is one of the texts of its programs (`PathMessage.of_panic`).  The other messages change
no state and are no part of the programs; `numberFormats` lists them from the sources, and since
they fit for all arguments, it does not matter when they are printed.

* `path_messages_fit`: all messages of a run fit exactly if every component that is looked up
  leaves room for the rest of its message.
-/

namespace EgGS

open Lib Prog

variable {n : ℕ} {env : Env n} {k : ℕ} {s t : Sys n} {mem : ℕ → UInt8}

/-! ## Calls of `printk` -/

/-- The size of the static `buf` of `printk`. -/
abbrev bufSize : ℕ := 1024

/-- A call of `printk`. -/
structure PrintkCall where
  format : String
  args : List ℤ

/-- `vsprintf` returns, and has written no byte beyond `buf`. -/
def PrintkCall.Fits (mem : ℕ → UInt8) (call : PrintkCall) : Prop :=
  Does vsprintf (fun i => (bytes call.format).getD i 0) ⟨0, [], call.args, mem, []⟩ fun _ t =>
    t.str.length ≤ bufSize

theorem bytesAt_getD (l : List UInt8) : BytesAt (fun i => l.getD i 0) 0 (l ++ [0]) := by
  refine BytesAt.of_get fun i hi => ?_
  rw [Nat.zero_add]
  by_cases hin : i < l.length
  · rw [List.getD_eq_getElem l 0 hin, List.getElem_append_left hin]
  · rw [List.getElem_append_right (by omega), List.getD_eq_default l 0 (by omega)]
    simp

/-- A call fits exactly if what its pieces write, and the `NUL`, fit. -/
theorem PrintkCall.fits_iff {call : PrintkCall} {rounds : ℕ} {ps : List Piece} {out : List UInt8}
    (hpieces : pieces rounds (bytes call.format) = some ps)
    (hwrites : WriteAll mem ps call.args out) :
    call.Fits mem ↔ out.length < bufSize := by
  obtain ⟨htext, hok⟩ := pieces_text hpieces
  have hdoes : Does vsprintf (fun i => (bytes call.format).getD i 0) ⟨0, [], call.args, mem, []⟩
      fun len t => len = out.length ∧ t.str = out ++ [0] := by
    refine vsprintf_writes hok hwrites ?_
    rw [htext]
    exact bytesAt_getD _
  obtain ⟨len, t, heval, -, hstr⟩ := hdoes
  have hlen : t.str.length = out.length + 1 := by simp [hstr]
  constructor
  · rintro ⟨len', t', heval', hle⟩
    obtain ⟨-, rfl⟩ := heval.unique heval'
    omega
  · intro hlt
    exact ⟨len, t, heval, by omega⟩

/-! ## Messages of numbers -/

/-- The piece takes no string. -/
def Piece.isPlain : Piece → Bool
  | .lit _ => true
  | .number .. => true
  | _ => false

/-- How many arguments the piece takes, if it takes no string. -/
def Piece.argCount : Piece → ℕ
  | .number .. => 1
  | _ => 0

/-- A bound on what the piece writes, if it takes no string. -/
def Piece.cost : Piece → ℕ
  | .number .. => 44
  | _ => 1

/-- A directive for a number writes at most 44 characters. -/
theorem number_cost (w : ℤ) (zero hex : Bool) {width : ℕ} (hwidth : width < 10) :
    ∃ out, number (wrap32 w) (if hex then 16 else 10) (Piece.fieldWidth width) (-1)
      (Piece.flags zero hex) = some out ∧ out.length ≤ 44 := by
  have hsize : -1 ≤ Piece.fieldWidth width ∧ Piece.fieldWidth width ≤ 9 := by
    unfold Piece.fieldWidth
    split <;> omega
  have hleft : ∀ {base : ℕ} {sign : Option UInt8},
      -5 ≤ sizeLeft (Piece.fieldWidth width) base sign (Piece.flags zero hex) ∧
        sizeLeft (Piece.fieldWidth width) base sign (Piece.flags zero hex) ≤ 9 := by
    intro base sign
    simp only [sizeLeft, Piece.flags, Bool.false_eq_true, ↓reduceIte]
    split <;> omega
  have hbase : 2 ≤ (if hex then 16 else 10) ∧ (if hex then 16 else 10) ≤ 36 := by
    cases hex <;> simp
  have hbound := @hleft (if hex then 16 else 10) (signOf (wrap32 w) (Piece.flags zero hex)).1
  have hsmall : Small (sizeLeft (Piece.fieldWidth width) (if hex then 16 else 10)
      (signOf (wrap32 w) (Piece.flags zero hex)).1 (Piece.flags zero hex) -
        max (-1) ((tmpOf (Piece.flags zero hex).small (if hex then 16 else 10)
          (signOf (wrap32 w) (Piece.flags zero hex)).2).length : ℤ)) := by
    have htmp := tmpOf_length_le (Piece.flags zero hex).small (if hex then 16 else 10)
      (signOf (wrap32 w) (Piece.flags zero hex)).2
    constructor <;> omega
  refine ⟨_, number_text hbase (by omega) rfl hsmall.int.1 hsmall.2 (hsmall.countsDown _), ?_⟩
  refine (numberText_length_le _ _ _ _ _ _).trans ?_
  omega

theorem plain_piece {p : Piece} {args : List ℤ} {count : ℕ} (hok : p.Ok) (hplain : p.isPlain = true)
    (hargs : args.length = p.argCount + count) :
    ∃ rest out, p.Writes mem args rest out ∧ out.length ≤ p.cost ∧ rest.length = count := by
  cases p with
  | lit c => exact ⟨args, [c], .lit c args, le_refl 1, by simpa [Piece.argCount] using hargs⟩
  | number zero width hex =>
      cases args with
      | nil =>
          simp only [Piece.argCount, List.length_nil] at hargs
          omega
      | cons w args =>
          obtain ⟨out, hout, hle⟩ := number_cost w zero hex hok
          refine ⟨args, out, .number args hout, hle, ?_⟩
          simp only [Piece.argCount, List.length_cons] at hargs
          omega
  | string => simp [Piece.isPlain] at hplain
  | clipped => simp [Piece.isPlain] at hplain

/-- Pieces that take no string write something for any arguments. -/
theorem plain_writes {ps : List Piece} {args : List ℤ} (hok : ∀ p ∈ ps, p.Ok)
    (hplain : ∀ p ∈ ps, p.isPlain = true) (hargs : args.length = (ps.map Piece.argCount).sum) :
    ∃ out, WriteAll mem ps args out ∧ out.length ≤ (ps.map Piece.cost).sum := by
  induction ps generalizing args with
  | nil => exact ⟨[], .nil args, Nat.zero_le _⟩
  | cons p ps ih =>
      rw [List.map_cons, List.sum_cons] at hargs
      obtain ⟨rest, out, hp, hcost, hrest⟩ :=
        plain_piece (hok p (List.mem_cons_self ..)) (hplain p (List.mem_cons_self ..)) hargs
      obtain ⟨outs, hps, hcosts⟩ := ih (fun q hq => hok q (List.mem_cons_of_mem _ hq))
        (fun q hq => hplain q (List.mem_cons_of_mem _ hq)) hrest
      refine ⟨out ++ outs, .cons hp hps, ?_⟩
      rw [List.length_append, List.map_cons, List.sum_cons]
      omega

/-! ## The other messages -/

/-- The formats that print numbers only, with how many they take: all formats that a lookup, and
the requests and interrupts on its way, can come to, but for those of `panic` and of
`retain_inode_by_name`'s names. -/
def numberFormats : List (String × ℕ) :=
  [("debug_fs:sync inode[0x%x:0x%x]\n", 2), ("debug_fs: in new_inode\n", 0),
    ("%04x: %6d\t", 2), ("inode bad luck", 0), ("debug_fs:new inode[0x%x:0x%x]\n\r", 2),
    ("debug_fs: in find_inode[0x%x:0x%x]\n\r", 2), ("Mounted inode hasn't got sb\n", 0),
    ("debug_fs:find inode[0x%x:0x%x]\n\r", 2), ("debug_fs:found inode[0x%x:0x%x]\n\r", 2),
    ("debug_fs:retained inode[0x%x:0x%x]\n\r", 2), ("debug_fs:read inode[0x%x:0x%x]\n", 2),
    ("trying to free inode with count=%d\n", 1), ("debug_fs:entries[", 0),
    ("found! inode[0x%x]", 1), ("]\n", 0), ("free_inode: bit already cleared.\n\r", 0),
    ("free_block: bit already cleared.\n\r", 0), ("unlock buffer being unlocked\n\r", 0),
    ("trying to free block (%04x:%d), count=%d\n", 3), ("buff bad luck", 0),
    ("Trying to read nonexistent block-device\n\r", 0),
    ("read|write:%d dirt:%d uptodate:%d\n\r", 3), ("harddisk I/O error\n\r", 0),
    ("dev %04x, block %d\n\r", 2), ("HD controller times out\n\r", 0),
    ("HD-controller still busy\n\r", 0), ("HD-controller reset failed: %02x\n\r", 1),
    ("write failed dev:0x%x times:%d\n\r", 2), ("read failed dev:0x%x times:%d\n\r", 2),
    ("reset failed dev:0x%x times:%d\n\r", 2)]

/-- The messages on the way other than the one that names the component. -/
inductive OtherMessage (mem : ℕ → UInt8) : PrintkCall → Prop
  | numbers {format : String} {args : List ℤ} : (format, args.length) ∈ numberFormats →
      OtherMessage mem ⟨format, args⟩
  | panic {msg : String} {w : ℤ} : msg ∈ panicMessages → StringAt mem (unsigned w) (bytes msg) →
      OtherMessage mem ⟨"Kernel panic: %s\n\r", [w]⟩
  /-- A name in a directory, which ends somewhere behind its entry. -/
  | entry {namelen : ℕ} {w : ℤ} {l : List UInt8} : namelen ≤ nameLen →
      StringAt mem (unsigned w) l → OtherMessage mem ⟨"%.*s,", [(namelen : ℤ), w]⟩

/-- The format consists of characters and numbers, takes `count` arguments, and its bound leaves
room in the buffer. -/
def fitsAlways (format : String) (count : ℕ) : Bool :=
  match pieces 100 (bytes format) with
  | none => false
  | some ps => ps.all Piece.isPlain && (ps.map Piece.argCount).sum == count &&
      decide ((ps.map Piece.cost).sum < bufSize)

theorem numberFormats_fit : ∀ f ∈ numberFormats, fitsAlways f.1 f.2 = true := by decide +kernel

theorem fits_of_fitsAlways {format : String} {args : List ℤ}
    (h : fitsAlways format args.length = true) : (PrintkCall.mk format args).Fits mem := by
  unfold fitsAlways at h
  cases hpieces : pieces 100 (bytes format) with
  | none => simp [hpieces] at h
  | some ps =>
      simp only [hpieces, Bool.and_eq_true, List.all_eq_true, beq_iff_eq, decide_eq_true_eq] at h
      obtain ⟨⟨hplain, hcount⟩, hcost⟩ := h
      obtain ⟨out, (hwrites : WriteAll mem ps args out), hle⟩ :=
        plain_writes (pieces_text hpieces).2 hplain hcount.symm
      exact (PrintkCall.fits_iff hpieces hwrites).mpr (by omega)

/-- Characters that stand for themselves are written as they are. -/
theorem WriteAll.lits {ps : List Piece} {args : List ℤ} {out : List UInt8} (cs : List UInt8)
    (h : WriteAll mem ps args out) : WriteAll mem (cs.map .lit ++ ps) args (cs ++ out) := by
  induction cs with
  | nil => exact h
  | cons c cs ih =>
      show WriteAll mem (.lit c :: (cs.map .lit ++ ps)) args ([c] ++ (cs ++ out))
      exact .cons (.lit c args) ih

theorem panicMessages_short : ∀ msg ∈ panicMessages, (bytes msg).length ≤ 100 := by decide +kernel

/-- The messages of numbers, of `panic` and of names in a directory always fit. -/
theorem OtherMessage.fits {call : PrintkCall} (h : OtherMessage mem call) : call.Fits mem := by
  cases h with
  | @numbers format args hmem =>
      have halways : fitsAlways format args.length = true :=
        numberFormats_fit (format, args.length) hmem
      exact fits_of_fitsAlways halways
  | @panic msg w hmem hl =>
      have hpieces : pieces 100 (bytes "Kernel panic: %s\n\r") =
          some ((bytes "Kernel panic: ").map .lit ++
            .string :: ((bytes "\n\r").map .lit ++ [])) := by
        decide +kernel
      have hwrites := WriteAll.lits (bytes "Kernel panic: ")
        (.cons (.string [] hl) (.lits (bytes "\n\r") (.nil [])))
      refine (PrintkCall.fits_iff hpieces hwrites).mpr ?_
      have hshort := panicMessages_short msg hmem
      have hframe : (bytes "Kernel panic: ").length = 14 ∧ (bytes "\n\r").length = 2 := by decide
      simp only [List.length_append, hframe, List.length_nil, bufSize]
      omega
  | @entry namelen w l hname hl =>
      have hpieces :
          pieces 100 (bytes "%.*s,") = some (.clipped :: ((bytes ",").map .lit ++ [])) := by
        decide +kernel
      have hwrites := WriteAll.cons (.clipped (p := namelen) [] hl) (.lits (bytes ",") (.nil []))
      refine (PrintkCall.fits_iff hpieces hwrites).mpr ?_
      have hcomma : (bytes ",").length = 1 := by decide
      simp only [List.length_append, hcomma, List.length_nil, List.length_take, Int.toNat_natCast,
        bufSize]
      simp only [nameLen] at hname
      omega

/-! ## The message of a component -/

/-- The number of decimal digits. -/
def decimals (num : ℕ) : ℕ := max 1 (Nat.digits 10 num).length

/-- What `retain_inode_by_name` prints first. -/
def lookupMessage (namelen name iNum : ℕ) : PrintkCall :=
  ⟨"debug_fs:retain inode by name[%.*s] in inode[%d]\n", [(namelen : ℤ), (name : ℤ), (iNum : ℤ)]⟩

/-- The message of a component fits if there is room for its 43 other characters and the `NUL`. -/
theorem lookupMessage_fits_iff {namelen name iNum : ℕ} {l : List UInt8}
    (hname : name < 4294967296) (hl : StringAt mem name l) (hlen : namelen ≤ l.length)
    (hnum : iNum < 65536) :
    (lookupMessage namelen name iNum).Fits mem ↔ namelen + decimals iNum ≤ 980 := by
  have hpieces : pieces 100 (bytes "debug_fs:retain inode by name[%.*s] in inode[%d]\n") =
      some ((bytes "debug_fs:retain inode by name[").map .lit ++ .clipped ::
        ((bytes "] in inode[").map .lit ++ .number false 0 false ::
          ((bytes "]\n").map .lit ++ []))) := by decide +kernel
  have haddr : unsigned (name : ℤ) = name := by
    unfold unsigned
    omega
  have hint : wrap32 (iNum : ℤ) = iNum := by
    unfold wrap32
    omega
  obtain ⟨text, htext, htextlen⟩ := number_plain iNum (by omega)
  have hwrites := WriteAll.lits (bytes "debug_fs:retain inode by name[")
    (.cons (.clipped (p := namelen) [(iNum : ℤ)] (w := name) (haddr.symm ▸ hl))
      (.lits (bytes "] in inode[") (.cons
        (@Piece.Writes.number mem false false 0 _ _ [] (hint.symm ▸ htext))
        (.lits (bytes "]\n") (.nil [])))))
  have hframe : (bytes "debug_fs:retain inode by name[").length = 30 ∧
      (bytes "] in inode[").length = 11 ∧ (bytes "]\n").length = 2 := by decide
  have hclip : (l.take namelen).length = namelen := by simp [hlen]
  refine (PrintkCall.fits_iff hpieces hwrites).trans ?_
  simp only [List.length_append, hframe, List.length_nil, Int.toNat_natCast, hclip, htextlen,
    bufSize]
  unfold decimals
  omega

/-! ## The lookups of a run -/

section Path

variable {inode : Fin nrInode} {path : ℕ} {l : List UInt8}

/-- The loop of `retain_inode_by_path`, started in `s`, comes by here. -/
inductive PathHead (env : Env n) (k : ℕ) (inode : Fin nrInode) (pathname : ℕ → UInt8) (s : Sys n) :
    Fin nrInode → ℕ → ℕ → ℕ → Sys n → Prop
  | start : pathname 0 ≠ 0 →
      PathHead env k inode pathname s inode (if pathname 0 = 0x2F then 1 else 0) 0
        (if pathname 0 = 0x2F then 1 else 0) (s.inodeUp inode)
  | next {res res' : Fin nrInode} {thisname namelen pos thisname' namelen' pos' : ℕ}
      {t t' : Sys n} :
      PathHead env k inode pathname s res thisname namelen pos t →
      pathRound inode pathname res thisname namelen pos env k t =
        .ok (.inl (res', thisname', namelen', pos')) t' →
      PathHead env k inode pathname s res' thisname' namelen' pos' t'

/-- `retain_inode_by_path` comes to look up the component of length `namelen` at `thisname` in
`res`. -/
structure LooksUp (env : Env n) (k : ℕ) (inode : Fin nrInode) (pathname : ℕ → UInt8) (s : Sys n)
    (res : Fin nrInode) (thisname namelen : ℕ) (t : Sys n) : Prop where
  head : ∃ pos, PathHead env k inode pathname s res thisname namelen pos t ∧ pathname pos = 0x2F
  directory : isDir (t.inode inode).iMode = true

/-- The messages that a run of `retain_inode_by_path` may print.  The path lies at `path` in
memory.  Other messages are listed wherever they come from, as they all fit. -/
inductive PathMessage (env : Env n) (k : ℕ) (mem : ℕ → UInt8) (path : ℕ) (inode : Fin nrInode)
    (s : Sys n) : PrintkCall → Prop
  | lookup {res : Fin nrInode} {thisname namelen : ℕ} {t : Sys n} :
      LooksUp env k inode (fun i => mem (path + i)) s res thisname namelen t →
      PathMessage env k mem path inode s
        (lookupMessage namelen (path + thisname) ((t.inode res).iNum % 65536))
  | other {call : PrintkCall} : OtherMessage mem call → PathMessage env k mem path inode s call

/-- A panic whose text is not on the list. -/
def Unlisted (why : Stop) : Prop := ∃ message, message ∉ panicMessages ∧ why = .panic message

theorem unlisted_foreign : FsForeign Unlisted where
  panic message hlisted := by
    rintro ⟨message', hnot, heq⟩
    obtain rfl := Stop.panic.inj heq
    exact hnot hlisted
  spin := by simp [Unlisted]
  division := by simp [Unlisted]
  null := by simp [Unlisted]
  slot := by simp [Unlisted]

/-- A lookup panics with none but the listed texts, so what `panic` prints then is listed. -/
theorem PathMessage.of_panic {pathname : ℕ → UInt8} {message : String} {w : ℤ}
    (h : retainInodeByPath inode pathname env k s = .stop (.panic message) t)
    (hw : StringAt mem (unsigned w) (bytes message)) :
    PathMessage env k mem path inode s ⟨"Kernel panic: %s\n\r", [w]⟩ := by
  refine .other (.panic ?_ hw)
  by_contra hnot
  exact retainInodeByPath_avoids unlisted_foreign (by simp [Unlisted]) inode pathname s k _ _ h
    ⟨message, hnot, rfl⟩

/-- `namelen` bytes of the path have been read since `thisname`. -/
theorem pathRound_reads {pathname : ℕ → UInt8} {res res' : Fin nrInode}
    {thisname namelen pos thisname' namelen' pos' : ℕ} {t' : Sys n}
    (h : pathRound inode pathname res thisname namelen pos env k t =
      .ok (.inl (res', thisname', namelen', pos')) t')
    (hpos : thisname + namelen = pos) :
    thisname' + namelen' = pos' ∧ pos' = pos + 1 ∧ pathname pos ≠ 0 := by
  unfold pathRound at h
  rw [ite_run] at h
  split at h
  · simp at h
  rename_i hgo
  rw [ite_run] at h
  split at h
  · simp only [pure_run, Res.ok.injEq, Sum.inl.injEq, Prod.mk.injEq] at h
    obtain ⟨⟨-, rfl, rfl, rfl⟩, -⟩ := h
    exact ⟨by omega, rfl, hgo⟩
  rw [read_bind, ite_run] at h
  split at h
  · simp at h
  obtain ⟨⟨res₁, made⟩, t₁, -, h⟩ := bind_eq_ok.mp h
  cases made with
  | none => simp at h
  | some tmp =>
      simp only [bind_eq_ok, pure_run, Res.ok.injEq, Sum.inl.injEq, Prod.mk.injEq] at h
      obtain ⟨-, -, -, ⟨-, rfl, rfl, rfl⟩, -⟩ := h
      exact ⟨rfl, rfl, hgo⟩

/-- The loop stays within the path. -/
theorem PathHead.within (hpath : StringAt mem path l) {res : Fin nrInode}
    {thisname namelen pos : ℕ}
    (h : PathHead env k inode (fun i => mem (path + i)) s res thisname namelen pos t) :
    thisname + namelen = pos ∧ pos ≤ l.length := by
  have hshort : ∀ {pos}, pos ≤ l.length → mem (path + pos) ≠ 0 → pos + 1 ≤ l.length := by
    intro pos hle hne
    rcases Nat.lt_or_ge pos l.length with hlt | hge
    · exact hlt
    · obtain rfl : pos = l.length := by omega
      exact absurd hpath.zero hne
  induction h with
  | start hne =>
      refine ⟨Nat.add_zero _, ?_⟩
      split
      · exact hshort (Nat.zero_le _) hne
      · exact Nat.zero_le _
  | next _ hround ih =>
      obtain ⟨hsum, hpos, hne⟩ := pathRound_reads hround ih.1
      refine ⟨hsum, ?_⟩
      rw [hpos]
      exact hshort ih.2 hne

theorem BytesAt.drop {m : ℕ → UInt8} {a : ℕ} {l : List UInt8} (h : BytesAt m a l) {i : ℕ}
    (hi : i ≤ l.length) : BytesAt m (a + i) (l.drop i) := by
  have hsplit := List.take_append_drop i l
  rw [← hsplit, BytesAt.append, List.length_take, min_eq_left hi] at h
  exact h.2

/-- The rest of a string is a string. -/
theorem StringAt.drop (h : StringAt mem path l) {i : ℕ} (hi : i ≤ l.length) :
    StringAt mem (path + i) (l.drop i) where
  bytes := h.bytes.drop hi
  zero := by
    rw [List.length_drop, show path + i + (l.length - i) = path + l.length by omega]
    exact h.zero
  nonzero hmem := h.nonzero (List.mem_of_mem_drop hmem)

/-- The message of a component that is looked up fits if the component leaves room for the rest. -/
theorem LooksUp.fits_iff (hpath : StringAt mem path l) (haddr : path + l.length < 4294967296)
    {res : Fin nrInode} {thisname namelen : ℕ}
    (h : LooksUp env k inode (fun i => mem (path + i)) s res thisname namelen t) :
    (lookupMessage namelen (path + thisname) ((t.inode res).iNum % 65536)).Fits mem ↔
      namelen + decimals ((t.inode res).iNum % 65536) ≤ 980 := by
  obtain ⟨pos, hhead, -⟩ := h.head
  obtain ⟨hsum, hle⟩ := hhead.within hpath
  refine lookupMessage_fits_iff (by omega) (hpath.drop (i := thisname) (by omega)) ?_
    (Nat.mod_lt _ (by omega))
  rw [List.length_drop]
  omega

/-- All messages of a run of `retain_inode_by_path` fit into the buffer exactly if each component
that is looked up leaves room for the rest of its message. -/
theorem path_messages_fit (hpath : StringAt mem path l) (haddr : path + l.length < 4294967296) :
    (∀ call, PathMessage env k mem path inode s call → call.Fits mem) ↔
      ∀ res thisname namelen t,
        LooksUp env k inode (fun i => mem (path + i)) s res thisname namelen t →
        namelen + decimals ((t.inode res).iNum % 65536) ≤ 980 := by
  constructor
  · intro hfits res thisname namelen t hlooks
    exact (hlooks.fits_iff hpath haddr).mp (hfits _ (.lookup hlooks))
  · intro hroom call hcall
    cases hcall with
    | lookup hlooks => exact (hlooks.fits_iff hpath haddr).mpr (hroom _ _ _ _ hlooks)
    | other hother => exact hother.fits

/-- A letter of the path is counted. -/
theorem pathRound_letter {pathname : ℕ → UInt8} (res : Fin nrInode) (thisname namelen : ℕ) {pos : ℕ}
    (hend : pathname pos ≠ 0) (hslash : pathname pos ≠ 0x2F) :
    pathRound inode pathname res thisname namelen pos env k t =
      .ok (.inl (res, thisname, namelen + 1, pos + 1)) t := by
  unfold pathRound
  rw [ite_run, if_neg hend, ite_run, if_pos hslash]
  rfl

/-- The letters in front of the first slash are read. -/
theorem PathHead.letters {pathname : ℕ → UInt8} {count : ℕ} (hcount : 0 < count)
    (hletters : ∀ i < count, pathname i ≠ 0 ∧ pathname i ≠ 0x2F) :
    PathHead env k inode pathname s inode 0 count count (s.inodeUp inode) := by
  have hread : ∀ len ≤ count,
      PathHead env k inode pathname s inode 0 len len (s.inodeUp inode) := by
    intro len
    induction len with
    | zero =>
        intro _
        have hstart : PathHead env k inode pathname s inode (if pathname 0 = 0x2F then 1 else 0) 0
            (if pathname 0 = 0x2F then 1 else 0) (s.inodeUp inode) := .start (hletters 0 hcount).1
        rwa [if_neg (hletters 0 hcount).2] at hstart
    | succ len ih =>
        intro hlen
        obtain ⟨hend, hslash⟩ := hletters len (by omega)
        exact .next (ih (by omega)) (pathRound_letter _ _ _ hend hslash)
  exact hread count (le_refl _)

end Path

/-- The root directory of a device, which is held once. -/
def heldRoot : Sys 1 :=
  heldFile.setInode 0 fun x => { x with iMode := 0x41ED, iNum := 1 }

/-- The memory that begins with a component of `count` letters, and a slash. -/
def lettersSlash (count i : ℕ) : UInt8 := if i < count then 0x61 else if i = count then 0x2F else 0

theorem lettersSlash_string (count : ℕ) :
    StringAt (lettersSlash count) 0 (List.replicate count 0x61 ++ [0x2F]) where
  bytes := BytesAt.of_get fun i hi => by
    rw [List.length_append, List.length_replicate, List.length_singleton] at hi
    unfold lettersSlash
    rw [Nat.zero_add]
    by_cases hlt : i < count
    · rw [if_pos hlt, List.getElem_append_left (by simpa), List.getElem_replicate]
    · obtain rfl : i = count := by omega
      simp
  zero := by simp [lettersSlash]
  nonzero := by
    rw [List.mem_append, List.mem_replicate, List.mem_singleton]
    rintro (⟨-, h⟩ | h)
    · exact absurd h (by decide)
    · exact absurd h (by decide)

theorem lettersSlash_looksUp {count : ℕ} (hcount : 0 < count) :
    LooksUp (Env.diligent 0x50) 20 0 (fun i => lettersSlash count (0 + i)) heldRoot 0 0 count
      (heldRoot.inodeUp 0) where
  head := by
    refine ⟨count, PathHead.letters hcount fun i hi => ?_, ?_⟩
    · have hbyte : lettersSlash count (0 + i) = 0x61 := by simp [lettersSlash, hi]
      rw [hbyte]
      decide
    · simp [lettersSlash]
  directory := by decide

theorem decimals_short {num : ℕ} (hnum : num < 65536) : decimals num ≤ 5 := by
  have hlen : (Nat.digits 10 num).length ≤ 5 :=
    (Nat.digits_length_le_iff (by decide) num).mpr (hnum.trans (by decide))
  exact max_le (by decide) hlen

/-- A component of one letter is looked up in the root directory, and every message fits. -/
theorem path_messages_fit_root :
    (∃ res thisname namelen t,
      LooksUp (Env.diligent 0x50) 20 0 (fun i => lettersSlash 1 (0 + i)) heldRoot
      res thisname namelen t) ∧
    ∀ call, PathMessage (Env.diligent 0x50) 20 (lettersSlash 1) 0 0 heldRoot call →
      call.Fits (lettersSlash 1) := by
  refine ⟨⟨0, 0, 1, _, lettersSlash_looksUp (by decide)⟩, ?_⟩
  refine (path_messages_fit (lettersSlash_string 1)
    (by decide)).mpr fun res thisname namelen t hlooks => ?_
  obtain ⟨pos, hhead, -⟩ := hlooks.head
  obtain ⟨hsum, hle⟩ := hhead.within (lettersSlash_string 1)
  have hdigits : decimals ((t.inode res).iNum % 65536) ≤ 5 := decimals_short
    (Nat.mod_lt _ (by decide))
  simp only [List.length_append, List.length_replicate, List.length_singleton] at hle
  omega

/-- A component of 1000 letters makes `vsprintf` write 1045 bytes. -/
theorem long_component_overflows :
    ¬ ∀ (env : Env 1) (k : ℕ) (mem : ℕ → UInt8) (path : ℕ) (l : List UInt8) (inode : Fin nrInode)
      (s : Sys 1), StringAt mem path l → path + l.length < 4294967296 →
      ∀ call, PathMessage env k mem path inode s call → call.Fits mem := by
  intro hall
  have hlooks := lettersSlash_looksUp (by decide : 0 < 1000)
  have haddr : 0 + (List.replicate 1000 (0x61 : UInt8) ++ [0x2F]).length < 4294967296 := by
    rw [List.length_append, List.length_replicate, List.length_singleton]
    omega
  have hfits := hall _ _ _ 0 _ _ _ (lettersSlash_string 1000) haddr _ (.lookup hlooks)
  have hroom := (hlooks.fits_iff (lettersSlash_string 1000) haddr).mp hfits
  have hdigit : 1 ≤ decimals (((heldRoot.inodeUp 0).inode 0).iNum % 65536) := le_max_left _ _
  omega

end EgGS
