import EgGS.Model.Irq

/-!
# Interrupts reach their routines

What `irq.c` and the two controllers are for, as one set of pending lines and one table: a line
that is raised stays pending until it is served, the pending lines are served in a fixed order, and
the routine that is called is the one installed last.  `interrupts_dispatched` says that the code
does this along every run, once `irq_remap` has set the controllers up.
-/

namespace EgGS

variable {ρ : Type}

/-! ## The pending lines -/

/-- The pending lines and the routines. -/
structure Lines (ρ : Type) where
  pending : Finset (Fin 16)
  routine : Fin 16 → Option ρ

/-- The order in which lines are served: those of the second controller stand where its line is. -/
def servedOrder : List (Fin 16) := [0, 1, 8, 9, 10, 11, 12, 13, 14, 15, 3, 4, 5, 6, 7]

namespace Lines

/-- The pending line that is served next. -/
def next (a : Lines ρ) : Option (Fin 16) := servedOrder.find? (· ∈ a.pending)

/-- One event, with the line that is served and its routine. -/
def event (a : Lines ρ) : IrqEvent ρ → List (Fin 16 × Option ρ) × Lines ρ
  | .raise line => ([], { a with pending := insert line a.pending })
  | .install irq handler => ([], { a with routine := Function.update a.routine irq (some handler) })
  | .uninstall irq => ([], { a with routine := Function.update a.routine irq none })
  | .interrupt =>
    match a.next with
    | none => ([], a)
    | some k => ([(k, a.routine k)], { a with pending := a.pending.erase k })

/-- A run of events, with the lines that are served. -/
def run (a : Lines ρ) : List (IrqEvent ρ) → List (Fin 16 × Option ρ) × Lines ρ
  | [] => ([], a)
  | e :: es => ((a.event e).1 ++ ((a.event e).2.run es).1, ((a.event e).2.run es).2)

/-! ## The controllers hold the pending lines -/

/-- A controller with no line in service. -/
def idle (base : ℕ) (cascade : BitVec 8) (irr : Finset (Fin 8)) : Pic :=
  ⟨irr, ∅, ∅, base, cascade, .mask, false, true, false⟩

/-- The line of the first controller. -/
def low (i : Fin 8) : Fin 16 := ⟨i, by omega⟩

/-- The line of the second controller. -/
def high (i : Fin 8) : Fin 16 := ⟨i + 8, by omega⟩

/-- The pending lines of the first controller. -/
def lows (pending : Finset (Fin 16)) : Finset (Fin 8) := Finset.univ.filter (low · ∈ pending)

/-- The pending lines of the second controller. -/
def highs (pending : Finset (Fin 16)) : Finset (Fin 8) := Finset.univ.filter (high · ∈ pending)

/-- The state of the code that holds some pending lines. -/
def state (a : Lines ρ) : IrqState ρ where
  master := idle 32 0x04 (lows a.pending)
  slave := idle 40 0x02 (highs a.pending)
  routines := a.routine

@[simp] theorem mem_lows {pending : Finset (Fin 16)} {i : Fin 8} :
    i ∈ lows pending ↔ low i ∈ pending := by
  simp [lows]

@[simp] theorem mem_highs {pending : Finset (Fin 16)} {i : Fin 8} :
    i ∈ highs pending ↔ high i ∈ pending := by
  simp [highs]

@[simp] theorem low_inj {i j : Fin 8} : low i = low j ↔ i = j := by simp [low, Fin.ext_iff]

@[simp] theorem high_inj {i j : Fin 8} : high i = high j ↔ i = j := by simp [high, Fin.ext_iff]

@[simp] theorem low_ne_high (i j : Fin 8) : low i ≠ high j := by
  simp only [low, high, ne_eq, Fin.mk.injEq]
  omega

@[simp] theorem high_ne_low (i j : Fin 8) : high i ≠ low j := (low_ne_high j i).symm

/-- Each line belongs to one of the controllers. -/
theorem low_or_high (line : Fin 16) : (∃ i, low i = line) ∨ ∃ j, high j = line := by
  by_cases hline : line.val < 8
  · exact .inl ⟨⟨line, hline⟩, rfl⟩
  · exact .inr ⟨⟨line - 8, by omega⟩, Fin.ext (by simp only [high]; omega)⟩

theorem idle_output (base : ℕ) (cascade : BitVec 8) (irr lines : Finset (Fin 8)) :
    (idle base cascade irr).output lines = firstLine lines := by
  simp [Pic.output, idle, firstLine]

theorem firstLine_singleton (i : Fin 8) : firstLine {i} = some i := by
  revert i
  decide

/-- The end of an interrupt undoes its start, but for the request. -/
theorem idle_served (base : ℕ) (cascade : BitVec 8) (irr : Finset (Fin 8)) (i : Fin 8) :
    ((idle base cascade irr).serve i).command 0x20 = idle base cascade (irr.erase i) := by
  simp [Pic.command, Pic.serve, idle, firstLine_singleton]

/-- The four command words and the mask set a controller up. -/
theorem pic_initialised {p : Pic} (hisr : p.isr = ∅) (base cascade : BitVec 8) :
    ((((p.command 0x11).data base).data cascade).data 0x01).data 0x0 =
      idle (base &&& 0xF8).toNat cascade ∅ := by
  have hcommand : p.command 0x11 = ⟨∅, p.isr, ∅, p.base, p.cascade, .icw2, false, true, false⟩ :=
    rfl
  rw [hcommand, hisr]
  simp [Pic.data, Pic.afterIcw3, idle]

/-- `irq_remap` leaves no line requested, in service or masked. -/
theorem irqRemap_state (s : IrqState ρ) (hmaster : s.master.isr = ∅) (hslave : s.slave.isr = ∅) :
    irqRemap s = state ⟨∅, s.routines⟩ := by
  have hlow : lows ∅ = ∅ := by ext; simp
  have hhigh : highs ∅ = ∅ := by ext; simp
  have hremap : irqRemap s =
      { s with
        master := ((((s.master.command 0x11).data 0x20).data 0x04).data 0x01).data 0x0
        slave := ((((s.slave.command 0x11).data 0x28).data 0x02).data 0x01).data 0x0 } := rfl
  rw [hremap, pic_initialised hmaster, pic_initialised hslave, state, hlow, hhigh]
  rfl

theorem raiseLine_low (i : Fin 8) (s : IrqState ρ) :
    raiseLine (low i) s = { s with master := { s.master with irr := insert i s.master.irr } } := by
  simp [raiseLine, low]

theorem raiseLine_high (j : Fin 8) (s : IrqState ρ) :
    raiseLine (high j) s = { s with slave := { s.slave with irr := insert j s.slave.irr } } := by
  simp [raiseLine, high]

/-- A device that raises its line makes it pending. -/
theorem raiseLine_state (a : Lines ρ) (line : Fin 16) :
    raiseLine line a.state = state { a with pending := insert line a.pending } := by
  obtain ⟨i, rfl⟩ | ⟨j, rfl⟩ := low_or_high line
  · have hlow : insert i (lows a.pending) = lows (insert (low i) a.pending) := by ext; simp
    have hhigh : highs a.pending = highs (insert (low i) a.pending) := by ext; simp
    simp [raiseLine_low, state, idle, hlow, ← hhigh]
  · have hlow : lows a.pending = lows (insert (high j) a.pending) := by ext; simp
    have hhigh : insert j (highs a.pending) = highs (insert (high j) a.pending) := by ext; simp
    simp [raiseLine_high, state, idle, ← hlow, hhigh]

/-! ## Taking an interrupt -/

/-- Serving a line of the first controller. -/
theorem state_low (a : Lines ρ) (i : Fin 8) :
    { a.state with master := idle 32 0x04 ((lows a.pending).erase i) } =
      state { a with pending := a.pending.erase (low i) } := by
  have hlow : (lows a.pending).erase i = lows (a.pending.erase (low i)) := by ext; simp
  have hhigh : highs a.pending = highs (a.pending.erase (low i)) := by ext; simp
  simp [state, hlow, ← hhigh]

theorem two_notMem_lows {pending : Finset (Fin 16)} (htwo : 2 ∉ pending) : 2 ∉ lows pending :=
  fun hmem => htwo (mem_lows.mp hmem)

/-- Serving a line of the second controller. -/
theorem state_high (a : Lines ρ) (htwo : 2 ∉ a.pending) (j : Fin 8) :
    { a.state with
      master := idle 32 0x04 ((lows a.pending).erase 2)
      slave := idle 40 0x02 ((highs a.pending).erase j) } =
      state { a with pending := a.pending.erase (high j) } := by
  have hlow : (lows a.pending).erase 2 = lows (a.pending.erase (high j)) := by
    rw [Finset.erase_eq_of_notMem (two_notMem_lows htwo)]
    ext
    simp
  have hhigh : (highs a.pending).erase j = highs (a.pending.erase (high j)) := by ext; simp
  simp [state, hlow, hhigh]

/-- The order of the lines, by controller. -/
theorem servedOrder_eq : servedOrder =
    ([0, 1] : List (Fin 8)).map low ++ ((List.finRange 8).map high ++ [3, 4, 5, 6, 7].map low) := by
  decide

/-- The line that is served next, by controller. -/
theorem next_eq (a : Lines ρ) : a.next =
    (([0, 1].find? (· ∈ lows a.pending)).map low).or
      (((firstLine (highs a.pending)).map high).or
        (([3, 4, 5, 6, 7].find? (· ∈ lows a.pending)).map low)) := by
  simp only [next, servedOrder_eq, List.find?_append, List.find?_map, firstLine, Function.comp_def,
    mem_lows, mem_highs]

theorem master_output (a : Lines ρ) (lines : Finset (Fin 8)) :
    a.state.master.output lines = firstLine lines := idle_output ..

theorem masterLines_state (a : Lines ρ) : masterLines a.state =
    if (firstLine (highs a.pending)).isSome then insert 2 (lows a.pending) else lows a.pending := by
  simp only [masterLines, state, idle_output]
  rfl

/-- The line that the first controller asks for. -/
theorem firstLine_masterLines (a : Lines ρ) (htwo : 2 ∉ a.pending) :
    firstLine (masterLines a.state) =
      ([0, 1].find? (· ∈ lows a.pending)).or
        ((if (firstLine (highs a.pending)).isSome then some 2 else none).or
          ([3, 4, 5, 6, 7].find? (· ∈ lows a.pending))) := by
  have hrange : List.finRange 8 = [0, 1] ++ ([2] ++ [3, 4, 5, 6, 7]) := by decide
  have hlow := two_notMem_lows htwo
  rw [firstLine, hrange, List.find?_append, List.find?_append, masterLines_state]
  -- line 2 is among the lines of the first controller exactly if the second one asks
  by_cases hslave : (firstLine (highs a.pending)).isSome
  · rw [if_pos hslave, if_pos hslave]
    simp only [List.find?_cons, List.find?_nil, Finset.mem_insert, Fin.reduceEq, false_or, true_or,
      decide_true]
  · rw [if_neg hslave, if_neg hslave]
    simp only [List.find?_cons, List.find?_nil, hlow, decide_false]

/-- Only on line 2 does the first controller leave the number to the second. -/
theorem cascade_bit (i : Fin 8) : (0x04#8).getLsbD i = decide (i = 2) := by
  revert i
  decide

theorem acknowledge_low {a : Lines ρ} {i : Fin 8} (hline : firstLine (masterLines a.state) = some i)
    (hi : i ≠ 2) : acknowledge a.state =
      some (32 + i.val, { a.state with master := (idle 32 0x04 (lows a.pending)).serve i }) := by
  have hout : a.state.master.output (masterLines a.state) = some i := by rw [master_output, hline]
  have hcascade : a.state.master.cascade.getLsbD i = false := by
    rw [show a.state.master.cascade = 0x04#8 from rfl, cascade_bit]
    exact decide_eq_false hi
  simp only [acknowledge, hout, hcascade]
  rfl

theorem acknowledge_high {a : Lines ρ} {j : Fin 8}
    (hline : firstLine (masterLines a.state) = some 2)
    (hj : firstLine (highs a.pending) = some j) : acknowledge a.state =
      some (40 + j.val, { a.state with
        master := (idle 32 0x04 (lows a.pending)).serve 2
        slave := (idle 40 0x02 (highs a.pending)).serve j }) := by
  have hout : a.state.master.output (masterLines a.state) = some 2 := by rw [master_output, hline]
  have hslave : a.state.slave.output a.state.slave.irr = some j := (idle_output ..).trans hj
  have hcascade : a.state.master.cascade.getLsbD (2 : Fin 8).val = true := cascade_bit 2
  have hnumber : (a.state.slave.cascade.setWidth 3).toNat = (2 : Fin 8).val := by
    change ((0x02#8).setWidth 3).toNat = 2
    decide
  simp only [acknowledge, hout, hslave, if_pos hcascade, if_pos hnumber]
  rfl

/-- `irq_handler` ends the interrupt of a line of the first controller and calls its routine. -/
theorem irqHandler_low (a : Lines ρ) (i : Fin 8) :
    irqHandler (32 + i.val) { a.state with master := (idle 32 0x04 (lows a.pending)).serve i } =
      some (a.routine (low i), state { a with pending := a.pending.erase (low i) }) := by
  have hmaster : ¬ 32 + i.val ≥ 40 := by omega
  have hrange : 32 ≤ 32 + i.val ∧ 32 + i.val - 32 < 16 := by omega
  have hindex : (⟨32 + i.val - 32, hrange.2⟩ : Fin 16) = low i := Fin.ext (by simp [low])
  simp only [irqHandler, if_neg hmaster, dif_pos hrange, hindex, picOutb, if_pos, idle_served,
    state_low]
  rfl

/-- `irq_handler` ends the interrupt of a line of the second controller at both, and calls its
routine. -/
theorem irqHandler_high (a : Lines ρ) (htwo : 2 ∉ a.pending) (j : Fin 8) :
    irqHandler (40 + j.val) { a.state with
        master := (idle 32 0x04 (lows a.pending)).serve 2
        slave := (idle 40 0x02 (highs a.pending)).serve j } =
      some (a.routine (high j), state { a with pending := a.pending.erase (high j) }) := by
  have hslave : 40 + j.val ≥ 40 := by omega
  have hrange : 32 ≤ 40 + j.val ∧ 40 + j.val - 32 < 16 := by omega
  have hindex : (⟨40 + j.val - 32, hrange.2⟩ : Fin 16) = high j :=
    Fin.ext (by simp only [high]; omega)
  simp only [irqHandler, if_pos hslave, dif_pos hrange, hindex, picOutb, idle_served,
    Nat.reduceEqDiff, if_true, if_false, ← state_high a htwo j]
  rfl

/-- What the first controller asks for is the line that is served next, or stands for it. -/
theorem next_cases (a : Lines ρ) (htwo : 2 ∉ a.pending) :
    (∃ i, i ≠ 2 ∧ firstLine (masterLines a.state) = some i ∧ a.next = some (low i)) ∨
    (∃ j, firstLine (masterLines a.state) = some 2 ∧ firstLine (highs a.pending) = some j ∧
      a.next = some (high j)) ∨
    (firstLine (masterLines a.state) = none ∧ a.next = none) := by
  rw [firstLine_masterLines a htwo, next_eq]
  cases hfirst : [0, 1].find? (· ∈ lows a.pending) with
  | some i =>
      refine .inl ⟨i, ?_, rfl, rfl⟩
      rintro rfl
      simpa using List.mem_of_find?_eq_some hfirst
  | none =>
      cases hslave : firstLine (highs a.pending) with
      | some j => exact .inr (.inl ⟨j, rfl, rfl, rfl⟩)
      | none =>
          cases hlast : [3, 4, 5, 6, 7].find? (· ∈ lows a.pending) with
          | some i =>
              refine .inl ⟨i, ?_, rfl, rfl⟩
              rintro rfl
              simpa using List.mem_of_find?_eq_some hlast
          | none => exact .inr (.inr ⟨rfl, rfl⟩)

/-- A line that is served, as the interrupt that the processor takes. -/
def number (r : Fin 16 × Option ρ) : ℕ × Option ρ := (32 + r.1.val, r.2)

/-- Taking an interrupt and entering `irq_handler` serves the next pending line. -/
theorem interrupt_state (a : Lines ρ) (htwo : 2 ∉ a.pending) : a.state.event .interrupt =
    some ((a.event .interrupt).1.map number, (a.event .interrupt).2.state) := by
  obtain ⟨i, hi, hline, hnext⟩ | ⟨j, hline, hj, hnext⟩ | ⟨hline, hnext⟩ := next_cases a htwo
  · simp only [IrqState.event, acknowledge_low hline hi, irqHandler_low, event, hnext]
    rfl
  · have hnumber : 32 + (high j).val = 40 + j.val := by
      simp only [high]
      omega
    simp only [IrqState.event, acknowledge_high hline hj, irqHandler_high a htwo, event, hnext,
      List.map_cons, List.map_nil, number, hnumber]
  · have hout : a.state.master.output (masterLines a.state) = none := by rw [master_output, hline]
    simp only [IrqState.event, acknowledge, hout, event, hnext]
    rfl

/-! ## Runs -/

theorem event_state (a : Lines ρ) (htwo : 2 ∉ a.pending) (e : IrqEvent ρ) :
    a.state.event e = some ((a.event e).1.map number, (a.event e).2.state) := by
  cases e with
  | raise line =>
      simp only [IrqState.event, raiseLine_state]
      rfl
  | install irq handler => rfl
  | uninstall irq => rfl
  | interrupt => exact interrupt_state a htwo

/-- Only a device makes a line pending. -/
theorem event_pending {a : Lines ρ} {e : IrqEvent ρ} {k : Fin 16} (hk : k ∉ a.pending)
    (he : e ≠ .raise k) :
    k ∉ (a.event e).2.pending := by
  cases e with
  | raise line =>
      have hline : k ≠ line := by
        rintro rfl
        exact he rfl
      simp [event, hk, hline]
  | install irq handler => exact hk
  | uninstall irq => exact hk
  | interrupt =>
      cases hnext : a.next with
      | none => simpa only [event, hnext] using hk
      | some line =>
          simp only [event, hnext]
          exact fun hmem => hk (Finset.mem_of_mem_erase hmem)

/-- The code follows the pending lines along every run. -/
theorem run_state (es : List (IrqEvent ρ)) : ∀ a : Lines ρ, 2 ∉ a.pending → .raise 2 ∉ es →
    a.state.run es = some ((a.run es).1.map number, (a.run es).2.state) := by
  induction es with
  | nil =>
      intro a _ _
      rfl
  | cons e es ih =>
      intro a htwo hes
      -- line 2 stays free, so the next state is again one that holds pending lines
      have he : e ≠ .raise 2 := fun h => hes (h ▸ List.mem_cons_self)
      have htail := ih (a.event e).2 (event_pending htwo he) fun h => hes (List.mem_cons_of_mem e h)
      simp only [IrqState.run, event_state a htwo e, htail, run, List.map_append]
      rfl

/-- The pending lines, in the order in which they are served. -/
def queue (a : Lines ρ) : List (Fin 16) := servedOrder.filter (· ∈ a.pending)

theorem next_head (a : Lines ρ) : a.next = a.queue.head? := List.head?_filter.symm

/-- Serving a line takes it off the queue. -/
theorem queue_interrupt {a : Lines ρ} {k : Fin 16} {rest : List (Fin 16)}
    (hqueue : a.queue = k :: rest) :
    queue { a with pending := a.pending.erase k } = rest := by
  have hnodup : a.queue.Nodup := List.Nodup.filter _ (by decide)
  have herase : queue { a with pending := a.pending.erase k } = a.queue.erase k := by
    rw [hnodup.erase_eq_filter, queue, queue, List.filter_filter]
    refine List.filter_congr fun line _ => ?_
    by_cases hline : line = k <;> simp [hline]
  rw [herase, hqueue, List.erase_cons_head]

/-- `n` interrupts serve the first `n` lines of the queue. -/
theorem run_interrupts (n : ℕ) : ∀ a : Lines ρ,
    (a.run (List.replicate n .interrupt)).1 = (a.queue.take n).map fun k => (k, a.routine k) := by
  induction n with
  | zero =>
      intro a
      rfl
  | succ n ih =>
      intro a
      have hnext := a.next_head
      rw [List.replicate_succ, run]
      cases hqueue : a.queue with
      | nil =>
          -- nothing is pending: all further interrupts find nothing either
          have hstop : a.event .interrupt = ([], a) := by simp only [event, hnext, hqueue]; rfl
          rw [hstop, ih a, hqueue, List.take_nil, List.take_nil]
          rfl
      | cons k rest =>
          have hserve : a.event .interrupt =
              ([(k, a.routine k)], { a with pending := a.pending.erase k }) := by
            simp only [event, hnext, hqueue]
            rfl
          rw [hserve, ih, queue_interrupt hqueue]
          rfl

theorem run_pending {k : Fin 16} (es : List (IrqEvent ρ)) :
    ∀ a : Lines ρ, k ∉ a.pending → .raise k ∉ es → k ∉ (a.run es).2.pending := by
  induction es with
  | nil =>
      intro a hk _
      exact hk
  | cons e es ih =>
      intro a hk hes
      have he : e ≠ .raise k := fun h => hes (h ▸ List.mem_cons_self)
      exact ih _ (event_pending hk he) fun h => hes (List.mem_cons_of_mem e h)

end Lines

/-- **Interrupts reach their routines.**  From `irq_remap` on, whatever the order in which devices
raise their lines, routines are installed and interrupts are taken, the code takes the interrupts of
the pending lines in their order, under the numbers from 32 on, each with the routine installed
last; and no line that is pending in the end is lost: the next interrupts serve them all. -/
theorem interrupts_dispatched (s : IrqState ρ) (hmaster : s.master.isr = ∅)
    (hslave : s.slave.isr = ∅) (es : List (IrqEvent ρ)) (hes : .raise 2 ∉ es) :
    let a := (Lines.run ⟨∅, s.routines⟩ es).2
    (irqRemap s).run es = some ((Lines.run ⟨∅, s.routines⟩ es).1.map Lines.number, a.state) ∧
    ∀ n, (a.state.run (List.replicate n .interrupt)).map (·.1) =
      some ((a.queue.take n).map fun k => (32 + k.val, a.routine k)) := by
  intro a
  have hnone : 2 ∉ (⟨∅, s.routines⟩ : Lines ρ).pending := Finset.notMem_empty 2
  constructor
  · rw [Lines.irqRemap_state s hmaster hslave]
    exact Lines.run_state es _ hnone hes
  · intro n
    have htwo : 2 ∉ a.pending := Lines.run_pending es _ hnone hes
    have hother : IrqEvent.raise 2 ∉ List.replicate n (IrqEvent.interrupt : IrqEvent ρ) := by
      intro hmem
      cases List.eq_of_mem_replicate hmem
    rw [Lines.run_state _ a htwo hother, Lines.run_interrupts n a, Option.map_some, List.map_map]
    rfl

/-- A controller before it is set up. -/
def Pic.reset : Pic := ⟨∅, ∅, ∅, 0, 0, .mask, false, false, false⟩

theorem interrupts_dispatched_disk :
    ((irqRemap (⟨.reset, .reset, fun _ => none⟩ : IrqState String)).run
      [.install 14 "read_intr", .raise 4, .raise 14, .interrupt, .install 14 "write_intr",
        .raise 14, .interrupt]).map (·.1) =
      some [(46, some "read_intr"), (46, some "write_intr")] :=
  congrArg (Option.map (·.1))
    (interrupts_dispatched (⟨.reset, .reset, fun _ => none⟩ : IrqState String) rfl rfl _
      (by simp)).1

end EgGS
