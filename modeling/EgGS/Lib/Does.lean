import EgGS.Lib.Prog

/-!
# Total and partial correctness

`Does m e s Q` says that `m` returns from the state `s`, with a result and in a state that
satisfy `Q`; `Ensures m e s Q` says so of the runs that return.  The rules follow the
programs: sequences, branches, and loops over lists.
-/

namespace EgGS.Lib

variable {ε σ α β : Type}

namespace Prog

variable {e : ε} {s : σ} {Q : α → σ → Prop}

/-- With enough fuel `m` returns, with a result and in a state that satisfy `Q`. -/
def Does (m : Prog ε σ α) (e : ε) (s : σ) (Q : α → σ → Prop) : Prop :=
  ∃ a s', Evals m e s a s' ∧ Q a s'

theorem Evals.does {m : Prog ε σ α} {a : α} {s' : σ} (h : Evals m e s a s') (hQ : Q a s') :
    Does m e s Q :=
  ⟨a, s', h, hQ⟩

/-- A program that returns does what all its runs do. -/
theorem Returns.does {m : Prog ε σ α} (h : Returns m e s)
    (hQ : ∀ k a s', m e k s = .ok a s' → Q a s') : Does m e s Q := by
  obtain ⟨a, s', heval⟩ := h
  obtain ⟨k, hk⟩ := heval.exists_run
  exact ⟨a, s', heval, hQ k a s' hk⟩

/-- What a program does may be told from its runs. -/
theorem Does.also {m : Prog ε σ α} {R : α → σ → Prop} (h : Does m e s R)
    (hQ : ∀ k a s', m e k s = .ok a s' → R a s' → Q a s') : Does m e s Q := by
  obtain ⟨a, s', heval, hR⟩ := h
  obtain ⟨k, hk⟩ := heval.exists_run
  exact ⟨a, s', heval, hQ k a s' hk hR⟩

theorem Does.returns {m : Prog ε σ α} (h : Does m e s Q) : Returns m e s := by
  obtain ⟨a, s', heval, -⟩ := h
  exact ⟨a, s', heval⟩

theorem Does.mono {m : Prog ε σ α} {R : α → σ → Prop} (h : Does m e s R)
    (hQ : ∀ a s', R a s' → Q a s') : Does m e s Q := by
  obtain ⟨a, s', heval, hR⟩ := h
  exact ⟨a, s', heval, hQ a s' hR⟩

/-- A program that returns the same in every run. -/
theorem Evals.does_iff {m : Prog ε σ α} {a : α} {s' : σ} (h : Evals m e s a s') :
    Does m e s Q ↔ Q a s' := by
  refine ⟨fun hdoes => ?_, h.does⟩
  obtain ⟨b, t, heval, hQ⟩ := hdoes
  obtain ⟨rfl, rfl⟩ := h.unique heval
  exact hQ

/-- Only what the runs of the program return matters. -/
theorem Does.congr {m : Prog ε σ α} {R : α → σ → Prop}
    (h : ∀ k a s', m e k s = .ok a s' → (Q a s' ↔ R a s')) : Does m e s Q ↔ Does m e s R := by
  constructor
  · exact fun hdoes => hdoes.also fun k a s' hrun hQ => (h k a s' hrun).mp hQ
  · exact fun hdoes => hdoes.also fun k a s' hrun hR => (h k a s' hrun).mpr hR

theorem Does.pure {a : α} (h : Q a s) : Does (pure a) e s Q :=
  (Evals.of_eq fun _ => rfl).does h

theorem Does.update {f : σ → σ} {Q : Unit → σ → Prop} (h : Q () (f s)) : Does (update f) e s Q :=
  (Evals.of_eq fun _ => rfl).does h

theorem Does.bind {m : Prog ε σ α} {f : α → Prog ε σ β} {R : α → σ → Prop} {Q : β → σ → Prop}
    (h : Does m e s R) (hf : ∀ a s', R a s' → Does (f a) e s' Q) : Does (m >>= f) e s Q := by
  obtain ⟨a, s', heval, hR⟩ := h
  obtain ⟨b, s'', heval', hQ⟩ := hf a s' hR
  exact ⟨b, s'', heval.bind heval', hQ⟩

/-- The state does not change between reading and using it. -/
theorem Does.bind_read {f : σ → Prog ε σ α} (h : Does (f s) e s Q) :
    Does (Prog.read >>= f) e s Q := h

theorem Does.bind_update {g : σ → σ} {f : Unit → Prog ε σ α} (h : Does (f ()) e (g s) Q) :
    Does (Prog.update g >>= f) e s Q := h

theorem Does.ite {c : Prop} [Decidable c] {m m' : Prog ε σ α} (h : c → Does m e s Q)
    (h' : ¬ c → Does m' e s Q) : Does (if c then m else m') e s Q := by
  by_cases hc : c
  · rw [if_pos hc]
    exact h hc
  · rw [if_neg hc]
    exact h' hc

/-- A loop over a list; the invariant may speak of the elements that are still to come. -/
theorem Does.forEach {body : β → Prog ε σ Unit} {I : List β → σ → Prop}
    (hbody : ∀ b bs s, I (b :: bs) s → Does (body b) e s fun _ s' => I bs s') :
    ∀ (bs : List β) (s : σ), I bs s → Does (forEach bs body) e s fun _ s' => I [] s'
  | [], _, h => .pure h
  | b :: bs, s, h => (hbody b bs s h).bind fun _ s' h' => Does.forEach hbody bs s' h'

/-- A loop that is left in its first round. -/
theorem Does.iterate {body : β → Prog ε σ (β ⊕ α)} {b : β}
    (h : Does (body b) e s fun x s' => ∃ a, x = .inr a ∧ Q a s') : Does (iterate body b) e s Q := by
  obtain ⟨x, s', heval, a, rfl, hQ⟩ := h
  exact (LoopEnds.done heval).evals.does hQ

/-- The rest of a loop ends, with a result and in a state that satisfy `Q`. -/
def LoopDoes (body : β → Prog ε σ (β ⊕ α)) (e : ε) (b : β) (s : σ) (Q : α → σ → Prop) : Prop :=
  ∃ a s', LoopEnds body e b s (.ok a s') ∧ Q a s'

/-- One more round of a loop. -/
theorem LoopDoes.step {body : β → Prog ε σ (β ⊕ α)} {b : β}
    (h : Does (body b) e s fun x s' => ∃ b', x = .inl b' ∧ LoopDoes body e b' s' Q) :
    LoopDoes body e b s Q := by
  obtain ⟨x, s', heval, b', rfl, a, s'', hrest, hQ⟩ := h
  exact ⟨a, s'', .step heval hrest, hQ⟩

/-- The last round of a loop. -/
theorem LoopDoes.done {body : β → Prog ε σ (β ⊕ α)} {b : β}
    (h : Does (body b) e s fun x s' => ∃ a, x = .inr a ∧ Q a s') : LoopDoes body e b s Q := by
  obtain ⟨x, s', heval, a, rfl, hQ⟩ := h
  exact ⟨a, s', .done heval, hQ⟩

theorem LoopDoes.does {body : β → Prog ε σ (β ⊕ α)} {b : β} (h : LoopDoes body e b s Q) :
    Does (iterate body b) e s Q := by
  obtain ⟨a, s', hends, hQ⟩ := h
  exact hends.evals.does hQ

/-! ## Runs that return -/

/-- Every run of `m` that returns does so with a result and in a state that satisfy `Q`. -/
def Ensures (m : Prog ε σ α) (e : ε) (s : σ) (Q : α → σ → Prop) : Prop :=
  ∀ k a s', m e k s = .ok a s' → Q a s'

theorem Ensures.mono {m : Prog ε σ α} {R : α → σ → Prop} (h : Ensures m e s R)
    (hQ : ∀ a s', R a s' → Q a s') : Ensures m e s Q :=
  fun k a s' hrun => hQ a s' (h k a s' hrun)

theorem Ensures.pure {a : α} (h : Q a s) : Ensures (pure a) e s Q := by
  intro k b s' hrun
  simp only [pure_run, Res.ok.injEq] at hrun
  obtain ⟨rfl, rfl⟩ := hrun
  exact h

theorem Ensures.update {f : σ → σ} {Q : Unit → σ → Prop} (h : Q () (f s)) :
    Ensures (update f) e s Q := by
  intro k u s' hrun
  simp only [update_run, Res.ok.injEq, true_and] at hrun
  exact hrun ▸ h

/-- A program that stops does not return. -/
theorem Ensures.halt (why : Stop) : Ensures (halt why) e s Q := by
  intro k a s' hrun
  simp at hrun

theorem Ensures.bind {m : Prog ε σ α} {f : α → Prog ε σ β} {R : α → σ → Prop} {Q : β → σ → Prop}
    (h : Ensures m e s R) (hf : ∀ a s', R a s' → Ensures (f a) e s' Q) :
    Ensures (m >>= f) e s Q := by
  intro k b s'' hrun
  obtain ⟨a, s', hfirst, hrest⟩ := bind_eq_ok.mp hrun
  exact hf a s' (h k a s' hfirst) k b s'' hrest

theorem Ensures.bind_read {f : σ → Prog ε σ α} (h : Ensures (f s) e s Q) :
    Ensures (Prog.read >>= f) e s Q := fun k a s' hrun => h k a s' hrun

theorem Ensures.bind_update {g : σ → σ} {f : Unit → Prog ε σ α} (h : Ensures (f ()) e (g s) Q) :
    Ensures (Prog.update g >>= f) e s Q := fun k a s' hrun => h k a s' hrun

theorem Ensures.ite {c : Prop} [Decidable c] {m m' : Prog ε σ α} (h : c → Ensures m e s Q)
    (h' : ¬ c → Ensures m' e s Q) : Ensures (if c then m else m') e s Q := by
  by_cases hc : c
  · rw [if_pos hc]
    exact h hc
  · rw [if_neg hc]
    exact h' hc

/-- A loop keeps an invariant of its rounds. -/
theorem Ensures.iterate {body : β → Prog ε σ (β ⊕ α)} {I : β → σ → Prop} {b : β}
    (hbody : ∀ b s, I b s → Ensures (body b) e s fun x s' => match x with
      | .inl b' => I b' s'
      | .inr a => Q a s') (h : I b s) : Ensures (iterate body b) e s Q := fun k _ _ hrun =>
  iterate_ensures (fun b s _ s' hI hround => hbody b s hI k _ s' hround)
    (fun b s _ s' hI hround => hbody b s hI k _ s' hround) h hrun

end Prog

end EgGS.Lib
