import Mathlib.Logic.Relation
import Mathlib.Order.Lattice
import Mathlib.Order.RelClasses
import Mathlib.Tactic.Common

/-!
# Programs over a state, with halting and unbounded loops

A `Prog ε σ α` is an imperative program that reads an environment `ε`, works on a
state `σ` and returns an `α`.  It may also stop for good, by a panic or by a
machine fault, and the state at which it stopped is kept.

Loops of the program text need not end, so every loop is run for at most `fuel`
rounds and a loop that is cut off stops with `Stop.spin`.  Partial correctness
speaks of the runs that return, whatever the fuel; the loop rules for it take an
invariant.  Five judgements are built on this.

* `Keeps F e m` is a frame condition: `m` does not change the part `F` of the
  state.
* `Traces step e m` says that every run of `m` that returns is a path of steps.
* `Evals m e s a s'` is total correctness: with enough fuel `m` returns `a` and
  `s'`, and more fuel changes nothing.
* `Settles m e s` is the absence of endless loops: with enough fuel `m` returns or
  stops for a reason of its own.
* `Avoids bad m e s` says that `m` does not stop for a reason in `bad`.
-/

namespace EgGS.Lib

/-- Why a program does not return. -/
inductive Stop where
  | panic (message : String)
  | fault (what : String)
  | spin
  deriving DecidableEq, Repr

/-- The outcome of a program: a value and the state after it, or the reason why
it stopped and the state at that moment. -/
inductive Res (σ α : Type) where
  | ok (a : α) (s : σ)
  | stop (why : Stop) (s : σ)

namespace Res

variable {σ α : Type}

/-- The value, if the program returned. -/
def value? : Res σ α → Option α
  | ok a _ => some a
  | stop _ _ => none

/-- The state at the end. -/
def state : Res σ α → σ
  | ok _ s => s
  | stop _ s => s

theorem eq_ok {r : Res σ α} {a : α} (h : r.value? = some a) : r = ok a r.state := by
  cases r with
  | ok a' s => rw [Option.some.inj h]; rfl
  | stop why s => exact absurd h (by simp [value?])

end Res

/-- A program that reads an environment and a fuel, and works on a state. -/
def Prog (ε σ α : Type) : Type := ε → ℕ → σ → Res σ α

namespace Prog

variable {ε σ α β γ : Type}

instance : Monad (Prog ε σ) where
  pure a := fun _ _ s => .ok a s
  bind m f := fun e k s =>
    match m e k s with
    | .ok a s' => f a e k s'
    | .stop why s' => .stop why s'

/-- The current state. -/
def read : Prog ε σ σ := fun _ _ s => .ok s s

/-- Apply `f` to the state. -/
def update (f : σ → σ) : Prog ε σ Unit := fun _ _ s => .ok () (f s)

/-- What the environment answers in the current state. -/
def ask (f : ε → σ → α) : Prog ε σ α := fun e _ s => .ok (f e s) s

/-- Stop for good. -/
def halt (why : Stop) : Prog ε σ α := fun _ _ s => .stop why s

/-- At most `fuel` rounds of a loop body that answers `inl` to go on and `inr`
to leave the loop. -/
def rounds (body : β → Prog ε σ (β ⊕ α)) : ℕ → β → Prog ε σ α
  | 0, _ => halt .spin
  | fuel + 1, b => do
      match ← body b with
      | .inl b' => rounds body fuel b'
      | .inr a => pure a

/-- A loop without a bound of its own. -/
def iterate (body : β → Prog ε σ (β ⊕ α)) (b : β) : Prog ε σ α :=
  fun e k s => rounds body k b e k s

/-- A loop over the elements of a list. -/
def forEach : List β → (β → Prog ε σ Unit) → Prog ε σ Unit
  | [], _ => pure ()
  | b :: bs, body => do
      body b
      forEach bs body

/-! ## Running the combinators -/

@[simp] theorem pure_run (a : α) (e : ε) (k : ℕ) (s : σ) :
    (pure a : Prog ε σ α) e k s = .ok a s := rfl

@[simp] theorem read_run (e : ε) (k : ℕ) (s : σ) : (read : Prog ε σ σ) e k s = .ok s s := rfl

@[simp] theorem update_run (f : σ → σ) (e : ε) (k : ℕ) (s : σ) :
    (update f : Prog ε σ Unit) e k s = .ok () (f s) := rfl

@[simp] theorem ask_run (f : ε → σ → α) (e : ε) (k : ℕ) (s : σ) :
    (ask f) e k s = .ok (f e s) s := rfl

@[simp] theorem halt_run (why : Stop) (e : ε) (k : ℕ) (s : σ) :
    (halt why : Prog ε σ α) e k s = .stop why s := rfl

theorem bind_run (m : Prog ε σ α) (f : α → Prog ε σ β) (e : ε) (k : ℕ) (s : σ) :
    (m >>= f) e k s =
      match m e k s with
      | .ok a s' => f a e k s'
      | .stop why s' => .stop why s' := rfl

@[simp] theorem ite_run (c : Prop) [Decidable c] (m m' : Prog ε σ α) (e : ε) (k : ℕ) (s : σ) :
    (if c then m else m') e k s = if c then m e k s else m' e k s := by
  split <;> rfl

/-- A sequence returns when both halves do. -/
@[simp] theorem bind_eq_ok {m : Prog ε σ α} {f : α → Prog ε σ β} {e : ε} {k : ℕ} {s s'' : σ}
    {b : β} :
    (m >>= f) e k s = .ok b s'' ↔ ∃ a s', m e k s = .ok a s' ∧ f a e k s' = .ok b s'' := by
  rw [bind_run]
  cases hm : m e k s with
  | ok a s' => simp
  | stop why s' => simp

theorem bind_of_ok {m : Prog ε σ α} {f : α → Prog ε σ β} {e : ε} {k : ℕ} {s s' : σ} {a : α}
    (h : m e k s = .ok a s') : (m >>= f) e k s = f a e k s' := by
  rw [bind_run, h]

@[simp] theorem read_bind (f : σ → Prog ε σ β) (e : ε) (k : ℕ) (s : σ) :
    (read >>= f) e k s = f s e k s := rfl

@[simp] theorem update_bind (g : σ → σ) (f : Unit → Prog ε σ β) (e : ε) (k : ℕ) (s : σ) :
    (update g >>= f) e k s = f () e k (g s) := rfl

@[simp] theorem ask_bind (g : ε → σ → α) (f : α → Prog ε σ β) (e : ε) (k : ℕ) (s : σ) :
    (ask g >>= f) e k s = f (g e s) e k s := rfl

@[simp] theorem pure_bind_run (a : α) (f : α → Prog ε σ β) (e : ε) (k : ℕ) (s : σ) :
    ((pure a : Prog ε σ α) >>= f) e k s = f a e k s := rfl

@[simp] theorem halt_bind (why : Stop) (f : α → Prog ε σ β) (e : ε) (k : ℕ) (s : σ) :
    ((halt why : Prog ε σ α) >>= f) e k s = .stop why s := rfl

/-! ## Loop rules -/

/-- **The loop rule.**  An invariant of the body that gives `Q` at the exit
gives `Q` of whatever the loop returns. -/
theorem rounds_ensures {body : β → Prog ε σ (β ⊕ α)} {e : ε} {I : β → σ → Prop}
    {Q : α → σ → Prop} {k : ℕ}
    (hnext : ∀ b s b' s', I b s → body b e k s = .ok (.inl b') s' → I b' s')
    (hexit : ∀ b s a s', I b s → body b e k s = .ok (.inr a) s' → Q a s') :
    ∀ (fuel : ℕ) (b : β) (s : σ) (a : α) (s' : σ),
      I b s → rounds body fuel b e k s = .ok a s' → Q a s' := by
  intro fuel
  induction fuel with
  | zero => intro b s a s' _ h; simp [rounds] at h
  | succ fuel ih =>
      intro b s a s' hI h
      simp only [rounds, bind_eq_ok] at h
      obtain ⟨r, s₁, hbody, hrest⟩ := h
      cases r with
      | inl b' => exact ih b' s₁ a s' (hnext b s b' s₁ hI hbody) hrest
      | inr a' =>
          simp only [pure_run, Res.ok.injEq] at hrest
          obtain ⟨rfl, rfl⟩ := hrest
          exact hexit b s a' s₁ hI hbody

theorem iterate_ensures {body : β → Prog ε σ (β ⊕ α)} {e : ε} {I : β → σ → Prop}
    {Q : α → σ → Prop} {k : ℕ} {b : β} {s s' : σ} {a : α}
    (hnext : ∀ b s b' s', I b s → body b e k s = .ok (.inl b') s' → I b' s')
    (hexit : ∀ b s a s', I b s → body b e k s = .ok (.inr a) s' → Q a s')
    (hI : I b s) (h : iterate body b e k s = .ok a s') : Q a s' :=
  rounds_ensures hnext hexit k b s a s' hI h

/-- A loop that is left in its first round. -/
theorem iterate_done {body : β → Prog ε σ (β ⊕ α)} {e : ε} {k : ℕ} {b : β} {s s' : σ} {a : α}
    (hk : 0 < k) (hbody : body b e k s = .ok (.inr a) s') : iterate body b e k s = .ok a s' := by
  obtain ⟨k, rfl⟩ : ∃ j, k = j + 1 := ⟨k - 1, by omega⟩
  show rounds body (k + 1) b e (k + 1) s = .ok a s'
  rw [rounds, bind_of_ok hbody]
  rfl

/-- A loop stops where its first round does. -/
theorem iterate_stop {body : β → Prog ε σ (β ⊕ α)} {e : ε} {k : ℕ} {b : β} {s s' : σ} {why : Stop}
    (hk : 0 < k) (hbody : body b e k s = .stop why s') :
    iterate body b e k s = .stop why s' := by
  obtain ⟨k, rfl⟩ : ∃ j, k = j + 1 := ⟨k - 1, by omega⟩
  show rounds body (k + 1) b e (k + 1) s = .stop why s'
  rw [rounds, bind_run, hbody]

/-- Loops whose rounds go in step end in step. -/
theorem iterate_respects {body : β → Prog ε σ (β ⊕ α)} {e : ε} {k : ℕ} {R : σ → σ → Prop}
    (hbody : ∀ b s t r s', R s t → body b e k s = .ok r s' →
      ∃ t', body b e k t = .ok r t' ∧ R s' t')
    {b : β} {s t s' : σ} {a : α} (hR : R s t) (h : iterate body b e k s = .ok a s') :
    ∃ t', iterate body b e k t = .ok a t' ∧ R s' t' := by
  have hrounds : ∀ fuel b s t, R s t → rounds body fuel b e k s = .ok a s' →
      ∃ t', rounds body fuel b e k t = .ok a t' ∧ R s' t' := by
    intro fuel
    induction fuel with
    | zero => intro b s t _ h; simp [rounds] at h
    | succ fuel ih =>
        intro b s t hR h
        simp only [rounds, bind_eq_ok] at h ⊢
        obtain ⟨r, s₁, hround, hrest⟩ := h
        obtain ⟨t₁, hround', hR'⟩ := hbody b s t r s₁ hR hround
        cases r with
        | inl b' =>
            obtain ⟨t', hrest', hR''⟩ := ih b' s₁ t₁ hR' hrest
            exact ⟨t', ⟨.inl b', t₁, hround', hrest'⟩, hR''⟩
        | inr a' =>
            simp only [pure_run, Res.ok.injEq] at hrest
            obtain ⟨rfl, rfl⟩ := hrest
            exact ⟨t₁, ⟨.inr a', t₁, hround', rfl⟩, hR'⟩
  exact hrounds k b s t hR h

/-- A loop over a list keeps what every round keeps; the invariant may speak of
the elements that are still to come. -/
theorem forEach_ensures {body : β → Prog ε σ Unit} {e : ε} {k : ℕ} {I : List β → σ → Prop}
    (hbody : ∀ b bs s s', I (b :: bs) s → body b e k s = .ok () s' → I bs s') :
    ∀ (bs : List β) (s s' : σ), I bs s → forEach bs body e k s = .ok () s' → I [] s' := by
  intro bs
  induction bs with
  | nil =>
      intro s s' hI h
      simp only [forEach, pure_run, Res.ok.injEq, true_and] at h
      exact h ▸ hI
  | cons b bs ih =>
      intro s s' hI h
      simp only [forEach, bind_eq_ok] at h
      obtain ⟨⟨⟩, s₁, hb, hrest⟩ := h
      exact ih s₁ s' (hbody b bs s s₁ hI hb) hrest

/-! ## Steps of a program

`m.Within R e` says that every run of `m` that returns is a step of `R`.  For a
reflexive and transitive `R` it is compositional. -/

/-- Every run of `m` that returns relates its states by `R`. -/
def Within (R : σ → σ → Prop) (e : ε) (m : Prog ε σ α) : Prop :=
  ∀ k s a s', m e k s = .ok a s' → R s s'

section Within

variable {R : σ → σ → Prop} {e : ε}

theorem Within.of_pure (hrefl : ∀ s, R s s) (a : α) : Within R e (pure a) := by
  intro k s b s' h
  simp only [pure_run, Res.ok.injEq] at h
  exact h.2 ▸ hrefl s

theorem Within.bind (htrans : ∀ {a b c}, R a b → R b c → R a c) {m : Prog ε σ α}
    {f : α → Prog ε σ β} (hm : Within R e m) (hf : ∀ a, Within R e (f a)) :
    Within R e (m >>= f) := by
  intro k s b s'' h
  obtain ⟨a, s', h₁, h₂⟩ := bind_eq_ok.mp h
  exact htrans (hm k s a s' h₁) (hf a k s' b s'' h₂)

theorem Within.iterate (hrefl : ∀ s, R s s) (htrans : ∀ {a b c}, R a b → R b c → R a c)
    {body : β → Prog ε σ (β ⊕ α)} (hbody : ∀ b, Within R e (body b)) (b : β) :
    Within R e (iterate body b) := by
  intro k s a s' h
  exact iterate_ensures (I := fun _ t => R s t) (Q := fun _ t => R s t)
    (fun b t b' t' hI ht => htrans hI (hbody b k t _ t' ht))
    (fun b t a t' hI ht => htrans hI (hbody b k t _ t' ht)) (hrefl s) h

theorem Within.forEach (hrefl : ∀ s, R s s) (htrans : ∀ {a b c}, R a b → R b c → R a c)
    {body : β → Prog ε σ Unit} (hbody : ∀ b, Within R e (body b)) (bs : List β) :
    Within R e (forEach bs body) := by
  intro k s a s' h
  exact forEach_ensures (I := fun _ t => R s t)
    (fun b bs t t' hI ht => htrans hI (hbody b k t () t' ht)) bs s s' (hrefl s) h

end Within

/-- `m` does not change the part `F` of the state. -/
def Keeps (F : σ → γ) (e : ε) (m : Prog ε σ α) : Prop := Within (fun s s' => F s' = F s) e m

section Keeps

variable {F : σ → γ} {e : ε}

theorem Keeps.eq {m : Prog ε σ α} (h : Keeps F e m) {k : ℕ} {s s' : σ} {a : α}
    (hm : m e k s = .ok a s') : F s' = F s := h k s a s' hm

theorem Keeps.pure (a : α) : Keeps F e (pure a) :=
  Within.of_pure (R := fun s s' => F s' = F s) (fun _ => rfl) a

theorem Keeps.read : Keeps F e read := by
  intro k s a s' h
  simp only [read_run, Res.ok.injEq] at h
  rw [h.2]

theorem Keeps.ask (g : ε → σ → α) : Keeps F e (ask g) := by
  intro k s a s' h
  simp only [ask_run, Res.ok.injEq] at h
  rw [h.2]

theorem Keeps.update {f : σ → σ} (hf : ∀ s, F (f s) = F s) : Keeps F e (update f) := by
  intro k s a s' h
  simp only [update_run, Res.ok.injEq, true_and] at h
  exact h ▸ hf s

theorem Keeps.bind {m : Prog ε σ α} {f : α → Prog ε σ β} (hm : Keeps F e m)
    (hf : ∀ a, Keeps F e (f a)) : Keeps F e (m >>= f) :=
  Within.bind (fun h₁ h₂ => h₂.trans h₁) hm hf

theorem Keeps.ite (c : Prop) [Decidable c] {m m' : Prog ε σ α} (h : c → Keeps F e m)
    (h' : ¬ c → Keeps F e m') : Keeps F e (if c then m else m') := by
  by_cases hc : c
  · simpa [hc] using h hc
  · simpa [hc] using h' hc

theorem Keeps.iterate {body : β → Prog ε σ (β ⊕ α)} (hbody : ∀ b, Keeps F e (body b)) (b : β) :
    Keeps F e (iterate body b) :=
  Within.iterate (R := fun s s' => F s' = F s) (fun _ => rfl) (fun h₁ h₂ => h₂.trans h₁) hbody b

end Keeps

/-- Every run of `m` that returns is a path of steps. -/
def Traces (step : σ → σ → Prop) (e : ε) (m : Prog ε σ α) : Prop :=
  Within (Relation.ReflTransGen step) e m

section Traces

variable {step : σ → σ → Prop} {e : ε}

theorem Traces.path {m : Prog ε σ α} (h : Traces step e m) {k : ℕ} {s s' : σ} {a : α}
    (hm : m e k s = .ok a s') : Relation.ReflTransGen step s s' := h k s a s' hm

theorem Traces.mono {step' : σ → σ → Prop} {m : Prog ε σ α} (h : Traces step e m)
    (hstep : ∀ s s', step s s' → Relation.ReflTransGen step' s s') : Traces step' e m := by
  intro k s a s' hm
  have hpath := h k s a s' hm
  clear hm
  induction hpath with
  | refl => exact .refl
  | tail _ hlast ih => exact ih.trans (hstep _ _ hlast)

theorem Traces.pure (a : α) : Traces step e (pure a) := Within.of_pure (fun _ => .refl) a

theorem Traces.halt (why : Stop) : Traces step e (halt why : Prog ε σ α) := by
  intro k s a s' h
  simp at h

theorem Traces.read : Traces step e read := by
  intro k s a s' h
  simp only [read_run, Res.ok.injEq] at h
  exact h.2 ▸ .refl

theorem Traces.update {f : σ → σ} (hf : ∀ s, Relation.ReflTransGen step s (f s)) :
    Traces step e (update f) := by
  intro k s a s' h
  simp only [update_run, Res.ok.injEq, true_and] at h
  exact h ▸ hf s

theorem Traces.bind {m : Prog ε σ α} {f : α → Prog ε σ β} (hm : Traces step e m)
    (hf : ∀ a, Traces step e (f a)) : Traces step e (m >>= f) :=
  Within.bind .trans hm hf

theorem Traces.ite (c : Prop) [Decidable c] {m m' : Prog ε σ α} (h : c → Traces step e m)
    (h' : ¬ c → Traces step e m') : Traces step e (if c then m else m') := by
  by_cases hc : c
  · simpa [hc] using h hc
  · simpa [hc] using h' hc

theorem Traces.iterate {body : β → Prog ε σ (β ⊕ α)} (hbody : ∀ b, Traces step e (body b))
    (b : β) : Traces step e (iterate body b) :=
  Within.iterate (R := Relation.ReflTransGen step) (fun _ => .refl) .trans hbody b

theorem Traces.forEach {body : β → Prog ε σ Unit} (hbody : ∀ b, Traces step e (body b))
    (bs : List β) : Traces step e (forEach bs body) :=
  Within.forEach (R := Relation.ReflTransGen step) (fun _ => .refl) .trans hbody bs

end Traces

/-! ## Total correctness -/

/-- With enough fuel `m` returns `a` in state `s'`, and more fuel changes nothing. -/
def Evals (m : Prog ε σ α) (e : ε) (s : σ) (a : α) (s' : σ) : Prop :=
  ∃ N, ∀ k ≥ N, m e k s = .ok a s'

/-- With enough fuel `m` returns. -/
def Returns (m : Prog ε σ α) (e : ε) (s : σ) : Prop := ∃ a s', Evals m e s a s'

theorem Evals.of_eq {m : Prog ε σ α} {e : ε} {s s' : σ} {a : α}
    (h : ∀ k, m e k s = .ok a s') : Evals m e s a s' := ⟨0, fun k _ => h k⟩

theorem Evals.bind {m : Prog ε σ α} {f : α → Prog ε σ β} {e : ε} {s s' s'' : σ} {a : α} {b : β}
    (hm : Evals m e s a s') (hf : Evals (f a) e s' b s'') : Evals (m >>= f) e s b s'' := by
  obtain ⟨N, hN⟩ := hm
  obtain ⟨M, hM⟩ := hf
  refine ⟨max N M, fun k hk => ?_⟩
  rw [bind_of_ok (hN k (le_trans (le_max_left N M) hk))]
  exact hM k (le_trans (le_max_right N M) hk)

/-- What a program returns does not depend on the fuel. -/
theorem Evals.unique {m : Prog ε σ α} {e : ε} {s s' t : σ} {a b : α} (h : Evals m e s a s')
    (h' : Evals m e s b t) : a = b ∧ s' = t := by
  obtain ⟨N, hN⟩ := h
  obtain ⟨M, hM⟩ := h'
  have heq := (hN (max N M) (le_max_left N M)).symm.trans (hM (max N M) (le_max_right N M))
  simpa using heq

/-- A program that returns has a run: the one with enough fuel. -/
theorem Evals.exists_run {m : Prog ε σ α} {e : ε} {s s' : σ} {a : α} (h : Evals m e s a s') :
    ∃ k, m e k s = .ok a s' := by
  obtain ⟨N, hN⟩ := h
  exact ⟨N, hN N (Nat.le_refl N)⟩

/-- A sequence returns when its first half does and its second half returns
from every state the first can leave. -/
theorem Returns.bind {m : Prog ε σ α} {f : α → Prog ε σ β} {e : ε} {s : σ}
    (hm : Returns m e s) (hf : ∀ k a s', m e k s = .ok a s' → Returns (f a) e s') :
    Returns (m >>= f) e s := by
  obtain ⟨a, s', hm⟩ := hm
  obtain ⟨k, hk⟩ := hm.exists_run
  obtain ⟨b, s'', hf⟩ := hf k a s' hk
  exact ⟨b, s'', hm.bind hf⟩

theorem Returns.of_eq {m : Prog ε σ α} {e : ε} {s s' : σ} {a : α}
    (h : ∀ k, m e k s = .ok a s') : Returns m e s := ⟨a, s', Evals.of_eq h⟩

theorem Returns.pure (a : α) (e : ε) (s : σ) : Returns (pure a : Prog ε σ α) e s :=
  .of_eq fun _ => rfl

theorem Returns.update (f : σ → σ) (e : ε) (s : σ) : Returns (update f) e s :=
  .of_eq fun _ => rfl

/-- The state does not change between reading and using it. -/
theorem Returns.bind_read {f : σ → Prog ε σ β} {e : ε} {s : σ} (hf : Returns (f s) e s) :
    Returns (Prog.read >>= f) e s := hf

theorem Returns.bind_update {g : σ → σ} {f : Unit → Prog ε σ β} {e : ε} {s : σ}
    (hf : Returns (f ()) e (g s)) : Returns (Prog.update g >>= f) e s := hf

theorem Returns.ite {c : Prop} [Decidable c] {m m' : Prog ε σ α} {e : ε} {s : σ}
    (h : c → Returns m e s) (h' : ¬ c → Returns m' e s) :
    Returns (if c then m else m') e s := by
  by_cases hc : c
  · simpa [hc] using h hc
  · simpa [hc] using h' hc

/-- With enough rounds and enough fuel the loop comes to the end `r`. -/
def LoopEnds (body : β → Prog ε σ (β ⊕ α)) (e : ε) (b : β) (s : σ) (r : Res σ α) : Prop :=
  ∃ N, ∀ j ≥ N, ∀ k ≥ N, rounds body j b e k s = r

/-- One more round of a loop. -/
theorem LoopEnds.step {body : β → Prog ε σ (β ⊕ α)} {e : ε} {b b' : β} {s s₁ : σ} {r : Res σ α}
    (hbody : Evals (body b) e s (.inl b') s₁) (hrest : LoopEnds body e b' s₁ r) :
    LoopEnds body e b s r := by
  obtain ⟨N, hN⟩ := hbody
  obtain ⟨M, hM⟩ := hrest
  refine ⟨max N M + 1, fun j hj k hk => ?_⟩
  obtain ⟨j, rfl⟩ : ∃ i, j = i + 1 := ⟨j - 1, by omega⟩
  simp only [rounds]
  rw [bind_of_ok (hN k (by omega))]
  exact hM j (by omega) k (by omega)

/-- The last round of a loop. -/
theorem LoopEnds.done {body : β → Prog ε σ (β ⊕ α)} {e : ε} {b : β} {s s' : σ} {a : α}
    (hbody : Evals (body b) e s (.inr a) s') : LoopEnds body e b s (.ok a s') := by
  obtain ⟨N, hN⟩ := hbody
  refine ⟨N + 1, fun j hj k hk => ?_⟩
  obtain ⟨j, rfl⟩ : ∃ i, j = i + 1 := ⟨j - 1, by omega⟩
  simp only [rounds]
  rw [bind_of_ok (hN k (by omega))]
  rfl

theorem LoopEnds.evals {body : β → Prog ε σ (β ⊕ α)} {e : ε} {b : β} {s s' : σ} {a : α}
    (h : LoopEnds body e b s (.ok a s')) : Evals (iterate body b) e s a s' := by
  obtain ⟨N, hN⟩ := h
  exact ⟨N, fun k hk => hN k hk k hk⟩

/-- **Termination of loops.**  The invariant has a rank; a loop whose body returns and goes
on only to a smaller rank returns. -/
theorem iterate_returns {body : β → Prog ε σ (β ⊕ α)} {e : ε} {δ : Type} [LT δ]
    [WellFoundedLT δ] {I : δ → β → σ → Prop}
    (hreturns : ∀ d b s, I d b s → Returns (body b) e s)
    (hnext : ∀ d b s b' s' k, I d b s → body b e k s = .ok (.inl b') s' → ∃ d' < d, I d' b' s')
    {d : δ} {b : β} {s : σ} (hI : I d b s) : Returns (iterate body b) e s := by
  suffices h : ∀ d : δ, ∀ b s, I d b s → ∃ a s', LoopEnds body e b s (.ok a s') by
    obtain ⟨a, s', hends⟩ := h d b s hI
    exact ⟨a, s', hends.evals⟩
  intro d
  induction d using WellFoundedLT.induction with
  | ind d ih =>
      intro b s hI
      obtain ⟨r, s₁, hbody⟩ := hreturns d b s hI
      cases r with
      | inr a => exact ⟨a, s₁, LoopEnds.done hbody⟩
      | inl b' =>
          obtain ⟨k, hk⟩ := hbody.exists_run
          obtain ⟨d', hlt, hI'⟩ := hnext d b s b' s₁ k hI hk
          obtain ⟨a, s', hrest⟩ := ih d' hlt b' s₁ hI'
          exact ⟨a, s', LoopEnds.step hbody hrest⟩

/-! ## Leaving loops -/

/-- With enough fuel `m` comes to an end that more fuel does not change, though it may
stop there instead of returning. -/
def Settles (m : Prog ε σ α) (e : ε) (s : σ) : Prop :=
  ∃ r, (∀ t, r ≠ .stop .spin t) ∧ ∃ N, ∀ k ≥ N, m e k s = r

theorem Settles.of_ok {m : Prog ε σ α} {e : ε} {s s' : σ} {a : α}
    (h : ∀ k, m e k s = .ok a s') : Settles m e s :=
  ⟨.ok a s', by simp, 0, fun k _ => h k⟩

theorem Settles.halt {why : Stop} (hwhy : why ≠ .spin) (e : ε) (s : σ) :
    Settles (halt why : Prog ε σ α) e s :=
  ⟨.stop why s, by simpa using hwhy, 0, fun _ _ => rfl⟩

theorem Settles.bind {m : Prog ε σ α} {f : α → Prog ε σ β} {e : ε} {s : σ}
    (hm : Settles m e s) (hf : ∀ k a s', m e k s = .ok a s' → Settles (f a) e s') :
    Settles (m >>= f) e s := by
  obtain ⟨r, hr, N, hN⟩ := hm
  cases r with
  | ok a s' =>
      obtain ⟨r', hr', M, hM⟩ := hf N a s' (hN N le_rfl)
      refine ⟨r', hr', max N M, fun k hk => ?_⟩
      rw [bind_of_ok (hN k (le_trans (le_max_left N M) hk))]
      exact hM k (le_trans (le_max_right N M) hk)
  | stop why s' =>
      refine ⟨.stop why s', by simpa using hr, N, fun k hk => ?_⟩
      rw [bind_run, hN k hk]

theorem Settles.ite {c : Prop} [Decidable c] {m m' : Prog ε σ α} {e : ε} {s : σ}
    (h : c → Settles m e s) (h' : ¬ c → Settles m' e s) :
    Settles (if c then m else m') e s := by
  by_cases hc : c
  · simpa [hc] using h hc
  · simpa [hc] using h' hc

/-- **Loops that are left.**  The invariant has a rank; a loop whose body settles and
goes on only to a smaller rank settles. -/
theorem iterate_settles {body : β → Prog ε σ (β ⊕ α)} {e : ε} {δ : Type} [LT δ]
    [WellFoundedLT δ] {I : δ → β → σ → Prop}
    (hsettles : ∀ d b s, I d b s → Settles (body b) e s)
    (hnext : ∀ d b s b' s' k, I d b s → body b e k s = .ok (.inl b') s' → ∃ d' < d, I d' b' s')
    {d : δ} {b : β} {s : σ} (hI : I d b s) : Settles (iterate body b) e s := by
  suffices h : ∀ d : δ, ∀ b s, I d b s → ∃ r, (∀ t, r ≠ .stop .spin t) ∧
      ∃ N, ∀ j ≥ N, ∀ k ≥ N, rounds body j b e k s = r by
    obtain ⟨r, hr, N, hN⟩ := h d b s hI
    exact ⟨r, hr, N, fun k hk => hN k hk k hk⟩
  intro d
  induction d using WellFoundedLT.induction with
  | ind d ih =>
      intro b s hI
      obtain ⟨r, hr, N, hN⟩ := hsettles d b s hI
      cases r with
      | stop why s₁ =>
          refine ⟨.stop why s₁, by simpa using hr, N + 1, fun j hj k hk => ?_⟩
          obtain ⟨j, rfl⟩ : ∃ i, j = i + 1 := ⟨j - 1, by omega⟩
          rw [rounds, bind_run, hN k (by omega)]
      | ok x s₁ =>
          cases x with
          | inr a =>
              refine ⟨.ok a s₁, by simp, N + 1, fun j hj k hk => ?_⟩
              obtain ⟨j, rfl⟩ : ∃ i, j = i + 1 := ⟨j - 1, by omega⟩
              rw [rounds, bind_of_ok (hN k (by omega))]
              rfl
          | inl b' =>
              obtain ⟨d', hlt, hI'⟩ := hnext d b s b' s₁ N hI (hN N le_rfl)
              obtain ⟨r', hr', M, hM⟩ := ih d' hlt b' s₁ hI'
              refine ⟨r', hr', max N M + 1, fun j hj k hk => ?_⟩
              obtain ⟨j, rfl⟩ : ∃ i, j = i + 1 := ⟨j - 1, by omega⟩
              rw [rounds, bind_of_ok (hN k (by omega))]
              exact hM j (by omega) k (by omega)

/-- With enough fuel `m` stops for the reason `why`. -/
def Stops (why : Stop) (m : Prog ε σ α) (e : ε) (s : σ) : Prop :=
  ∃ t N, ∀ k ≥ N, m e k s = .stop why t

theorem Stops.halt (why : Stop) (e : ε) (s : σ) : Stops why (halt why : Prog ε σ α) e s :=
  ⟨s, 0, fun _ _ => rfl⟩

theorem Stops.bind_left {why : Stop} {m : Prog ε σ α} {f : α → Prog ε σ β} {e : ε} {s : σ}
    (h : Stops why m e s) : Stops why (m >>= f) e s := by
  obtain ⟨t, N, hN⟩ := h
  exact ⟨t, N, fun k hk => by rw [bind_run, hN k hk]⟩

theorem Stops.bind {why : Stop} {m : Prog ε σ α} {f : α → Prog ε σ β} {e : ε} {s s' : σ} {a : α}
    (hm : Evals m e s a s') (h : Stops why (f a) e s') : Stops why (m >>= f) e s := by
  obtain ⟨M, hM⟩ := hm
  obtain ⟨t, N, hN⟩ := h
  refine ⟨t, max M N, fun k hk => ?_⟩
  rw [bind_of_ok (hM k (le_trans (le_max_left M N) hk))]
  exact hN k (le_trans (le_max_right M N) hk)

/-- A loop stops where its round does. -/
theorem LoopEnds.stop {why : Stop} {body : β → Prog ε σ (β ⊕ α)} {e : ε} {b : β} {s : σ}
    (h : Stops why (body b) e s) : ∃ t, LoopEnds body e b s (.stop why t) := by
  obtain ⟨t, N, hN⟩ := h
  refine ⟨t, N + 1, fun j hj k hk => ?_⟩
  obtain ⟨j, rfl⟩ : ∃ i, j = i + 1 := ⟨j - 1, by omega⟩
  rw [rounds, bind_run, hN k (by omega)]

theorem LoopEnds.stops {why : Stop} {body : β → Prog ε σ (β ⊕ α)} {e : ε} {b : β} {s t : σ}
    (h : LoopEnds body e b s (.stop why t)) : Stops why (iterate body b) e s := by
  obtain ⟨N, hN⟩ := h
  exact ⟨t, N, fun k hk => hN k hk k hk⟩

/-! ## Reasons to stop -/

/-- No run of `m` from `s` stops for a reason in `bad`. -/
def Avoids (bad : Stop → Prop) (m : Prog ε σ α) (e : ε) (s : σ) : Prop :=
  ∀ k why s', m e k s = .stop why s' → ¬ bad why

section Avoids

variable {bad : Stop → Prop} {e : ε} {s : σ}

theorem Avoids.pure (a : α) : Avoids bad (pure a) e s := by
  intro k why s' h
  simp at h

theorem Avoids.read : Avoids bad read e s := by
  intro k why s' h
  simp at h

theorem Avoids.update (f : σ → σ) : Avoids bad (update f) e s := by
  intro k why s' h
  simp at h

theorem Avoids.ask (g : ε → σ → α) : Avoids bad (ask g) e s := by
  intro k why s' h
  simp at h

theorem Avoids.halt {why : Stop} (h : ¬ bad why) : Avoids bad (halt why : Prog ε σ α) e s := by
  intro k why' s' heq
  simp only [halt_run, Res.stop.injEq] at heq
  exact heq.1 ▸ h

theorem Avoids.bind {m : Prog ε σ α} {f : α → Prog ε σ β} (hm : Avoids bad m e s)
    (hf : ∀ k a s', m e k s = .ok a s' → Avoids bad (f a) e s') : Avoids bad (m >>= f) e s := by
  intro k why s' h
  cases hrun : m e k s with
  | ok a s₁ =>
      rw [bind_of_ok hrun] at h
      exact hf k a s₁ hrun k why s' h
  | stop why' s₁ =>
      rw [bind_run, hrun] at h
      simp only [Res.stop.injEq] at h
      exact h.1 ▸ hm k why' s₁ hrun

/-- The state does not change between reading and using it. -/
theorem Avoids.bind_read {f : σ → Prog ε σ β} (hf : Avoids bad (f s) e s) :
    Avoids bad (Prog.read >>= f) e s := fun k why s' h => hf k why s' h

theorem Avoids.ite {c : Prop} [Decidable c] {m m' : Prog ε σ α} (h : c → Avoids bad m e s)
    (h' : ¬ c → Avoids bad m' e s) : Avoids bad (if c then m else m') e s := by
  by_cases hc : c
  · simpa [hc] using h hc
  · simpa [hc] using h' hc

/-- A program that comes to an end and does not stop returns. -/
theorem Settles.returns {m : Prog ε σ α} (h : Settles m e s) (havoids : Avoids (· ≠ .spin) m e s) :
    Returns m e s := by
  obtain ⟨r, hr, N, hN⟩ := h
  cases r with
  | ok a s' => exact ⟨a, s', N, hN⟩
  | stop why s' =>
      have hspin : why = .spin := not_not.mp (havoids N why s' (hN N le_rfl))
      exact absurd (hspin ▸ rfl) (hr s')

theorem Stops.not_avoids {why : Stop} {m : Prog ε σ α} (h : Stops why m e s) (hbad : bad why) :
    ¬ Avoids bad m e s := by
  obtain ⟨t, N, hN⟩ := h
  exact fun havoids => havoids N why t (hN N (Nat.le_refl N)) hbad

/-- A loop avoids what its rounds avoid, and running out of fuel. -/
theorem iterate_avoids {body : β → Prog ε σ (β ⊕ α)} {I : β → σ → Prop} (hspin : ¬ bad .spin)
    (havoids : ∀ b s, I b s → Avoids bad (body b) e s)
    (hnext : ∀ b s b' s' k, I b s → body b e k s = .ok (.inl b') s' → I b' s')
    {b : β} (hI : I b s) : Avoids bad (iterate body b) e s := by
  have hrounds : ∀ fuel b s, I b s → Avoids bad (rounds body fuel b) e s := by
    intro fuel
    induction fuel with
    | zero => intro b s _; exact .halt hspin
    | succ fuel ih =>
        intro b s hI
        refine (havoids b s hI).bind fun k r s₁ hround => ?_
        cases r with
        | inl b' => exact ih b' s₁ (hnext b s b' s₁ k hI hround)
        | inr a => exact .pure a
  exact fun k why s' h => hrounds k b s hI k why s' h

/-- A loop over a list avoids what its rounds avoid. -/
theorem forEach_avoids {body : β → Prog ε σ Unit} (havoids : ∀ b s, Avoids bad (body b) e s) :
    ∀ (bs : List β) (s : σ), Avoids bad (forEach bs body) e s := by
  intro bs
  induction bs with
  | nil => intro s; exact .pure ()
  | cons b bs ih => intro s; exact (havoids b s).bind fun _ _ s₁ _ => ih s₁

end Avoids

end Prog

end EgGS.Lib
