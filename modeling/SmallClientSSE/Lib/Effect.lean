import Mathlib.Tactic.Common

/-!
# Effects that may fail

About `EStateM` with any state and any error. Steps in sequence run one by one (`bind_ok`,
`bind_error`), and a success tells what the parts did (`bind_inv`). `Keeps R x` says that every
success of `x` leaves a state in relation `R` to the one before. `Reads part x` and
`Local part rest stop x` compare two runs: from states that agree on a part they do the same,
and the rest is left alone.
-/

namespace Lib.Effect

variable {ε σ τ α β γ : Type}

/-! ## Steps in sequence -/

section

variable {x : EStateM ε σ α} {s s' s'' : σ}

theorem bind_ok {a : α} (f : α → EStateM ε σ β) (hx : x s = .ok a s') :
    (x >>= f) s = f a s' := by
  simp only [bind, EStateM.bind, hx]

theorem bind_error {e : ε} (f : α → EStateM ε σ β) (hx : x s = .error e s') :
    (x >>= f) s = .error e s' := by
  simp only [bind, EStateM.bind, hx]

theorem bind_inv {f : α → EStateM ε σ β} {b : β} (hr : (x >>= f) s = .ok b s'') :
    ∃ a s', x s = .ok a s' ∧ f a s' = .ok b s'' := by
  cases hx : x s with
  | ok a s' => exact ⟨a, s', rfl, by simpa only [bind, EStateM.bind, hx] using hr⟩
  | error e s' => simp only [bind, EStateM.bind, hx, reduceCtorEq] at hr

theorem pure_inv {a b : α} (hr : (pure a : EStateM ε σ α) s = .ok b s') : b = a ∧ s' = s := by
  cases hr
  exact ⟨rfl, rfl⟩

end

/-! ## Relations that successes keep -/

/-- Every success of `x` is related to the state before. -/
def Keeps (R : σ → σ → Prop) (x : EStateM ε σ α) : Prop := ∀ s a s', x s = .ok a s' → R s s'

section

variable {R : σ → σ → Prop} {x : EStateM ε σ α}

theorem Keeps.pure (hR : ∀ s, R s s) (a : α) : Keeps R (pure a : EStateM ε σ α) :=
  fun s _ s' hr => by
    obtain ⟨-, rfl⟩ := pure_inv hr
    exact hR s'

theorem Keeps.throw (e : ε) : Keeps R (throw e : EStateM ε σ α) := fun _ _ _ hr => by cases hr

theorem Keeps.bind (hR : ∀ {s t u}, R s t → R t u → R s u) {f : α → EStateM ε σ β}
    (hx : Keeps R x) (hf : ∀ a, Keeps R (f a)) : Keeps R (x >>= f) := fun s b s'' hr => by
  obtain ⟨a, s', h1, h2⟩ := bind_inv hr
  exact hR (hx s a s' h1) (hf a s' b s'' h2)

theorem Keeps.ite {c : Prop} [Decidable c] {y : EStateM ε σ α} (hx : Keeps R x) (hy : Keeps R y) :
    Keeps R (if c then x else y) := by
  split
  · exact hx
  · exact hy

theorem Keeps.mono {S : σ → σ → Prop} (hRS : ∀ s s', R s s' → S s s') (hx : Keeps R x) :
    Keeps S x := fun s a s' hr => hRS _ _ (hx s a s' hr)

end

/-! ## Steps that read -/

/-- `x` changes nothing, and states related by `part` get the same answer. -/
def Reads (part : σ → σ → Prop) (x : EStateM ε σ α) : Prop := ∀ s t, part s t →
  (∃ a, x s = .ok a s ∧ x t = .ok a t) ∨ ∃ e, x s = .error e s ∧ x t = .error e t

section

variable {part : σ → σ → Prop} {x : EStateM ε σ α}

theorem Reads.pure (a : α) : Reads part (pure a : EStateM ε σ α) := fun _ _ _ => .inl ⟨a, rfl, rfl⟩

theorem Reads.throw (e : ε) : Reads part (throw e : EStateM ε σ α) :=
  fun _ _ _ => .inr ⟨e, rfl, rfl⟩

theorem Reads.bind {f : α → EStateM ε σ β} (hx : Reads part x) (hf : ∀ a, Reads part (f a)) :
    Reads part (x >>= f) := fun s t hst => by
  rcases hx s t hst with ⟨a, hs, ht⟩ | ⟨e, hs, ht⟩
  · simp only [Bind.bind, EStateM.bind, hs, ht]
    exact hf a s t hst
  · exact .inr ⟨e, by simp only [Bind.bind, EStateM.bind, hs],
      by simp only [Bind.bind, EStateM.bind, ht]⟩

theorem Reads.ite {c : Prop} [Decidable c] {y : EStateM ε σ α} (hx : Reads part x)
    (hy : Reads part y) : Reads part (if c then x else y) := by
  split
  · exact hx
  · exact hy

/-- A value of the state that related states share may be read. -/
theorem Reads.get {f : σ → EStateM ε σ α} (hf : ∀ s t, part s t → f s = f t)
    (hr : ∀ s, Reads part (f s)) : Reads part (get >>= f) := fun s t hst => by
  have hget : ∀ u, (MonadState.get >>= f) u = f u u := fun _ => rfl
  rw [hget, hget, hf s t hst]
  exact hr t s t hst

theorem Reads.mono {part' : σ → σ → Prop} (hp : ∀ s t, part' s t → part s t)
    (hx : Reads part x) : Reads part' x := fun s t hst => hx s t (hp s t hst)

theorem Reads.keeps (hp : ∀ s, part s s) (hx : Reads part x) : Keeps (fun s t => s = t) x :=
  fun s a s' hr => by
    rcases hx s s (hp s) with ⟨b, hb, -⟩ | ⟨e, he, -⟩
    · rw [hb] at hr
      cases hr
      rfl
    · rw [he] at hr
      cases hr

end

/-! ## Steps that work on a part -/

/-- The state that is left, also by a failure. -/
def after : EStateM.Result ε σ α → σ
  | .ok _ s => s
  | .error _ s => s

theorem after_then_pure (x : EStateM ε σ α) (b : β) (s : σ) :
    after ((x >>= fun _ => pure b) s) = after (x s) := by
  cases hx : x s with
  | ok a s' => rw [bind_ok _ hx]; rfl
  | error e s' => rw [bind_error _ hx]; rfl

/-- Two outcomes that are alike, unless one of them failed with an error of `stop`. -/
inductive Alike (part : σ → σ → Prop) (stop : ε → Prop) :
    EStateM.Result ε σ α → EStateM.Result ε σ α → Prop where
  | ok {a : α} {s t : σ} : part s t → Alike part stop (.ok a s) (.ok a t)
  | error {e : ε} {s t : σ} : part s t → Alike part stop (.error e s) (.error e t)
  | left {e : ε} {s : σ} {r : EStateM.Result ε σ α} : stop e → Alike part stop (.error e s) r
  | right {e : ε} {s : σ} {r : EStateM.Result ε σ α} : stop e → Alike part stop r (.error e s)

/-- `x` leaves the rest alone, and takes states that agree on the part to such states. -/
structure Local (part rest : σ → σ → Prop) (stop : ε → Prop) (x : EStateM ε σ α) : Prop where
  frame : ∀ s, rest s (after (x s))
  alike : ∀ s t, part s t → Alike part stop (x s) (x t)

section

variable {part rest : σ → σ → Prop} {stop : ε → Prop} {x : EStateM ε σ α}

theorem Reads.local (hp : ∀ s, part s s) (hrest : ∀ s, rest s s) (hx : Reads part x) :
    Local part rest stop x where
  frame s := by
    rcases hx s s (hp s) with ⟨a, hs, -⟩ | ⟨e, hs, -⟩
    · rw [hs]
      exact hrest s
    · rw [hs]
      exact hrest s
  alike s t hst := by
    rcases hx s t hst with ⟨a, hs, ht⟩ | ⟨e, hs, ht⟩
    · rw [hs, ht]
      exact .ok hst
    · rw [hs, ht]
      exact .error hst

theorem Local.bind (htrans : ∀ {s t u}, rest s t → rest t u → rest s u) {f : α → EStateM ε σ β}
    (hx : Local part rest stop x)
    (hf : ∀ a, (∃ s t, x s = .ok a t) → Local part rest stop (f a)) :
    Local part rest stop (x >>= f) where
  frame s := by
    have h1 := hx.frame s
    cases hs : x s with
    | ok a s' =>
      simp only [Bind.bind, EStateM.bind, hs]
      rw [hs] at h1
      exact htrans h1 ((hf a ⟨s, s', hs⟩).frame s')
    | error e s' =>
      simp only [Bind.bind, EStateM.bind, hs]
      rw [hs] at h1
      exact h1
  alike s t hst := by
    have h := hx.alike s t hst
    cases hs : x s <;> cases ht : x t <;> rw [hs, ht] at h <;>
      simp only [Bind.bind, EStateM.bind, hs, ht] <;> cases h
    · next hst' => exact (hf _ ⟨_, _, hs⟩).alike _ _ hst'
    · next h => exact .right h
    · next h => exact .left h
    · next h => exact .error h
    · next h => exact .left h
    · next h => exact .right h

theorem Local.get {f : σ → EStateM ε σ α} (hf : ∀ s t, part s t → f s = f t)
    (hl : ∀ s, Local part rest stop (f s)) : Local part rest stop (get >>= f) where
  frame s := (hl s).frame s
  alike s t hst := by
    have h := (hl s).alike s t hst
    have hget : ∀ u, (MonadState.get >>= f) u = f u u := fun _ => rfl
    rw [hget, hget, ← hf s t hst]
    exact h

theorem Local.ite {c : Prop} [Decidable c] {y : EStateM ε σ α} (hx : Local part rest stop x)
    (hy : Local part rest stop y) : Local part rest stop (if c then x else y) := by
  split
  · exact hx
  · exact hy

end

end Lib.Effect
