import Mathlib.Data.List.Basic
import Mathlib.Data.List.Induction
import Mathlib.Data.List.Infix

/-!
# Runs of a partial step function

`run step s as` feeds the inputs `as` to `step` from left to right and stops at
the first failure. `run_inv` is the induction over runs: an invariant between
the inputs consumed so far and the state, kept by every step, holds at the end,
and the run does not fail. `Each P as` puts `P` on every input and those before it.
-/

namespace Lib

variable {σ α : Type}

def run (step : σ → α → Option σ) (s : σ) (as : List α) : Option σ := as.foldlM step s

@[simp] theorem run_nil (step : σ → α → Option σ) (s : σ) : run step s [] = some s := rfl

@[simp] theorem run_cons (step : σ → α → Option σ) (s : σ) (a : α) (as : List α) :
    run step s (a :: as) = (step s a).bind fun s' => run step s' as := rfl

theorem run_append (step : σ → α → Option σ) (s : σ) (as bs : List α) :
    run step s (as ++ bs) = (run step s as).bind fun s' => run step s' bs := by
  simp only [run, List.foldlM_append]
  rfl

theorem run_snoc {step : σ → α → Option σ} {s t u : σ} {as : List α} {a : α}
    (h : run step s as = some t) (ha : step t a = some u) : run step s (as ++ [a]) = some u := by
  simp [run_append, h, ha]

theorem run_split {step : σ → α → Option σ} {s u : σ} {as bs : List α}
    (h : run step s (as ++ bs) = some u) : ∃ t, run step s as = some t ∧ run step t bs = some u := by
  rw [run_append] at h
  exact Option.bind_eq_some_iff.mp h

/-- **Invariants of runs.** -/
theorem run_inv {f : σ → α → Option σ} {s : σ} {l : List α} (I : List α → σ → Prop)
    (h0 : I [] s)
    (hstep : ∀ pre a t, pre ++ [a] <+: l → run f s pre = some t → I pre t →
      ∃ u, f t a = some u ∧ I (pre ++ [a]) u) :
    ∃ t, run f s l = some t ∧ I l t := by
  have key : ∀ pre, pre <+: l → ∃ t, run f s pre = some t ∧ I pre t := by
    intro pre
    induction pre using List.reverseRecOn with
    | nil => exact fun _ => ⟨s, rfl, h0⟩
    | append_singleton pre a ih =>
      intro hpre
      obtain ⟨t, ht, hI⟩ := ih ((List.prefix_append pre [a]).trans hpre)
      obtain ⟨u, hu, hI'⟩ := hstep pre a t hpre ht hI
      exact ⟨u, run_snoc ht hu, hI'⟩
  exact key l (List.prefix_refl l)

/-- **Invariants of the runs that succeed.** -/
theorem run_keeps {f : σ → α → Option σ} {s t : σ} {l : List α} (I : List α → σ → Prop)
    (h0 : I [] s) (hrun : run f s l = some t)
    (hstep : ∀ pre a t u, pre ++ [a] <+: l → I pre t → f t a = some u → I (pre ++ [a]) u) :
    I l t := by
  have key : ∀ pre, pre <+: l → ∀ t, run f s pre = some t → I pre t := by
    intro pre
    induction pre using List.reverseRecOn with
    | nil =>
      intro _ t ht
      obtain rfl := Option.some.inj ht
      exact h0
    | append_singleton pre a ih =>
      intro hpre u hu
      obtain ⟨t, ht, ha⟩ := run_split hu
      have hI := ih ((List.prefix_append pre [a]).trans hpre) t ht
      refine hstep pre a t u hpre hI ?_
      simpa using ha
  exact key l (List.prefix_refl l) t hrun

/-- Every input satisfies `P` with the inputs before it. -/
def Each (P : List α → α → Prop) (as : List α) : Prop :=
  ∀ i : Fin as.length, P (as.take i) (as.get i)

instance (P : List α → α → Prop) [∀ as a, Decidable (P as a)] (as : List α) :
    Decidable (Each P as) :=
  inferInstanceAs (Decidable (∀ i : Fin as.length, P (as.take i) (as.get i)))

theorem Each.of_prefix {P : List α → α → Prop} {as pre : List α} {a : α} (h : Each P as)
    (hpre : pre ++ [a] <+: as) : P pre a := by
  obtain ⟨t, rfl⟩ := hpre
  have := h ⟨pre.length, by simp⟩
  simpa [List.append_assoc] using this

theorem Each.left {P : List α → α → Prop} {as bs : List α} (h : Each P (as ++ bs)) : Each P as := by
  intro i
  have := h ⟨i.val, by have := i.isLt; simp only [List.length_append]; omega⟩
  simpa [List.take_append_of_le_length i.isLt.le, List.getElem_append_left i.isLt] using this

theorem Each.mono {P Q : List α → α → Prop} (hPQ : ∀ pre a, P pre a → Q pre a) {as : List α}
    (h : Each P as) : Each Q as := fun i => hPQ _ _ (h i)

end Lib
