import SmallClientSSE.Static.AmortizedExact

/-!
# Are searches of the Amortized scheme read-only?

`ReadOnly` compares a run with the run that leaves out some of its searches. It
holds of every run whose updates are all undisturbed, and fails in general: a
search leaves empty entries in the local levels, and the `insert` of a later
update into such a level keeps the empty entry and drops the record.
-/

namespace SmallClientSSE.Amortized

open Lib Static

/-- Leave out the elements marked `true`. -/
def keep {α : Type} : List Bool → List α → List α
  | true :: ms, _ :: as => keep ms as
  | false :: ms, a :: as => a :: keep ms as
  | _, as => as

@[simp] theorem keep_nil {α : Type} (ms : List Bool) : keep ms ([] : List α) = [] := by
  rcases ms with _ | ⟨⟨⟩, ms⟩ <;> rfl

@[simp] theorem keep_nil_left {α : Type} (as : List α) : keep [] as = as := by cases as <;> rfl

def OnlySearches (ms : List Bool) (calls : List Call) : Prop :=
  ∀ (i : Nat) (u : Upd), calls[i]? = some (.update u) → ms[i]? ≠ some true

theorem OnlySearches.tail {m : Bool} {ms : List Bool} {a : Call} {cs : List Call}
    (h : OnlySearches (m :: ms) (a :: cs)) : OnlySearches ms cs := fun i u hu => by
  have := h (i + 1) u (by simpa using hu)
  simpa using this

/-- Leaving out the marked searches changes the result of no other call. -/
def ReadOnly (E : Env) (N : CInt) (calls : List Call) (ms : List Bool) : Prop :=
  ∃ rs, outputs E (Client.init N) calls = some rs ∧
    outputs E (Client.init N) (keep ms calls) = some (keep ms rs)

theorem updatesOf_keep : ∀ (ms : List Bool) (cs : List Call), OnlySearches ms cs →
    updatesOf (keep ms cs) = updatesOf cs
  | ms, [], _ => by simp
  | [], _ :: _, _ => by simp
  | true :: _, .update u :: _, h => absurd rfl (h 0 u rfl)
  | true :: ms, .search _ :: cs, h => updatesOf_keep ms cs h.tail
  | false :: ms, .update u :: cs, h => congrArg (u :: ·) (updatesOf_keep ms cs h.tail)
  | false :: ms, .search _ :: cs, h => updatesOf_keep ms cs h.tail

theorem keep_subset {α : Type} : ∀ (ms : List Bool) (as : List α), keep ms as ⊆ as
  | ms, [] => by simp
  | [], _ :: _ => List.Subset.refl _
  | true :: ms, _ :: as => List.subset_cons_of_subset _ (keep_subset ms as)
  | false :: ms, a :: as => List.cons_subset_cons a (keep_subset ms as)

theorem answers_keep : ∀ (ms : List Bool) (cs : List Call) (us : List Upd), OnlySearches ms cs →
    answers us (keep ms cs) = keep ms (answers us cs)
  | ms, [], us, _ => by simp [answers]
  | [], _ :: _, us, _ => by simp
  | true :: ms, .update u :: cs, us, h => absurd rfl (h 0 u rfl)
  | true :: ms, .search w :: cs, us, h => answers_keep ms cs us h.tail
  | false :: ms, .update u :: cs, us, h => congrArg (none :: ·) (answers_keep ms cs _ h.tail)
  | false :: ms, .search w :: cs, us, h =>
    congrArg (some (answer us w) :: ·) (answers_keep ms cs us h.tail)

theorem Undisturbed.mono {pre pre' : List Call} {u : Upd} (hu : updatesOf pre' = updatesOf pre)
    (hs : ∀ t, searchedSince pre' t ⊆ searchedSince pre t) (h : Undisturbed pre u) :
    Undisturbed pre' u := by
  unfold Undisturbed at *
  rw [hu]
  exact fun hr v hv hmem => h hr v hv (hs _ hmem)

theorem cleanFrom_keep : ∀ (ms : List Bool) (cs pre pre' : List Call), OnlySearches ms cs →
    updatesOf pre' = updatesOf pre → (∀ t, searchedSince pre' t ⊆ searchedSince pre t) →
    CleanFrom pre cs → CleanFrom pre' (keep ms cs) := by
  intro ms cs
  induction cs generalizing ms with
  | nil =>
    intro pre pre' _ _ _ _
    rw [keep_nil]
    trivial
  | cons a cs ih =>
    intro pre pre' hms hu hs hclean
    have hsnoc : ∀ t, searchedSince (pre' ++ [a]) t ⊆ searchedSince (pre ++ [a]) t := by
      intro t
      cases a with
      | update u => simpa only [searchedSince_snoc_update] using hs t
      | search w =>
        simp only [searchedSince_snoc_search, hu]
        exact List.append_subset.mpr
          ⟨List.subset_append_of_subset_left _ (hs t), List.subset_append_right _ _⟩
    have husnoc : updatesOf (pre' ++ [a]) = updatesOf (pre ++ [a]) := by
      rw [updatesOf_append, updatesOf_append, hu]
    rcases ms with _ | ⟨m, ms⟩
    · have := ih [] (pre ++ [a]) (pre' ++ [a]) (fun i u _ => by simp) husnoc hsnoc
      rw [keep_nil_left] at this ⊢
      cases a with
      | update u => exact ⟨hclean.1.mono hu hs, this hclean.2⟩
      | search w => exact this hclean
    · cases m with
      | false =>
        have := ih ms (pre ++ [a]) (pre' ++ [a]) hms.tail husnoc hsnoc
        cases a with
        | update u => exact ⟨hclean.1.mono hu hs, this hclean.2⟩
        | search w => exact this hclean
      | true =>
        cases a with
        | update u => exact absurd rfl (hms 0 u rfl)
        | search w =>
          refine ih ms (pre ++ [.search w]) pre' hms.tail ?_ (fun t => ?_) hclean
          · rw [hu, updatesOf_snoc_search]
          · rw [searchedSince_snoc_search]
            exact List.subset_append_of_subset_left _ (hs t)

theorem RunOk.keep {E : Env} {N : CInt} {calls : List Call} (h : RunOk E N calls) {ms : List Bool}
    (hms : OnlySearches ms calls) : RunOk E N (keep ms calls) where
  keyword c hc := h.keyword c (keep_subset ms calls hc)
  capacity := by rw [updatesOf_keep ms calls hms]; exact h.capacity
  prf := by
    rw [updatesOf_keep ms calls hms]
    refine h.prf.mono (fun w hw => ?_) (le_refl _)
    obtain ⟨c, hc, rfl⟩ := List.mem_map.mp hw
    exact List.mem_map_of_mem (keep_subset ms calls hc)

/-- **Searches are read-only in every undisturbed run.** -/
theorem search_frame (E : Env) (N : CInt) (calls : List Call) (ms : List Bool)
    (hok : RunOk E N calls) (hms : OnlySearches ms calls) (hclean : CleanFrom [] calls) :
    ReadOnly E N calls ms := by
  obtain ⟨-, -, -, h1⟩ := run_spec hok calls [] _ rfl hclean (inv_init E N)
  obtain ⟨-, -, -, h2⟩ := run_spec (hok.keep hms) (keep ms calls) [] _ rfl
    (cleanFrom_keep ms calls [] [] hms rfl (fun _ => List.Subset.refl _) hclean) (inv_init E N)
  refine ⟨_, h1, ?_⟩
  rw [h2, answers_keep ms calls _ hms]

def sampleCalls : List Call :=
  [.update ⟨.INS, [97], cint 5⟩, .search [98], .update ⟨.INS, [97], cint 6⟩,
    .search [97]]

theorem search_frame_sample : ReadOnly plainEnv ⟨100, by decide⟩ sampleCalls [false, true] :=
  search_frame plainEnv ⟨100, by decide⟩ sampleCalls [false, true]
    ⟨by decide, lt_of_lt_of_le (by decide : (updatesOf sampleCalls).length < 2 ^ localSize)
      (Nat.pow_le_pow_right (by decide) (le_max_left _ _)),
      plainEnv_prfInj (by decide) (by decide)⟩
    (by
      intro i u hu
      match i with
      | 0 => simp
      | 1 => cases hu
      | i + 2 => simp)
    ⟨by decide +kernel, by decide +kernel, trivial⟩

/-- One insertion, and a search for its keyword before and after. -/
def lostCalls : List Call := [.search [97], .update ⟨.INS, [97], cint 1⟩, .search [97]]

/-- **A search before an update loses it.** -/
theorem search_loses_update : RunOk plainEnv ⟨100, by decide⟩ lostCalls ∧
    OnlySearches [true] lostCalls ∧ ¬ ReadOnly plainEnv ⟨100, by decide⟩ lostCalls [true] := by
  refine ⟨⟨by decide, lt_of_lt_of_le (by decide : (updatesOf lostCalls).length < 2 ^ localSize)
    (Nat.pow_le_pow_right (by decide) (le_max_left _ _)),
    plainEnv_prfInj (by decide) (by decide)⟩, ?_, ?_⟩
  · intro i u hu
    match i with
    | 0 => cases hu
    | i + 1 => simp
  · have h1 : outputs plainEnv (Client.init ⟨100, by decide⟩) lostCalls =
        some [some [], none, some []] := by decide +kernel
    have h2 : outputs plainEnv (Client.init ⟨100, by decide⟩) (keep [true] lostCalls) =
        some [none, some [⟨1, by decide⟩]] := by decide +kernel
    rintro ⟨rs, hr1, hr2⟩
    rw [h1, Option.some.injEq] at hr1
    subst hr1
    rw [h2] at hr2
    exact absurd hr2 (by decide)

end SmallClientSSE.Amortized
