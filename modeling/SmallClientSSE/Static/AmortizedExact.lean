import SmallClientSSE.Static.AmortizedLevels

/-!
# Runs of the Amortized scheme

A run whose updates are all undisturbed keeps the level invariant, and each of
its searches returns the `answer`, which depends on the updates only.
`levels_exact` is the state after updates alone.
-/

namespace SmallClientSSE.Amortized

open Lib Lib.BinaryCounter Static BASClient

/-- The ids with more insertions than deletions, as a search tallies them. -/
def answer (us : List Upd) (w : Str) : List CInt :=
  Tally.below (Tally.tally ((us.filter fun u => u.keyword = w).map fun u => (u.ind, u.op.weight)))

theorem mem_answer (us : List Upd) (w : Str) (ind : CInt) : ind ∈ answer us w ↔ Live us w ind := by
  rw [answer, Tally.mem_below_tally, totalAt_updates, Live]
  omega

theorem pairwise_answer (us : List Upd) (w : Str) : (answer us w).Pairwise (· < ·) :=
  Tally.pairwise_below (Tally.sorted_tally _)

/-- What the calls of a run return when no record is lost. -/
def answers : List Upd → List Call → List (Option (List CInt))
  | _, [] => []
  | us, .update u :: cs => none :: answers (us ++ [u]) cs
  | us, .search w :: cs => some (answer us w) :: answers us cs

/-- Every update of `cs`, made after `pre`, is undisturbed. -/
def CleanFrom : List Call → List Call → Prop
  | _, [] => True
  | pre, .update u :: cs => Undisturbed pre u ∧ CleanFrom (pre ++ [.update u]) cs
  | pre, .search w :: cs => CleanFrom (pre ++ [.search w]) cs

/-- What a run assumes: keyword lengths, the capacity, a PRF injective on the
inputs used. -/
structure RunOk (E : Env) (N : CInt) (calls : List Call) : Prop where
  keyword : ∀ c ∈ calls, Keyword c.keyword
  capacity : (updatesOf calls).length < 2 ^ max localSize (numOfDataSets N)
  prf : PrfInj E (calls.map Call.keyword) (updatesOf calls).length

theorem numOfDataSets_le (N : CInt) : numOfDataSets N ≤ 31 := by
  obtain ⟨z, h1, h2⟩ := N
  refine Nat.clog_le_of_le_pow ?_
  simp only
  omega

theorem RunOk.length_lt {E : Env} {N : CInt} {calls : List Call} (h : RunOk E N calls) :
    (updatesOf calls).length < 2 ^ 32 := by
  have h1 := numOfDataSets_le N
  have h2 : 2 ^ max localSize (numOfDataSets N) ≤ 2 ^ 31 :=
    Nat.pow_le_pow_right (by omega) (max_le (by unfold localSize; omega) h1)
  have := h.capacity
  omega

theorem PrfInj.mono {E : Env} {ks ks' : List Str} {n n' : Nat} (h : PrfInj E ks n)
    (hks : ∀ w ∈ ks', w ∈ ks) (hn : n' ≤ n) : PrfInj E ks' n' := by
  intro t ht
  refine (h t (by omega)).mono ?_
  rintro p ⟨w, hw, h1, h2⟩
  exact ⟨w, hks w hw, h1, by omega⟩

section

variable {E : Env} {N : CInt} {all : List Call}

/-- **Every undisturbed run succeeds, keeps the invariant and answers searches.** -/
theorem run_spec (h : RunOk E N all) : ∀ (cs pre : List Call) (c : Client), pre ++ cs = all →
    CleanFrom pre cs → Inv E N pre c →
    ∃ c', run (step E) c cs = some c' ∧ Inv E N all c' ∧
      outputs E c cs = some (answers (updatesOf pre) cs) := by
  have hks : ∀ w ∈ all.map Call.keyword, Keyword w := by
    intro w hw
    obtain ⟨c, hc, rfl⟩ := List.mem_map.mp hw
    exact h.keyword c hc
  have hlt := h.length_lt
  have hcap := h.capacity
  intro cs
  induction cs with
  | nil =>
    rintro pre c rfl - hI
    rw [List.append_nil]
    exact ⟨c, rfl, hI, rfl⟩
  | cons a cs ih =>
    intro pre c hall hclean hI
    have hall' : (pre ++ [a]) ++ cs = all := by rw [← hall, List.append_assoc]; rfl
    have hsplit : updatesOf all = updatesOf (pre ++ [a]) ++ updatesOf cs := by
      rw [← hall', updatesOf_append]
    have hlen := congrArg List.length hsplit
    rw [List.length_append] at hlen
    have hmem : ∀ v ∈ updatesOf (pre ++ [a]), v.keyword ∈ all.map Call.keyword := fun v hv =>
      keyword_of_mem_updatesOf (hsplit ▸ List.mem_append_left _ hv)
    cases a with
    | update u =>
      rw [updatesOf_snoc_update] at hlen hmem
      rw [List.length_append, List.length_singleton] at hlen
      obtain ⟨c1, hc1, hI1⟩ := update_step h.prf hks hI hmem (by omega) (by omega) (by omega)
        hclean.1
      obtain ⟨c', hrun, hI', hout⟩ := ih _ c1 hall' hclean.2 hI1
      rw [updatesOf_snoc_update] at hout
      exact ⟨c', by simp [step, exec, hc1, hrun], hI', by simp [outputs, exec, hc1, hout, answers]⟩
    | search w =>
      rw [updatesOf_snoc_search] at hlen hmem
      have hw : w ∈ all.map Call.keyword := by
        rw [← hall]
        exact List.mem_map_of_mem (List.mem_append_right _ List.mem_cons_self)
      obtain ⟨bs, hs, hperm⟩ := search_step h.prf hks hI hmem (by omega) (by omega) hw
      have hans : Tally.below (Tally.tally (bs.map plain)) = answer (updatesOf pre) w :=
        Tally.below_tally_perm hperm
      rw [hans] at hs
      obtain ⟨c', hrun, hI', hout⟩ := ih _ _ hall' hclean (touch_inv hI w)
      rw [updatesOf_snoc_search] at hout
      exact ⟨c', by simp [step, exec, hs, hrun], hI', by simp [outputs, exec, hs, hout, answers]⟩

end

/-! ## Updates alone -/

theorem updatesOf_map (us : List Upd) : updatesOf (us.map .update) = us := by
  induction us with
  | nil => rfl
  | cons u us ih => simp [updatesOf, ih]

theorem searchedSince_updates (us : List Upd) : ∀ t, searchedSince (us.map .update) t = [] := by
  induction us with
  | nil => exact fun _ => rfl
  | cons u us ih => exact fun t => ih (t - 1)

theorem cleanFrom_updates (us : List Upd) : ∀ pre : List Upd,
    CleanFrom (pre.map .update) (us.map .update) := by
  induction us with
  | nil => exact fun _ => trivial
  | cons u us ih =>
    intro pre
    refine ⟨fun _ v _ => ?_, ?_⟩
    · rw [searchedSince_updates]
      exact List.not_mem_nil
    · have := ih (pre ++ [u])
      rwa [List.map_append] at this

theorem levelRecords_perm {E : Env} {N : CInt} {calls : List Call} {c : Client}
    (hI : Inv E N calls c) (hus : ∀ u ∈ updatesOf calls, Keyword u.keyword) (i : Nat) :
    (levelRecords E c i).Perm
      ((segment (updatesOf calls) i).map fun u => (u.keyword, u.op.toByte, u.ind)) := by
  unfold levelRecords
  split
  · next hi => exact perm_read_of_perm (hI.tables i hi)
  · next hi =>
    cases hbit : (updatesOf calls).length.testBit i with
    | true =>
      obtain ⟨-, t, -, -, hh⟩ := hI.used i (by omega) hbit
      have := perm_tag_of_perm (fun u hu => hus u (mem_of_mem_segment hu))
        (allData_holds hh (List.Perm.refl _))
      rw [List.map_map] at this
      have := perm_read_of_perm (l := (c.L.server i).pairs.map fun item =>
        ((E.aes.decode item.2 (c.keys i)).cstr, E.aes.decode item.2 (c.keys i)))
        (by rw [List.map_map]; exact this)
      rwa [List.map_map] at this
    | false =>
      rw [segment_unused hbit, (hI.free i (by omega) hbit).2.2]
      exact List.Perm.refl _

/-- **The levels after a run of updates**, and what a search then returns. -/
theorem levels_exact (E : Env) (N : CInt) (us : List Upd) (w : Str) (hw : Keyword w)
    (hus : ∀ u ∈ us, Keyword u.keyword)
    (hcap : us.length < 2 ^ max localSize (numOfDataSets N))
    (hprf : PrfInj E (us.map Upd.keyword ++ [w]) us.length) :
    ∃ c, runCalls E N (us.map .update) = some c ∧
      (∀ i, i < localSize → (c.data i ≠ ∅ ↔ us.length.testBit i = true)) ∧
      (∀ i, localSize ≤ i → i < numOfDataSets N →
        (c.L.server i ≠ ∅ ↔ us.length.testBit i = true) ∧
        c.L.exist i = us.length.testBit i ∧ (c.keys i).isSome = us.length.testBit i) ∧
      (∀ i, i < max localSize (numOfDataSets N) →
        (levelRecords E c i).length = if us.length.testBit i then 2 ^ i else 0) ∧
      ((List.range (max localSize (numOfDataSets N))).flatMap (levelRecords E c)).Perm
        (us.map fun u => (u.keyword, u.op.toByte, u.ind)) ∧
      ∃ res c', search E c w = some (res, c') ∧ res.Pairwise (· < ·) ∧
        ∀ ind, ind ∈ res ↔ Live us w ind := by
  have hcalls : updatesOf (us.map .update) = us := updatesOf_map us
  have hkws : (us.map Call.update).map Call.keyword = us.map Upd.keyword := by
    rw [List.map_map]
    rfl
  have hok : RunOk E N (us.map .update) := by
    refine ⟨?_, by rwa [hcalls], ?_⟩
    · intro c hc
      obtain ⟨u, hu, rfl⟩ := List.mem_map.mp hc
      exact hus u hu
    · rw [hkws, hcalls]
      exact hprf.mono (fun v hv => List.mem_append_left _ hv) (le_refl _)
  obtain ⟨c, hrun, hI, -⟩ := run_spec hok _ [] (Client.init N) (List.nil_append _)
    (cleanFrom_updates us []) (inv_init E N)
  have hrec : ∀ i, (levelRecords E c i).Perm ((segment us i).map
      fun u => (u.keyword, u.op.toByte, u.ind)) := by
    have := levelRecords_perm hI (by rwa [hcalls])
    rwa [hcalls] at this
  have hlen : ∀ i, (levelRecords E c i).length = if us.length.testBit i then 2 ^ i else 0 := by
    intro i
    rw [(hrec i).length_eq, List.length_map, length_segment]
  have hne : ∀ i, us.length.testBit i = true → levelRecords E c i ≠ [] := by
    intro i hbit h
    have := hlen i
    rw [if_pos hbit, h] at this
    have := Nat.two_pow_pos i
    simp_all
  have hks : ∀ v ∈ us.map Upd.keyword ++ [w], Keyword v := by
    intro v hv
    rcases List.mem_append.mp hv with h | h
    · obtain ⟨u, hu, rfl⟩ := List.mem_map.mp h
      exact hus u hu
    · rw [List.mem_singleton.mp h]
      exact hw
  refine ⟨c, hrun, fun i hi => ⟨fun hd => ?_, fun hbit hd => ?_⟩, fun i hle hi => ⟨⟨fun hd => ?_,
    fun hbit hd => ?_⟩, ?_, ?_⟩, fun i _ => hlen i, ?_, ?_⟩
  · by_contra hbit
    refine hd (Table.eq_empty fun k hk => ?_)
    have := hI.touched i hi (by rw [hcalls]; simpa using hbit) k hk
    rw [searchedSince_updates] at this
    cases this
  · exact hne i hbit (by simp [levelRecords, hi, hd])
  · by_contra hbit
    exact hd (hI.free i hle (by rw [hcalls]; simpa using hbit)).2.2
  · exact hne i hbit (by simp [levelRecords, Nat.not_lt.mpr hle, hd])
  · cases hbit : us.length.testBit i with
    | true => exact (hI.used i hle (by rwa [hcalls])).1
    | false => exact (hI.free i hle (by rwa [hcalls])).1
  · cases hbit : us.length.testBit i with
    | true =>
      obtain ⟨-, t, -, hk, -⟩ := hI.used i hle (by rwa [hcalls])
      rw [hk]
      rfl
    | false =>
      rw [(hI.free i hle (by rwa [hcalls])).2.1]
      rfl
  · refine List.Perm.trans (List.Perm.flatMap_left _ fun i _ => hrec i) ?_
    rw [← List.map_flatMap]
    exact (flatMap_segment_all hcap).map _
  · obtain ⟨bs, hs, hperm⟩ := search_step hprf hks hI
      (by
        rw [hcalls]
        exact fun u hu => List.mem_append_left _ (List.mem_map_of_mem hu))
      (by rw [hcalls]) (by rwa [hcalls]) (List.mem_append_right _ List.mem_cons_self)
    rw [hcalls] at hperm
    refine ⟨_, _, hs, Tally.pairwise_below (Tally.sorted_tally _), fun ind => ?_⟩
    rw [Tally.below_tally_perm hperm]
    exact mem_answer us w ind

/-! ## A concrete environment -/

/-- No encryption at all, the identity as PRF, zero keys. -/
def plainEnv : Env := ⟨plainAes, id, fun _ => Buf.zero, HashOrder.stored⟩

theorem plainEnv_prfInj {ks : List Str} {n : Nat} (hks : ∀ w ∈ ks, Keyword w) (hn : n < 2 ^ 31) :
    PrfInj plainEnv ks n := by
  rintro t - ⟨a, i⟩ ⟨w, hw, rfl, hi⟩ ⟨b, j⟩ ⟨v, hv, rfl, hj⟩ h
  simp only [getAESRandomValue, plainEnv, id] at hi hj h
  obtain ⟨h1, h2⟩ := plainAes_address_inj (hks w hw) (hks v hv) (i := i) (j := j)
    ⟨by omega, by omega⟩ ⟨by omega, by omega⟩ h
  exact Prod.ext h1 (by exact_mod_cast h2)

def sampleUpdates : List Upd :=
  [⟨.INS, [97], cint 5⟩, ⟨.INS, [98], cint 6⟩, ⟨.DEL, [97], cint 5⟩]

theorem levels_exact_sample :
    ∃ c, runCalls plainEnv ⟨100, by decide⟩ (sampleUpdates.map .update) = some c ∧
      (∀ i, i < localSize → (c.data i ≠ ∅ ↔ sampleUpdates.length.testBit i = true)) ∧
      (∀ i, localSize ≤ i → i < numOfDataSets ⟨100, by decide⟩ →
        (c.L.server i ≠ ∅ ↔ sampleUpdates.length.testBit i = true) ∧
        c.L.exist i = sampleUpdates.length.testBit i ∧
        (c.keys i).isSome = sampleUpdates.length.testBit i) ∧
      (∀ i, i < max localSize (numOfDataSets ⟨100, by decide⟩) →
        (levelRecords plainEnv c i).length = if sampleUpdates.length.testBit i then 2 ^ i else 0) ∧
      ((List.range (max localSize (numOfDataSets ⟨100, by decide⟩))).flatMap
        (levelRecords plainEnv c)).Perm
        (sampleUpdates.map fun u => (u.keyword, u.op.toByte, u.ind)) ∧
      ∃ res c', search plainEnv c [98] = some (res, c') ∧ res.Pairwise (· < ·) ∧
        ∀ ind, ind ∈ res ↔ Live sampleUpdates [98] ind :=
  levels_exact plainEnv ⟨100, by decide⟩ sampleUpdates [98] (by decide) (by decide)
    (lt_of_lt_of_le (by decide : sampleUpdates.length < 2 ^ localSize)
      (Nat.pow_le_pow_right (by decide) (le_max_left _ _)))
    (plainEnv_prfInj (by decide) (by decide))

end SmallClientSSE.Amortized
