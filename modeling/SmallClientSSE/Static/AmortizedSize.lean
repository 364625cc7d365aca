import SmallClientSSE.Static.AmortizedExact

/-!
# How many updates the Amortized scheme has levels for

The constructor makes `ceil(log2(N))` server sets. The update with number `n + 1`
fills the level of the lowest zero bit of `n`, which for `n + 1 = 2 ^ k` is `k`: when
`N` is a power of two from `2 ^ 10` on, the last of `N` updates is past the end
(`sizes_suffice_iff`).
-/

namespace SmallClientSSE.Amortized

open Lib Lib.BinaryCounter Static

/-- The level of the next update is a local one or has a server set. -/
def InRange (c : Client) : Prop := rm0 c.updateCounter < localSize ∨ rm0 c.updateCounter < c.L.size

section

variable {E : Env} {N : CInt} {c c' : Client} {u : Upd} {w : Str}

theorem update_isSome : (update E c u).isSome ↔ InRange c := by
  unfold update InRange
  simp only
  split
  · next h => simp only [Option.isSome_none, Bool.false_eq_true, false_iff]; omega
  · next h => simp only [Option.isSome_some, true_iff]; omega

theorem foldl_takeLocal_size (t : Nat) (is : List Nat) : ∀ st : Client × Table Str (List Block),
    (is.foldl (takeLocal E t) st).1.updateCounter = st.1.updateCounter ∧
      (is.foldl (takeLocal E t) st).1.L.size = st.1.L.size := by
  induction is with
  | nil => exact fun _ => ⟨rfl, rfl⟩
  | cons i is ih => exact fun st => ih _

theorem foldl_takeSet_size (t : Nat) (is : List Nat) : ∀ st : Client × Table Str (List Block),
    (is.foldl (takeSet E t) st).1.updateCounter = st.1.updateCounter ∧
      (is.foldl (takeSet E t) st).1.L.size = st.1.L.size := by
  induction is with
  | nil => exact fun _ => ⟨rfl, rfl⟩
  | cons i is ih => exact fun st => ih _

/-- An update counts itself and keeps the number of sets. -/
theorem update_size (h : update E c u = some c') :
    c'.updateCounter = c.updateCounter + 1 ∧ c'.L.size = c.L.size := by
  unfold update at h
  simp only at h
  split at h
  · cases h
  · obtain rfl := Option.some.inj h
    have h1 := foldl_takeLocal_size (E := E) c.updateCounter
      (List.range (min (rm0 c.updateCounter) localSize))
      ({ c with updateCounter := c.updateCounter + 1 }, ∅)
    have h2 := foldl_takeSet_size (E := E) c.updateCounter
      (List.range' localSize (rm0 c.updateCounter - localSize))
      ((List.range (min (rm0 c.updateCounter) localSize)).foldl (takeLocal E c.updateCounter)
        ({ c with updateCounter := c.updateCounter + 1 }, ∅))
    unfold collect fill
    split
    · exact ⟨h2.1.trans h1.1, h2.2.trans h1.2⟩
    · exact ⟨h2.1.trans h1.1, h2.2.trans h1.2⟩

theorem search_size {r : List CInt × Client} (h : search E c w = some r) :
    r.2.updateCounter = c.updateCounter ∧ r.2.L.size = c.L.size := by
  unfold search at h
  obtain ⟨tmpRes, -, h⟩ := Option.bind_eq_some_iff.mp h
  obtain rfl := Option.some.inj h
  exact ⟨rfl, rfl⟩

theorem run_size {calls : List Call} (h : runCalls E N calls = some c) :
    c.updateCounter = (updatesOf calls).length ∧ c.L.size = numOfDataSets N := by
  induction calls using List.reverseRecOn generalizing c with
  | nil =>
    obtain rfl := Option.some.inj h
    exact ⟨rfl, rfl⟩
  | append_singleton calls a ih =>
    obtain ⟨d, hd, ha⟩ := run_split h
    obtain ⟨h1, h2⟩ := ih hd
    cases a with
    | update u =>
      have hu : update E d u = some c := by
        simpa [step, exec, run, Option.map_map, Function.comp_def] using ha
      obtain ⟨h3, h4⟩ := update_size hu
      rw [updatesOf_snoc_update, List.length_append, List.length_singleton]
      exact ⟨by omega, h4.trans h2⟩
    | search w =>
      obtain ⟨r, hr, rfl⟩ : ∃ r, search E d w = some r ∧ r.2 = c := by
        simpa [step, exec, run, Option.map_map, Function.comp_def] using ha
      obtain ⟨h3, h4⟩ := search_size hr
      rw [updatesOf_snoc_search]
      exact ⟨h3.trans h1, h4.trans h2⟩

end

/-! ## The last level -/

theorem rm0_lt {n m : Nat} (hn : n + 1 < 2 ^ m) (h32 : n + 1 < 2 ^ 32) : rm0 n < m := by
  obtain ⟨r, hr⟩ := exists_carryAt n
  have hpow : ∀ {m : Nat}, n + 1 < 2 ^ m → r < m := fun hm =>
    (Nat.pow_lt_pow_iff_right (by omega)).mp (lt_of_le_of_lt hr.le hm)
  rw [show rm0 n = r from hr.log2_eq (hpow h32)]
  exact hpow hn

theorem rm0_pow {n k : Nat} (hn : n + 1 = 2 ^ k) (hk : k < 32) : rm0 n = k := by
  have hc : CarryAt n k := by
    unfold CarryAt
    rw [Nat.mod_eq_of_lt (by rw [pow_succ]; omega)]
    omega
  exact hc.log2_eq hk

/-- Every update of every run of at most `N` updates finds its level. -/
def SizesSuffice (N : CInt) : Prop :=
  ∀ (E : Env) (calls : List Call) (c : Client), runCalls E N calls = some c →
    ((updatesOf calls).length : Int) < N.val → InRange c ∧ ∀ u, (update E c u).isSome

/-- The last of `2 ^ k` updates fills level `k`, which is one too many. -/
theorem not_sizesSuffice {N : CInt} {k : Nat} (hk : N.val = 2 ^ k) (h10 : 10 ≤ k) :
    ¬ SizesSuffice N := by
  intro hall
  have hint := N.2.2
  have hkc : N.val = ((2 ^ k : Nat) : Int) := by
    rw [hk]
    push_cast
    rfl
  have hkn : N.val.toNat = 2 ^ k := by
    rw [hkc]
    exact Int.toNat_natCast _
  have h31 : k < 31 := by
    by_contra h
    have : 2 ^ 31 ≤ 2 ^ k := Nat.pow_le_pow_right (by decide) (by omega)
    omega
  have hrun : ∀ n : Nat, (n : Int) < N.val → ∃ c, runCalls plainEnv N
      ((List.replicate n ⟨.INS, [97], ⟨0, by decide⟩⟩).map .update) = some c := by
    intro n
    induction n with
    | zero => exact fun _ => ⟨_, rfl⟩
    | succ n ih =>
      intro hn
      obtain ⟨c, hc⟩ := ih (by omega)
      obtain ⟨c', hc'⟩ := Option.isSome_iff_exists.mp ((hall plainEnv _ c hc (by
        rw [updatesOf_map, List.length_replicate]; omega)).2 ⟨.INS, [97], ⟨0, by decide⟩⟩)
      refine ⟨c', ?_⟩
      rw [List.replicate_succ', List.map_append]
      exact run_snoc hc (by simp [step, exec, hc'])
  have hpos := Nat.two_pow_pos k
  obtain ⟨c, hc⟩ := hrun (2 ^ k - 1) (by omega)
  obtain ⟨h1, h2⟩ := run_size hc
  have h3 := (hall plainEnv _ c hc (by rw [updatesOf_map, List.length_replicate]; omega)).1
  rw [updatesOf_map, List.length_replicate] at h1
  unfold InRange at h3
  rw [h1, rm0_pow (Nat.sub_add_cancel hpos) (by omega), h2, numOfDataSets, hkn,
    Nat.clog_pow 2 k (by decide)] at h3
  unfold localSize at h3
  omega

/-- **The levels suffice for `N` updates** when `N` is below `2 ^ 10` or no power of two. -/
theorem sizes_suffice_iff (N : CInt) (hN : 1 ≤ N.val) :
    SizesSuffice N ↔ (N.val < 2 ^ 10 ∨ ∀ k : Nat, N.val ≠ 2 ^ k) := by
  have hint := N.2.2
  constructor
  · intro hall
    by_contra hbad
    push Not at hbad
    obtain ⟨hbig, k, hk⟩ := hbad
    refine not_sizesSuffice hk ?_ hall
    by_contra h
    have h1 : (2 : Int) ^ k ≤ 2 ^ 9 := pow_le_pow_right₀ (by decide) (by omega)
    rw [hk] at hbig
    exact absurd (hbig.trans h1) (by decide)
  · intro hok E calls c hrun hlen
    obtain ⟨h1, h2⟩ := run_size hrun
    have hin : InRange c := by
      unfold InRange
      rw [h1, h2, numOfDataSets]
      rcases hok with hsmall | hnot
      · exact .inl (rm0_lt (by unfold localSize; omega) (by omega))
      · refine .inr (rm0_lt ?_ (by omega))
        have hle := Nat.le_pow_clog (b := 2) (by decide) N.val.toNat
        have hne : N.val.toNat ≠ 2 ^ Nat.clog 2 N.val.toNat := fun e => by
          have h := hnot (Nat.clog 2 N.val.toNat)
          have hcast : ((2 ^ Nat.clog 2 N.val.toNat : Nat) : Int) =
              2 ^ Nat.clog 2 N.val.toNat := by push_cast; rfl
          omega
        omega
    exact ⟨hin, fun u => update_isSome.mpr hin⟩

theorem sizes_suffice_thousands : SizesSuffice ⟨3000, by decide⟩ :=
  (sizes_suffice_iff ⟨3000, by decide⟩ (by decide)).mpr <| .inr fun k hk => by
    have hk : (3000 : Int) = 2 ^ k := hk
    rcases lt_or_ge k 12 with hlt | hge
    · have := pow_le_pow_right₀ (by decide : (1 : Int) ≤ 2) (Nat.le_of_lt_succ hlt)
      exact absurd (hk.le.trans this) (by decide)
    · have := pow_le_pow_right₀ (by decide : (1 : Int) ≤ 2) hge
      exact absurd (this.trans hk.ge) (by decide)

/-- After 1023 updates with `N = 1024` the next one writes `keys[10]`, past the end. -/
theorem last_update_out_of_range : ¬ SizesSuffice ⟨1024, by decide⟩ :=
  not_sizesSuffice (k := 10) (by decide) (by decide)

end SmallClientSSE.Amortized
