import SmallClientSSE.Static.DeAmortizedLevels

/-!
# The merge schedule of the DeAmortized scheme

Between two updates the levels follow the `MergeSchedule` of the number of updates
made, and `upCnt` is the number of the set that a move goes to. So a whole update
keeps the invariant, whatever part of it was made during setup, and what it does at
each level can be read off the schedule (`history`).
-/

namespace SmallClientSSE.DeAmortized

open Lib Lib.MergeSchedule Static BASClient

variable {E : Env} {ks : List Str} {l n m : Nat} {us : List Upd} {setup : Bool} {d f : Nat → Nat}
  {c : Client}

theorem Inv.congr {d' f' : Nat → Nat} (h : Inv E ks l n us setup d f c)
    (hd : ∀ k, k < max l 1 → d' k = d k) (hf : ∀ k, k < max l 1 → f' k = f k) :
    Inv E ks l n us setup d' f' c := by
  have hbase : ∀ i, base l d' i = base l d i := by
    intro i
    unfold base
    split
    · rw [hd _ (by omega)]
    · rfl
  refine ⟨h.levels, fun i j hj => ?_, fun m hm => ?_, h.new0⟩
  · have hcont : contents l d' us i j = contents l d us i j := by
      unfold contents
      rw [hbase]
      by_cases hi : i < max l 1
      · rw [hd i hi]
      · rw [if_neg fun h => hi h.1, if_neg fun h => hi h.1]
    rw [hcont]
    exact h.place i j hj
  · rw [hd _ (by omega), hf _ (by omega)]
    exact h.new m hm

theorem Inv.tick (h : Inv E ks l n us setup d f c) (t : Int) :
    Inv E ks l n us setup d f { c with updateCounter := t } where
  levels := h.levels
  place := h.place
  new m hm := (h.new m hm).frame (.inr fun _ _ => rfl) rfl rfl fun _ _ => rfl
  new0 := h.new0

/-! ## The rounds of an update -/

/-- **The number of the NEW set**: one more than those completed. -/
theorem upCnt_eq {t : Nat} (htime : c.updateCounter = (t + 1 : Nat)) (h : Due (m + 1) t) :
    upCnt c (m + 1) = done (m + 1) t + 1 := by
  have hadd := done_add_moved h
  have hlt := moved_lt (m + 1) t
  have hceil : ⌈((c.updateCounter : ℚ) - (6 * 2 ^ m - 2)) / 2 ^ (m + 1)⌉ = (done (m + 1) t : Int) := by
    have hp : (0 : ℚ) < 2 ^ (m + 1) := by positivity
    have haddq : (2 ^ (m + 1) * done (m + 1) t + moved (m + 1) t + 2 ^ (m + 1 + 1) : ℚ) = t + 2 := by
      exact_mod_cast hadd
    have hltq : (moved (m + 1) t : ℚ) + 1 ≤ 2 ^ (m + 1) := by exact_mod_cast hlt
    have hnum : ((c.updateCounter : ℚ) - (6 * 2 ^ m - 2)) =
        2 ^ (m + 1) * done (m + 1) t + moved (m + 1) t + 1 - 2 ^ (m + 1) := by
      rw [htime]
      have h1 : (2 : ℚ) ^ (m + 1 + 1) = 4 * 2 ^ m := by ring
      have h2 : (2 : ℚ) ^ (m + 1) = 2 * 2 ^ m := by ring
      rw [h1] at haddq
      push_cast
      linarith
    have hm0 : (0 : ℚ) ≤ moved (m + 1) t := Nat.cast_nonneg _
    rw [Int.ceil_eq_iff, hnum, lt_div_iff₀ hp, div_le_iff₀ hp]
    push_cast
    constructor <;> nlinarith
  rw [upCnt, Nat.add_sub_cancel, hceil]

section

variable (hE : PrfInj E ks l n) (hks : ∀ w ∈ ks, Keyword w) (hmem : ∀ u ∈ us, u.keyword ∈ ks)
  (hn : us.length + 1 ≤ n) (hint : n < 2 ^ 31) (hcap : us.length + 1 ≤ 3 * 2 ^ max l 1 - 3)

include hE hks hmem hn hint hcap

/-- **What a round does**: nothing, a move, or a move that completes the NEW set and finds
an empty place. -/
theorem Inv.round (hm : m + 1 < l)
    (hI : Inv E ks l n us setup (stage done us.length (m + 1)) (stage moved us.length (m + 1)) c)
    (htime : c.updateCounter = (us.length + 1 : Nat)) :
    (¬ Due (m + 1) us.length ∧ ready c (m + 1) = false) ∨
    (Due (m + 1) us.length ∧ ready c (m + 1) = true ∧
      upCnt c (m + 1) = done (m + 1) us.length + 1 ∧
      ∃ w c', DeAmortized.move E c (m + 1) setup = some (w, c') ∧
        c'.updateCounter = c.updateCounter ∧
        newSize c' (m + 1) = moved (m + 1) us.length + 1 ∧
        Inv E ks l n us setup (stage done us.length (m + 1))
          (Function.update (stage moved us.length (m + 1)) (m + 1)
            (moved (m + 1) us.length + 1)) c' ∧
        (moved (m + 1) us.length + 1 = 2 ^ (m + 1) → freePlace c' (m + 1) =
          some (done (m + 1) us.length - base l (stage done us.length m) (m + 1)))) := by
  have hS := sched_stage hcap (m + 1)
  have hready := hI.ready_iff hS hm
  have hd : stage done us.length (m + 1) (m + 1) = done (m + 1) us.length := stage_of_le le_rfl
  have hd' : stage done us.length (m + 1) m = done m us.length := stage_of_le (by omega)
  have hf : stage moved us.length (m + 1) (m + 1) = moved (m + 1) us.length := stage_of_le le_rfl
  rw [hd, hd', ← due_iff] at hready
  by_cases hdue : Due (m + 1) us.length
  · right
    have hup := upCnt_eq htime hdue
    have hdue' := due_iff.mp hdue
    rw [← hd, ← hd'] at hdue'
    obtain ⟨w, c', hmove, hcnt, hsize, hI'⟩ := hI.move hS hm hdue' hE hks hmem (by omega) hint
      (by rw [hf]; exact moved_lt _ _) (by rw [hd]; exact hup)
    rw [hf] at hsize hI'
    refine ⟨hdue, hready.mpr hdue, hup, w, c', hmove, hcnt, hsize, hI', fun heq => ?_⟩
    have hbase : base l (stage done us.length (m + 1)) (m + 1) =
        base l (stage done us.length m) (m + 1) := by
      unfold base
      split
      · rw [stage_of_lt (by omega), stage_of_lt (by omega)]
      · rfl
    rw [hI'.freePlace_eq (hS.moved hdue' _) (by omega), hd, if_pos, hbase]
    unfold base
    split
    · rw [stage_of_lt (by omega)]
      exact room hdue heq
    · have htop : max l 1 = m + 1 + 1 := by omega
      rw [htop] at hcap
      exact room_top hdue heq hcap
  · left
    refine ⟨hdue, ?_⟩
    cases hr : ready c (m + 1) with
    | false => rfl
    | true => exact absurd (hready.mp hr) hdue

/-- **A round keeps the invariant.** -/
theorem Inv.level (hm : m + 1 < l)
    (hI : Inv E ks l n us setup (stage done us.length (m + 1)) (stage moved us.length (m + 1)) c)
    (htime : c.updateCounter = (us.length + 1 : Nat)) :
    ∃ c', DeAmortized.level E setup c (m + 1) = some c' ∧ c'.updateCounter = c.updateCounter ∧
      Inv E ks l n us setup (stage done us.length m) (stage moved us.length m) c' := by
  have hS := sched_stage hcap (m + 1)
  have hd : stage done us.length (m + 1) (m + 1) = done (m + 1) us.length := stage_of_le le_rfl
  have hd' : stage done us.length (m + 1) m = done m us.length := stage_of_le (by omega)
  unfold DeAmortized.level
  rw [stage_pred done us.length m, stage_pred moved us.length m]
  rcases hI.round hE hks hmem hn hint hcap hm htime with
    ⟨hdue, hr⟩ | ⟨hdue, hr, hup, w, c1, hmove, hcnt, hsize, hI1, hfree⟩
  · rw [if_neg (by rw [hr]; exact Bool.false_ne_true), (succ_of_not_due hdue).1,
      (succ_of_not_due hdue).2, ← hd, ← stage_of_le (g := moved) (le_refl (m + 1)),
      Function.update_eq_self, Function.update_eq_self]
    exact ⟨c, rfl, rfl, hI⟩
  · have hdue' := due_iff.mp hdue
    rw [← hd, ← hd'] at hdue'
    simp only [hr, if_true, hmove, Option.bind_eq_bind, Option.bind_some, hsize, hup, Option.pure_def]
    by_cases heq : moved (m + 1) us.length + 1 = 2 ^ (m + 1)
    · have hS1 := hS.moved hdue' (moved (m + 1) us.length + 1)
      have hplace := hfree heq
      rw [hI1.freePlace_eq hS1 (by omega)] at hplace
      have hroom : stage done us.length (m + 1) (m + 1) ≤
          base l (stage done us.length (m + 1)) (m + 1) + 2 := by
        by_contra hcon
        rw [if_neg hcon] at hplace
        cases hplace
      have hus : ∀ u ∈ us, Keyword u.keyword := fun u hu => hks _ (hmem u hu)
      obtain ⟨hcnt2, hI2⟩ := hI1.complete hS1 hm hdue' (by omega) hint hus
        (by rw [Function.update_self, heq]) hroom ⟨us.length + 1, hn, hcnt.trans htime⟩ w
        (done (m + 1) us.length + 1)
      rw [if_pos heq]
      refine ⟨_, rfl, hcnt2.trans hcnt, ?_⟩
      rw [(succ_of_eq hdue heq).1, (succ_of_eq hdue heq).2]
      rwa [oneMore, hd, Function.update_idem] at hI2
    · have hlt : moved (m + 1) us.length + 1 < 2 ^ (m + 1) :=
        lt_of_le_of_ne (moved_lt (m + 1) us.length) heq
      rw [if_neg heq, (succ_of_lt hdue hlt).1, (succ_of_lt hdue hlt).2, ← hd,
        Function.update_eq_self]
      exact ⟨c1, rfl, hcnt, hI1⟩

end

/-! ## A whole update -/

theorem levelsFrom_eq {i : Nat} (h : i < l) : levelsFrom l i = levelsFrom l (i + 1) ++ [i] := by
  rw [levelsFrom, levelsFrom, show l - i = l - (i + 1) + 1 by omega, List.range'_succ,
    List.reverse_cons]

theorem reach_pred (hm : m + 1 < c.l) :
    reach E c setup m = (reach E c setup (m + 1)).bind fun c' => level E setup c' (m + 1) := by
  unfold reach
  split
  · rw [levelsFrom_eq hm, run_append]
    simp only [run_cons, run_nil, Option.bind_fun_some]
  · rfl

section

variable (hE : PrfInj E ks l n) (hks : ∀ w ∈ ks, Keyword w) (hmem : ∀ u ∈ us, u.keyword ∈ ks)
  (hn : us.length + 1 ≤ n) (hint : n < 2 ^ 31) (hcap : us.length + 1 ≤ 3 * 2 ^ max l 1 - 3)

include hE hks hmem hn hint hcap

/-- **Every level is reached in its stage of the schedule.** -/
theorem Inv.reach (hI : Inv E ks l n us setup (fun k => done k us.length)
    (fun k => moved k us.length) c) (htime : c.updateCounter = us.length) (i : Nat) :
    ∃ c', DeAmortized.reach E c setup i = some c' ∧ c'.updateCounter = (us.length + 1 : Nat) ∧
      Inv E ks l n us setup (stage done us.length i) (stage moved us.length i) c' := by
  have hin : InInt (c.updateCounter + 1) := by
    rw [htime]
    exact_mod_cast inInt_natCast (show us.length + 1 < 2 ^ 31 by omega)
  have htop : ∀ i, l ≤ i + 1 → ∃ c', DeAmortized.reach E c setup i = some c' ∧
      c'.updateCounter = (us.length + 1 : Nat) ∧
      Inv E ks l n us setup (stage done us.length i) (stage moved us.length i) c' := by
    intro i hi
    have hnil : levelsFrom c.l (i + 1) = [] := by
      rw [hI.levels, levelsFrom, show l - (i + 1) = 0 by omega]
      rfl
    refine ⟨{ c with updateCounter := c.updateCounter + 1 }, ?_, ?_, ?_⟩
    · rw [DeAmortized.reach, if_pos hin, hnil]
      rfl
    · rw [htime]
      push_cast
      rfl
    · exact (hI.tick _).congr (fun k hk => stage_of_le (by omega)) fun k hk => stage_of_le (by omega)
  by_cases hle : l ≤ i + 1
  · exact htop i hle
  · obtain ⟨k, hk⟩ : ∃ k, i + 1 + k = l := ⟨l - (i + 1), by omega⟩
    clear hle
    induction k generalizing i with
    | zero => exact htop i (by omega)
    | succ k ih =>
      obtain ⟨c1, hc1, htime1, hI1⟩ := ih (i + 1) (by omega)
      obtain ⟨c', hc', hcnt, hI'⟩ := hI1.level hE hks hmem hn hint hcap (by omega) htime1
      refine ⟨c', ?_, hcnt.trans htime1, hI'⟩
      rw [reach_pred (by rw [hI.levels]; omega), hc1]
      exact hc'

end

/-! ## The record of an update -/

theorem stored_single (w : Str) (x : Block) : Stored E
    (.client ((∅ : Table Str Block).insertAll
      ((∅ : Table Str Block).put (w ++ [dash, 49]) x).pairs)) [(w, x)] := by
  have hkey : w ++ [dash, 49] = localAddr w 1 := by
    rw [localAddr, localKey, intStr_one]
  have hput : ((∅ : Table Str Block).put (w ++ [dash, 49]) x).pairs = [(localAddr w 1, x)] := by
    rw [Table.pairs_put (AList.notMem_empty _), hkey]
    rfl
  have := (Numbered.empty (V := Block) localAddr).snoc (localAddr_inj [w] 1) (by simp)
    Nat.zero_lt_one (List.mem_singleton_self w) x
  rw [hput, Table.insertAll, List.foldl_cons, if_neg (AList.notMem_empty _), List.foldl_nil]
  exact this

theorem free_zero (c : Client) (j : Nat) : free c j 0 = decide ((c.data j 0).pairs.length = 0) := by
  rw [free, if_pos (by decide)]

/-- **The record enters an empty place** of level 0. -/
theorem Inv.recordPlace_eq {len : Nat} (hlen : us.length = len) (hd0 : d 0 = len)
    (hI : Inv E ks l n us setup d f c) (hS : Sched l len d f) (hroom : len ≤ base l d 0 + 2) :
    recordPlace c = len - base l d 0 ∧ free c (recordPlace c) 0 = true := by
  subst hlen
  have hlow := hS.low 0 (by omega)
  rw [hd0] at hlow
  have hfree : ∀ j, j < 3 → free c j 0 = decide (us.length ≤ base l d 0 + j) := fun j hj => by
    rw [hI.free_eq hS (by omega) hj, hd0]
  have hp : recordPlace c = us.length - base l d 0 := by
    have h0 := hfree 0 (by omega)
    have h1 := hfree 1 (by omega)
    rw [free_zero] at h0 h1
    have h0' := decide_eq_decide.mp h0
    have h1' := decide_eq_decide.mp h1
    unfold recordPlace
    by_cases hz : (c.data 0 0).pairs.length = 0
    · rw [if_pos hz]
      have := h0'.mp hz
      omega
    · rw [if_neg hz]
      by_cases ho : (c.data 1 0).pairs.length = 0
      · rw [if_pos ho]
        have := h1'.mp ho
        omega
      · rw [if_neg ho]
        omega
  refine ⟨hp, ?_⟩
  rw [hp, hfree _ (by omega)]
  exact decide_eq_true (by omega)

/-- Complete sets stay as they are when an update is made. -/
theorem contents_append {i : Nat} (hfull : d i * 2 ^ i ≤ us.length) (vs : List Upd) (j : Nat) :
    contents l d (us ++ vs) i j = contents l d us i j := by
  unfold contents
  split
  · next h => exact block_append ((Nat.mul_le_mul_right _ h.2).trans hfull)
  · rfl

/-- Room at level 0, where every record is a complete set. -/
theorem room_zero {t : Nat} (hcap : t + 1 ≤ 3 * 2 ^ max l 1 - 3) :
    t ≤ base l (stage done t 0) 0 + 2 := by
  unfold base
  split
  · rw [stage_of_lt (by omega)]
    have := room (i := 0) (n := t) (by unfold Due; omega) (by simp)
    rwa [done_zero] at this
  · rw [show max l 1 = 1 by omega] at hcap
    omega

theorem Inv.enter (hcap : us.length + 1 ≤ 3 * 2 ^ max l 1 - 3)
    (hI : Inv E ks l n us setup (stage done us.length 0) (stage moved us.length 0) c) (u : Upd) :
    Inv E ks l n (us ++ [u]) setup (fun k => done k (us.length + 1))
      (fun k => moved k (us.length + 1)) (enter c u) := by
  have hS := sched_stage hcap 0
  have hroom := room_zero hcap
  have hd0 : stage done us.length 0 0 = us.length := (stage_of_le le_rfl).trans (done_zero _)
  have hlow := hS.low 0 (by omega)
  rw [hd0] at hlow
  obtain ⟨hp, hpfree⟩ := hI.recordPlace_eq rfl hd0 hS hroom
  have hbase : ∀ i, base l (fun k => done k (us.length + 1)) i = base l (stage done us.length 0) i := by
    intro i
    unfold base
    split
    · rw [stage_of_lt (by omega)]
    · rfl
  have hempty : c.data (recordPlace c) 0 = ∅ := by
    have hz : (c.data (recordPlace c) 0).pairs = [] :=
      List.eq_nil_of_length_eq_zero (of_decide_eq_true ((free_zero c _).symm.trans hpfree))
    refine Table.eq_empty fun k hk => ?_
    have hmem : k ∈ (c.data (recordPlace c) 0).keys := AList.mem_keys.mp hk
    rw [← Table.keys_pairs, hz] at hmem
    cases hmem
  have hsets : ∀ j i, i ≠ 0 ∨ (j ≠ recordPlace c ∧ j ≠ 3) → (DeAmortized.enter c u).setAt j i =
      c.setAt j i := by
    intro j i h
    have h1 : ¬ (j = 3 ∧ i = 0) := by omega
    have h2 : ¬ (j = recordPlace c ∧ i = 0) := by omega
    simp only [Client.setAt, DeAmortized.enter, assign_apply, h1, h2, if_false]
  have hplaced : (DeAmortized.enter c u).setAt (recordPlace c) 0 = .client
      ((∅ : Table Str Block).insertAll
        ((∅ : Table Str Block).put (u.keyword ++ [dash, 49]) u.value).pairs) := by
    have h3 : recordPlace c ≠ 3 := by omega
    simp only [Client.setAt, DeAmortized.enter, assign_apply, h3, false_and, if_false, and_self,
      if_true, hempty, hI.new0]
    rfl
  refine ⟨hI.levels, fun i j hj => ?_, fun m hm => ?_, ?_⟩
  · by_cases hi : i = 0
    · subst hi
      by_cases hjp : j = recordPlace c
      · have hcont : contents l (fun k => done k (us.length + 1)) (us ++ [u]) 0 j = [u] := by
          rw [contents, hbase, hjp, hp, Nat.add_sub_cancel' hlow, if_pos, block_zero_snoc]
          rw [done_zero]
          omega
        rw [hcont, hjp, hplaced]
        exact ⟨[(u.keyword, u.value)], stored_single _ _, List.Perm.refl _, trivial,
          fun _ => trivial⟩
      · have hcont : contents l (fun k => done k (us.length + 1)) (us ++ [u]) 0 j =
            contents l (stage done us.length 0) us 0 j := by
          refine Eq.trans ?_ (contents_append (hS.full 0) [u] j)
          rw [contents, contents, hbase, done_zero, hd0]
          refine if_congr ?_ rfl rfl
          rw [hp] at hjp
          omega
        rw [hcont, hsets j 0 (.inr ⟨hjp, by omega⟩)]
        exact hI.place 0 j hj
    · have hcont : contents l (fun k => done k (us.length + 1)) (us ++ [u]) i j =
          contents l (stage done us.length 0) us i j := by
        refine Eq.trans ?_ (contents_append (hS.full i) [u] j)
        rw [contents, contents, hbase, stage_of_lt (show 0 < i by omega)]
      rw [hcont, hsets j i (.inl hi)]
      exact hI.place i j hj
  · have hold := hI.new m hm
    rw [stage_of_lt (by omega), stage_of_lt (by omega)] at hold
    refine hold.frame ?_ (hsets 3 (m + 1) (.inl (by omega))) rfl fun _ _ => rfl
    by_cases hm0 : m = 0
    · subst hm0
      by_cases hbusy : moved 1 (us.length + 1) = 0
      · exact .inl hbusy
      · refine .inr fun j hj => hsets j 0 (.inr ?_)
        have hb := hS.busy 0 hm (by rwa [stage_of_lt (by omega)])
        rw [hd0, ← base_of_lt hm] at hb
        omega
    · exact .inr fun j hj => hsets j m (.inl hm0)
  · simp [DeAmortized.enter, assign_apply]

/-- **An update keeps the invariant.** -/
theorem Inv.update (hE : PrfInj E ks l n) (hks : ∀ w ∈ ks, Keyword w)
    (hmem : ∀ u ∈ us, u.keyword ∈ ks) (hn : us.length + 1 ≤ n) (hint : n < 2 ^ 31)
    (hcap : us.length + 1 ≤ 3 * 2 ^ max l 1 - 3)
    (hI : Inv E ks l n us setup (fun k => done k us.length) (fun k => moved k us.length) c)
    (htime : c.updateCounter = us.length) (u : Upd) :
    ∃ c', DeAmortized.update E c u setup = some c' ∧ c'.updateCounter = (us.length + 1 : Nat) ∧
      Inv E ks l n (us ++ [u]) setup (fun k => done k (us.length + 1))
        (fun k => moved k (us.length + 1)) c' := by
  obtain ⟨c1, hc1, htime1, hI1⟩ := hI.reach hE hks hmem hn hint hcap htime 0
  exact ⟨DeAmortized.enter c1 u, by rw [DeAmortized.update, hc1]; rfl, htime1, hI1.enter hcap u⟩

end SmallClientSSE.DeAmortized
