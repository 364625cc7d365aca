import Mathlib.Data.List.Flatten
import Mathlib.Data.List.Perm.Basic
import Mathlib.Tactic.Ring

/-!
# The merge schedule of a de-amortized structure

Items arrive one by one and are kept in sets: level `i` has sets of `2 ^ i`
items. As soon as level `i` has two complete sets, every arrival moves one item
of these two into a new set of level `i + 1`; when it is complete the two are
discarded. After `n` arrivals level `i` has completed `done i n` sets and moved
`moved i n` items into the next one. Set `m` of level `i` is `block xs i m`, and
the sets in place partition the items (`perm_parts`).
-/

namespace Lib.MergeSchedule

/-- Sets of level `i` completed after `n` arrivals. -/
def done (i n : Nat) : Nat := (n + 2 - 2 ^ (i + 1)) / 2 ^ i

/-- Items in the set of level `i` that is being built. -/
def moved (i n : Nat) : Nat := (n + 2 - 2 ^ (i + 1)) % 2 ^ i

/-- The arrival after `n` moves an item into level `i`. -/
def Due (i n : Nat) : Prop := 2 ^ (i + 1) ≤ n + 2

instance (i n : Nat) : Decidable (Due i n) := inferInstanceAs (Decidable (_ ≤ _))

/-- What remains of a level's sets once those below `base` are merged. -/
def base (l : Nat) (d : Nat → Nat) (i : Nat) : Nat := if i + 1 < l then 2 * d (i + 1) else 0

section

variable {i n : Nat}

@[simp] theorem done_zero (n : Nat) : done 0 n = n := by simp [done]

@[simp] theorem moved_zero (n : Nat) : moved 0 n = 0 := by simp [moved, Nat.mod_one]

theorem moved_lt (i n : Nat) : moved i n < 2 ^ i := Nat.mod_lt _ (Nat.two_pow_pos i)

@[simp] theorem done_start (i : Nat) : done i 0 = 0 := by
  refine Nat.div_eq_of_lt ?_
  have := Nat.two_pow_pos i
  rw [pow_succ]
  omega

@[simp] theorem moved_start (i : Nat) : moved i 0 = 0 := by
  have h : 0 + 2 - 2 ^ (i + 1) = 0 := by
    have := Nat.two_pow_pos i
    rw [pow_succ]
    omega
  rw [moved, h, Nat.zero_mod]

/-- The items in complete sets and in the one being built. -/
theorem done_add_moved (h : Due i n) : 2 ^ i * done i n + moved i n + 2 ^ (i + 1) = n + 2 := by
  have := Nat.div_add_mod (n + 2 - 2 ^ (i + 1)) (2 ^ i)
  unfold Due at h
  unfold done moved
  omega

theorem done_of_not_due (h : ¬ Due i n) : done i n = 0 ∧ moved i n = 0 := by
  have hz : n + 2 - 2 ^ (i + 1) = 0 := by
    unfold Due at h
    omega
  rw [done, moved, hz]
  exact ⟨Nat.zero_div _, Nat.zero_mod _⟩

theorem Due.mono {m : Nat} (h : Due i n) (hm : n ≤ m) : Due i m := by
  unfold Due at *
  omega

theorem done_mul_le (i n : Nat) : done i n * 2 ^ i ≤ n := by
  by_cases h : Due i n
  · have ha := done_add_moved h
    have hp := Nat.two_pow_pos i
    rw [Nat.mul_comm]
    rw [pow_succ] at ha
    omega
  · rw [(done_of_not_due h).1]
    omega

/-! ## One arrival -/

theorem due_succ_of_moved (h : Due i n) : n + 1 + 2 - 2 ^ (i + 1) = (n + 2 - 2 ^ (i + 1)) + 1 := by
  unfold Due at h
  omega

theorem succ_of_lt (h : Due i n) (hlt : moved i n + 1 < 2 ^ i) :
    done i (n + 1) = done i n ∧ moved i (n + 1) = moved i n + 1 := by
  unfold done moved at *
  rw [due_succ_of_moved h]
  generalize n + 2 - 2 ^ (i + 1) = x at *
  have hx := Nat.div_add_mod x (2 ^ i)
  have he : x + 1 = (x % 2 ^ i + 1) + 2 ^ i * (x / 2 ^ i) := by omega
  constructor
  · rw [he, Nat.add_mul_div_left _ _ (Nat.two_pow_pos i), Nat.div_eq_of_lt hlt, Nat.zero_add]
  · rw [he, Nat.add_mul_mod_self_left, Nat.mod_eq_of_lt hlt]

theorem succ_of_eq (h : Due i n) (heq : moved i n + 1 = 2 ^ i) :
    done i (n + 1) = done i n + 1 ∧ moved i (n + 1) = 0 := by
  unfold done moved at *
  rw [due_succ_of_moved h]
  generalize n + 2 - 2 ^ (i + 1) = x at *
  have hx := Nat.div_add_mod x (2 ^ i)
  have he : x + 1 = 2 ^ i * (x / 2 ^ i + 1) := by
    rw [Nat.mul_add, Nat.mul_one]
    omega
  constructor
  · rw [he, Nat.mul_div_cancel_left _ (Nat.two_pow_pos i)]
  · rw [he, Nat.mul_mod_right]

theorem succ_of_not_due (h : ¬ Due i n) :
    done i (n + 1) = done i n ∧ moved i (n + 1) = moved i n := by
  have hz : n + 1 + 2 - 2 ^ (i + 1) = 0 := by
    unfold Due at h
    omega
  have hn : n + 2 - 2 ^ (i + 1) = 0 := by omega
  rw [done, done, moved, moved, hz, hn]
  exact ⟨rfl, rfl⟩

/-- **A level moves an item exactly when the level below has two complete sets.** -/
theorem due_iff : Due (i + 1) n ↔ 2 * done (i + 1) n + 2 ≤ done i n := by
  have hp := Nat.two_pow_pos i
  have h1 : 2 ^ (i + 1) = 2 * 2 ^ i := by rw [pow_succ, Nat.mul_comm]
  have h2 : 2 ^ (i + 1 + 1) = 4 * 2 ^ i := by
    rw [pow_succ, h1]
    omega
  constructor
  · intro h
    have ha := done_add_moved h
    have hlow : Due i n := by
      unfold Due at *
      omega
    have hb := done_add_moved hlow
    have hm := moved_lt i n
    rw [h2, h1] at ha
    rw [h1] at hb
    by_contra hcon
    have hle : done i n ≤ 2 * done (i + 1) n + 1 := by omega
    have := Nat.mul_le_mul_left (2 ^ i) hle
    rw [Nat.mul_add, ← Nat.mul_assoc, Nat.mul_comm (2 ^ i) 2, Nat.mul_one] at this
    omega
  · intro h
    have hmul := done_mul_le i n
    by_contra hcon
    have hz := (done_of_not_due hcon).1
    have hdue : Due i n := by
      by_contra hno
      rw [(done_of_not_due hno).1] at h
      omega
    have hb := done_add_moved hdue
    have : 2 ^ i * 2 ≤ 2 ^ i * done i n := Nat.mul_le_mul_left _ (by omega)
    unfold Due at hcon
    omega

theorem done_le (i n : Nat) : done i n ≤ 2 * done (i + 1) n + 3 := by
  have hp := Nat.two_pow_pos i
  have h1 : 2 ^ (i + 1) = 2 * 2 ^ i := by rw [pow_succ, Nat.mul_comm]
  have h2 : 2 ^ (i + 1 + 1) = 4 * 2 ^ i := by
    rw [pow_succ, h1]
    omega
  by_contra hcon
  have hle := Nat.mul_le_mul_left (2 ^ i) (show 2 * done (i + 1) n + 4 ≤ done i n by omega)
  have he : 2 ^ i * (2 * done (i + 1) n + 4) = 2 ^ (i + 1) * done (i + 1) n + 4 * 2 ^ i := by
    rw [h1]
    ring
  have hlow : Due i n := by
    by_contra hno
    rw [(done_of_not_due hno).1] at hcon
    omega
  have hb := done_add_moved hlow
  have hm := moved_lt (i + 1) n
  by_cases h : Due (i + 1) n
  · have ha := done_add_moved h
    omega
  · rw [(done_of_not_due h).1] at he hle
    unfold Due at h
    omega

/-- **Room for a complete set**: when a set is completed the level above has already
discarded what it merged, so at most two sets wait. -/
theorem room (h : Due i n) (heq : moved i n + 1 = 2 ^ i) :
    done i n ≤ 2 * done (i + 1) (n + 1) + 2 := by
  have hd := succ_of_eq h heq
  have hle := done_le i (n + 1)
  omega

theorem room_top {l : Nat} (h : Due l n) (heq : moved l n + 1 = 2 ^ l)
    (hn : n + 1 ≤ 3 * 2 ^ (l + 1) - 3) : done l n ≤ 2 := by
  have hp := Nat.two_pow_pos l
  have ha := done_add_moved h
  rw [pow_succ] at ha hn
  by_contra hcon
  have := Nat.mul_le_mul_left (2 ^ l) (show 3 ≤ done l n by omega)
  omega

theorem done_le_top {l : Nat} (hn : n ≤ 3 * 2 ^ (l + 1) - 3) : done l n ≤ 3 := by
  have hp := Nat.two_pow_pos l
  by_cases h : Due l n
  · have ha := done_add_moved h
    rw [pow_succ] at ha hn
    by_contra hcon
    have := Nat.mul_le_mul_left (2 ^ l) (show 4 ≤ done l n by omega)
    omega
  · rw [(done_of_not_due h).1]
    omega

theorem done_mono (i : Nat) {n m : Nat} (h : n ≤ m) : done i n ≤ done i m :=
  Nat.div_le_div_right (by omega)

/-- The level above a level with two new sets is closer to its own. -/
theorem two_done_le (i n : Nat) : 2 * done (i + 1) n ≤ done i n := by
  by_cases h : Due (i + 1) n
  · have := due_iff.mp h
    omega
  · rw [(done_of_not_due h).1]
    omega

end

/-! ## Between two arrivals -/

/-- What the schedule guarantees of the numbers of sets and moves, with `len` items in
place. -/
structure Sched (l len : Nat) (d f : Nat → Nat) : Prop where
  low : ∀ i, i < max l 1 → base l d i ≤ d i
  room : ∀ i, i < max l 1 → d i ≤ base l d i + 3
  full : ∀ i, d i * 2 ^ i ≤ len
  busy : ∀ m, m + 1 < l → f (m + 1) ≠ 0 → 2 * d (m + 1) + 2 ≤ d m

section

variable {l len m : Nat} {d f : Nat → Nat}

theorem Sched.moved (hS : Sched l len d f) (hdue : 2 * d (m + 1) + 2 ≤ d m) (k : Nat) :
    Sched l len d (Function.update f (m + 1) k) where
  low := hS.low
  room := hS.room
  full := hS.full
  busy j hj h := by
    by_cases hjm : j = m
    · exact hjm ▸ hdue
    · rw [Function.update_of_ne (by omega)] at h
      exact hS.busy j hj h

theorem Sched.two_pow_le (hS : Sched l len d f) (hdue : 2 * d (m + 1) + 2 ≤ d m) :
    2 ^ (m + 1) ≤ len ∧ d m ≤ len := by
  have hfull := hS.full m
  have h2 : 2 * 2 ^ m ≤ d m * 2 ^ m := Nat.mul_le_mul_right _ (by omega)
  have h1 : d m * 1 ≤ d m * 2 ^ m := Nat.mul_le_mul_left _ Nat.one_le_two_pow
  rw [pow_succ]
  omega

end

/-- During the arrival after `n`: the levels above `i` have had their move. -/
def stage (g : Nat → Nat → Nat) (n i k : Nat) : Nat := if i < k then g k (n + 1) else g k n

theorem stage_of_le {g : Nat → Nat → Nat} {n i k : Nat} (h : k ≤ i) : stage g n i k = g k n :=
  if_neg (by omega)

theorem stage_of_lt {g : Nat → Nat → Nat} {n i k : Nat} (h : i < k) : stage g n i k = g k (n + 1) :=
  if_pos h

theorem stage_pred (g : Nat → Nat → Nat) (n m : Nat) :
    stage g n m = Function.update (stage g n (m + 1)) (m + 1) (g (m + 1) (n + 1)) := by
  funext k
  by_cases hk : k = m + 1
  · subst hk
    rw [Function.update_self, stage_of_lt (by omega)]
  · rw [Function.update_of_ne hk]
    by_cases h : m + 1 < k
    · rw [stage_of_lt h, stage_of_lt (by omega)]
    · rw [stage_of_le (by omega), stage_of_le (by omega)]

theorem done_succ_of_not_full {i n : Nat} (h : ¬ (Due i n ∧ moved i n + 1 = 2 ^ i)) :
    done i (n + 1) = done i n := by
  by_cases hdue : Due i n
  · exact (succ_of_lt hdue (lt_of_le_of_ne (moved_lt i n) fun e => h ⟨hdue, e⟩)).1
  · exact (succ_of_not_due hdue).1

/-- The number of a set changes only with a completion. -/
theorem done_eq_iff {i k : Nat} : ∀ {k' : Nat}, k ≤ k' → (done i k = done i k' ↔
    ∀ t, k ≤ t → t < k' → ¬ (Due i t ∧ moved i t + 1 = 2 ^ i)) := by
  intro k' hk
  induction k', hk using Nat.le_induction with
  | base => exact iff_of_true rfl fun t h h' => absurd h' (Nat.not_lt.mpr h)
  | succ k' hk ih =>
    have hmono := done_mono i hk
    by_cases hfull : Due i k' ∧ moved i k' + 1 = 2 ^ i
    · rw [(succ_of_eq hfull.1 hfull.2).1]
      constructor
      · intro h
        omega
      · exact fun h => absurd hfull (h k' hk (Nat.lt_succ_self k'))
    · rw [done_succ_of_not_full hfull, ih]
      constructor
      · intro h t ht ht'
        rcases Nat.lt_succ_iff_lt_or_eq.mp ht' with hlt | rfl
        exacts [h t ht hlt, hfull]
      · exact fun h t ht ht' => h t ht (by omega)

theorem sched_stage {l n : Nat} (hn : n + 1 ≤ 3 * 2 ^ max l 1 - 3) (i : Nat) :
    Sched l n (stage done n i) (stage moved n i) := by
  refine ⟨fun k hk => ?_, fun k hk => ?_, fun k => ?_, fun m hm hf => ?_⟩
  · unfold base
    split
    · rcases Nat.lt_trichotomy i k with h | h | h
      · rw [stage_of_lt h, stage_of_lt (by omega)]
        exact two_done_le k (n + 1)
      · rw [stage_of_lt (by omega), stage_of_le (by omega)]
        by_cases hfull : Due (k + 1) n ∧ moved (k + 1) n + 1 = 2 ^ (k + 1)
        · have := due_iff.mp hfull.1
          rw [(succ_of_eq hfull.1 hfull.2).1]
          omega
        · rw [done_succ_of_not_full hfull]
          exact two_done_le k n
      · rw [stage_of_le (by omega), stage_of_le (by omega)]
        exact two_done_le k n
    · exact Nat.zero_le _
  · unfold base
    split
    · rcases Nat.lt_trichotomy i k with h | h | h
      · rw [stage_of_lt h, stage_of_lt (by omega)]
        exact done_le k (n + 1)
      · rw [stage_of_le h.ge, stage_of_lt (show i < k + 1 by omega)]
        have hmono := done_mono (k + 1) (Nat.le_succ n)
        have hle := done_le k n
        rw [Nat.succ_eq_add_one] at hmono
        omega
      · rw [stage_of_le (by omega), stage_of_le (by omega)]
        exact done_le k n
    · have htop : max l 1 = k + 1 := by omega
      rw [htop] at hn
      unfold stage
      split
      · exact (done_le_top hn).trans (Nat.le_add_left _ _)
      · exact (done_le_top (by omega)).trans (Nat.le_add_left _ _)
  · by_cases h : i < k
    · rw [stage_of_lt h]
      by_cases hdue : Due k (n + 1)
      · have hadd := done_add_moved hdue
        have hp : 2 ≤ 2 ^ k := by
          calc 2 = 2 ^ 1 := rfl
            _ ≤ 2 ^ k := Nat.pow_le_pow_right (by omega) (by omega)
        rw [pow_succ] at hadd
        rw [Nat.mul_comm]
        omega
      · rw [(done_of_not_due hdue).1]
        omega
    · rw [stage_of_le (by omega)]
      exact done_mul_le k n
  · have hdue : ∀ n', moved (m + 1) n' ≠ 0 → Due (m + 1) n' := by
      intro n' h
      by_contra hno
      exact h (done_of_not_due hno).2
    rcases Nat.lt_trichotomy i m with h | h | h
    · rw [stage_of_lt (by omega)] at hf
      rw [stage_of_lt (by omega), stage_of_lt h]
      exact due_iff.mp (hdue _ hf)
    · rw [stage_of_lt (by omega)] at hf
      rw [stage_of_lt (by omega), stage_of_le (by omega)]
      have hnot : ¬ (Due (m + 1) n ∧ moved (m + 1) n + 1 = 2 ^ (m + 1)) := fun hfull =>
        hf (succ_of_eq hfull.1 hfull.2).2
      rw [done_succ_of_not_full hnot]
      refine due_iff.mp ?_
      by_contra hno
      exact hf ((succ_of_not_due hno).2.trans (done_of_not_due hno).2)
    · rw [stage_of_le (by omega)] at hf
      rw [stage_of_le (by omega), stage_of_le (by omega)]
      exact due_iff.mp (hdue _ hf)

/-! ## The sets -/

variable {α : Type}

/-- Set `m` of level `i`. -/
def block (xs : List α) (i m : Nat) : List α := (xs.drop (m * 2 ^ i)).take (2 ^ i)

theorem length_block {xs : List α} {i m : Nat} (h : (m + 1) * 2 ^ i ≤ xs.length) :
    (block xs i m).length = 2 ^ i := by
  rw [Nat.add_mul, Nat.one_mul] at h
  rw [block, List.length_take, List.length_drop]
  omega

theorem mem_of_mem_block {xs : List α} {i m : Nat} {x : α} (h : x ∈ block xs i m) : x ∈ xs :=
  List.mem_of_mem_drop (List.mem_of_mem_take h)

theorem block_append {xs ys : List α} {i m : Nat} (h : (m + 1) * 2 ^ i ≤ xs.length) :
    block (xs ++ ys) i m = block xs i m := by
  rw [Nat.add_mul, Nat.one_mul] at h
  have hle : 2 ^ i ≤ (xs.drop (m * 2 ^ i)).length := by
    rw [List.length_drop]
    omega
  rw [block, block, List.drop_append_of_le_length (Nat.le_of_add_right_le h),
    List.take_append_of_le_length hle]

/-- **A merge**: two neighbours make a set of the next level. -/
theorem block_merge (xs : List α) (i m : Nat) :
    block xs i (2 * m) ++ block xs i (2 * m + 1) = block xs (i + 1) m := by
  have h1 : (2 * m + 1) * 2 ^ i = 2 * m * 2 ^ i + 2 ^ i := by ring
  have h2 : m * 2 ^ (i + 1) = 2 * m * 2 ^ i := by rw [pow_succ]; ring
  have h3 : 2 ^ (i + 1) = 2 ^ i + 2 ^ i := by rw [pow_succ]; ring
  rw [block, block, block, h1, h2, h3, List.take_add, List.drop_drop]

theorem block_zero_snoc (xs : List α) (x : α) : block (xs ++ [x]) 0 xs.length = [x] := by
  rw [block, pow_zero, Nat.mul_one, List.drop_left]
  rfl

theorem blocks_eq (xs : List α) (i a : Nat) : ∀ k,
    (List.range' a k).flatMap (block xs i) = (xs.drop (a * 2 ^ i)).take (k * 2 ^ i) := by
  intro k
  induction k with
  | zero => simp
  | succ k ih =>
    have h1 : (k + 1) * 2 ^ i = k * 2 ^ i + 2 ^ i := by ring
    have h2 : (a + k) * 2 ^ i = a * 2 ^ i + k * 2 ^ i := by ring
    rw [List.range'_1_concat, List.flatMap_append, ih, h1, List.take_add, List.drop_drop]
    simp only [List.flatMap_cons, List.flatMap_nil, List.append_nil, block, h2]

def part (l : Nat) (d : Nat → Nat) (xs : List α) (i : Nat) : List α :=
  (List.range' (base l d i) (d i - base l d i)).flatMap (block xs i)

/-- **The sets in place partition the items.** -/
theorem perm_parts {l : Nat} (hl : 0 < l) (xs : List α) {d : Nat → Nat}
    (hd : ∀ i, i + 1 < l → 2 * d (i + 1) ≤ d i) (h0 : d 0 = xs.length) :
    ((List.range l).flatMap (part l d xs)).Perm xs := by
  have key : ∀ k, ∀ i, i + k = l → 0 < k →
      ((List.range' i k).flatMap (part l d xs)).Perm (xs.take (d i * 2 ^ i)) := by
    intro k
    induction k with
    | zero => intro i _ h; omega
    | succ k ih =>
      intro i hi _
      rw [List.range'_succ, List.flatMap_cons]
      by_cases hk : k = 0
      · subst hk
        rw [part, blocks_eq, base, if_neg (by omega)]
        simp
      · have hlt : i + 1 < l := by omega
        have hle := hd i hlt
        have hsplit : d i * 2 ^ i = d (i + 1) * 2 ^ (i + 1) + (d i - 2 * d (i + 1)) * 2 ^ i := by
          rw [pow_succ, Nat.sub_mul]
          have := Nat.mul_le_mul_right (2 ^ i) hle
          have he : 2 * d (i + 1) * 2 ^ i = d (i + 1) * (2 ^ i * 2) := by ring
          omega
        have hdrop : base l d i * 2 ^ i = d (i + 1) * 2 ^ (i + 1) := by
          rw [base, if_pos hlt, pow_succ]
          ring
        have hpart : part l d xs i =
            (xs.drop (d (i + 1) * 2 ^ (i + 1))).take ((d i - 2 * d (i + 1)) * 2 ^ i) := by
          rw [part, blocks_eq, hdrop, base, if_pos hlt]
        rw [hsplit, List.take_add, hpart]
        exact ((ih (i + 1) (by omega) (by omega)).append_left _).trans List.perm_append_comm
  have := key l 0 (by omega) hl
  rwa [h0, pow_zero, Nat.mul_one, List.take_length, ← List.range_eq_range'] at this

end Lib.MergeSchedule
