import Mathlib.Data.List.Perm.Basic
import Mathlib.Data.Nat.Bitwise

/-!
# The binary counter of a logarithmic structure

A structure that has taken in the list `l` keeps its items in levels: level `i`
is in use when bit `i` of the length is one, and then holds `segment l i`, a run
of `2 ^ i` consecutive items. `CarryAt n r` says that the lowest `r` bits of `n`
are ones and bit `r` is zero, so counting from `n` to `n + 1` empties the levels
below `r` into level `r`.
-/

namespace Lib.BinaryCounter

variable {α : Type}

/-- The carry of `n + 1` stops at bit `r`. -/
def CarryAt (n r : Nat) : Prop := n % 2 ^ (r + 1) = 2 ^ r - 1

def start (n i : Nat) : Nat := n / 2 ^ (i + 1) * 2 ^ (i + 1)

/-- The items of level `i`. -/
def segment (l : List α) (i : Nat) : List α :=
  if l.length.testBit i then (l.drop (start l.length i)).take (2 ^ i) else []

theorem exists_carryAt : ∀ n, ∃ r, CarryAt n r := by
  intro n
  induction n using Nat.strongRecOn with
  | ind n ih =>
    rcases Nat.even_or_odd' n with ⟨m, rfl | rfl⟩
    · exact ⟨0, by simp [CarryAt]⟩
    · obtain ⟨r, hr⟩ := ih m (by omega)
      refine ⟨r + 1, ?_⟩
      unfold CarryAt at *
      have hp : 0 < 2 ^ r := Nat.two_pow_pos r
      have hm := Nat.mod_add_div m (2 ^ (r + 1))
      have h1 : 2 ^ (r + 1) = 2 * 2 ^ r := by rw [pow_succ, Nat.mul_comm]
      have h2 : 2 ^ (r + 1 + 1) = 2 * 2 ^ (r + 1) := by rw [pow_succ, Nat.mul_comm]
      have : 2 * m + 1 = (2 ^ (r + 1) - 1) + 2 ^ (r + 1 + 1) * (m / 2 ^ (r + 1)) := by
        rw [hr] at hm
        rw [h2, Nat.mul_assoc]
        omega
      rw [this, Nat.add_mul_mod_self_left, Nat.mod_eq_of_lt]
      have := Nat.pow_lt_pow_right (a := 2) (by omega) (Nat.lt_succ_self (r + 1))
      omega

section

variable {n r : Nat} (h : CarryAt n r)

include h

theorem CarryAt.eq : n = 2 ^ (r + 1) * (n / 2 ^ (r + 1)) + (2 ^ r - 1) := by
  have := Nat.div_add_mod n (2 ^ (r + 1))
  rw [h] at this
  omega

theorem CarryAt.succ_eq : n + 1 = 2 ^ (r + 1) * (n / 2 ^ (r + 1)) + 2 ^ r := by
  have := h.eq
  have := Nat.two_pow_pos r
  omega

theorem CarryAt.le : 2 ^ r ≤ n + 1 := by
  rw [h.succ_eq]
  exact Nat.le_add_left _ _

theorem CarryAt.testBit (j : Nat) : n.testBit j =
    if j < r + 1 then decide (j < r) else (n / 2 ^ (r + 1)).testBit (j - (r + 1)) := by
  have hlt : 2 ^ r - 1 < 2 ^ (r + 1) :=
    lt_of_le_of_lt (Nat.sub_le _ _) (Nat.pow_lt_pow_right (by omega) (Nat.lt_succ_self r))
  have := Nat.testBit_two_pow_mul_add (n / 2 ^ (r + 1)) hlt j
  rwa [← h.eq, Nat.testBit_two_pow_sub_one] at this

theorem CarryAt.testBit_succ (j : Nat) : (n + 1).testBit j =
    if j < r + 1 then decide (r = j) else (n / 2 ^ (r + 1)).testBit (j - (r + 1)) := by
  have hlt : 2 ^ r < 2 ^ (r + 1) := Nat.pow_lt_pow_right (by omega) (Nat.lt_succ_self r)
  have := Nat.testBit_two_pow_mul_add (n / 2 ^ (r + 1)) hlt j
  rwa [← h.succ_eq, Nat.testBit_two_pow] at this

theorem CarryAt.testBit_self : n.testBit r = false := by simp [h.testBit]

theorem CarryAt.testBit_succ_self : (n + 1).testBit r = true := by simp [h.testBit_succ]

theorem CarryAt.testBit_succ_lt {i : Nat} (hi : i < r) : (n + 1).testBit i = false := by
  rw [h.testBit_succ, if_pos (by omega)]
  simp [show r ≠ i by omega]

theorem CarryAt.testBit_succ_gt {i : Nat} (hi : r < i) : (n + 1).testBit i = n.testBit i := by
  rw [h.testBit_succ, h.testBit, if_neg (by omega), if_neg (by omega)]

/-- The blocks from the carry on are the same before and after counting. -/
theorem CarryAt.div_succ {j : Nat} (hj : r ≤ j) : (n + 1) / 2 ^ (j + 1) = n / 2 ^ (j + 1) := by
  have hlt : 2 ^ r < 2 ^ (r + 1) := Nat.pow_lt_pow_right (by omega) (Nat.lt_succ_self r)
  have hq : (n + 1) / 2 ^ (r + 1) = n / 2 ^ (r + 1) := by
    conv_lhs => rw [h.succ_eq, Nat.mul_add_div (Nat.two_pow_pos _), Nat.div_eq_of_lt hlt]
    rfl
  obtain ⟨d, rfl⟩ : ∃ d, j = r + d := ⟨j - r, by omega⟩
  rw [show r + d + 1 = (r + 1) + d by omega, pow_add, ← Nat.div_div_eq_div_mul,
    ← Nat.div_div_eq_div_mul, hq]

/-- **The bit trick**: the lowest zero bit is the only bit of `~n & (n + 1)`. -/
theorem CarryAt.log2_eq {w : Nat} (hw : r < w) :
    Nat.log2 (~~~(BitVec.ofNat w n) &&& BitVec.ofNat w (n + 1)).toNat = r := by
  have hb : ~~~(BitVec.ofNat w n) &&& BitVec.ofNat w (n + 1) = BitVec.twoPow w r := by
    apply BitVec.eq_of_getLsbD_eq
    intro j hj
    simp only [BitVec.getLsbD_and, BitVec.getLsbD_not, BitVec.getLsbD_ofNat, BitVec.getLsbD_twoPow,
      hj, h.testBit, h.testBit_succ, decide_true, Bool.true_and]
    by_cases h1 : j < r + 1
    · by_cases h2 : r = j
      · simp [← h2, hw]
      · simp [h1, h2]
    · simp [h1, show r ≠ j by omega]
  rw [hb, BitVec.toNat_twoPow_of_lt hw, Nat.log2_two_pow]

end

/-! ## Levels -/

theorem testBit_iff (n i : Nat) : n.testBit i = true ↔ n % 2 ^ (i + 1) = n % 2 ^ i + 2 ^ i := by
  have := Nat.mod_pow_succ (b := 2) (x := n) (k := i)
  have hp := Nat.two_pow_pos i
  rw [Nat.testBit_eq_decide_div_mod_eq, decide_eq_true_eq]
  rcases Nat.mod_two_eq_zero_or_one (n / 2 ^ i) with h | h
  · rw [h] at this ⊢; omega
  · rw [h] at this ⊢; omega

theorem testBit_false_iff (n i : Nat) : n.testBit i = false ↔ n % 2 ^ (i + 1) = n % 2 ^ i := by
  have := Nat.mod_pow_succ (b := 2) (x := n) (k := i)
  have hp := Nat.two_pow_pos i
  rw [Nat.testBit_eq_decide_div_mod_eq, decide_eq_false_iff_not]
  rcases Nat.mod_two_eq_zero_or_one (n / 2 ^ i) with h | h
  · rw [h] at this ⊢; omega
  · rw [h] at this ⊢; omega

theorem start_eq (n i : Nat) : start n i = n - n % 2 ^ (i + 1) := by
  have := Nat.div_add_mod' n (2 ^ (i + 1))
  unfold start
  omega

theorem start_add_le {n i : Nat} (h : n.testBit i = true) : start n i + 2 ^ i ≤ n := by
  have h1 := (testBit_iff n i).mp h
  have h2 := Nat.mod_le n (2 ^ (i + 1))
  rw [start_eq]
  omega

theorem length_segment (l : List α) (i : Nat) :
    (segment l i).length = if l.length.testBit i then 2 ^ i else 0 := by
  unfold segment
  split
  · next h =>
    have := start_add_le h
    rw [List.length_take, List.length_drop]
    omega
  · rfl

theorem segment_unused {l : List α} {i : Nat} (h : l.length.testBit i = false) :
    segment l i = [] := by
  unfold segment
  rw [h, if_neg Bool.false_ne_true]

theorem segment_nil (i : Nat) : segment ([] : List α) i = [] :=
  segment_unused (Nat.zero_testBit i)

theorem length_segment_le (l : List α) (i : Nat) : (segment l i).length ≤ l.length := by
  unfold segment
  split
  · rw [List.length_take, List.length_drop]
    omega
  · exact Nat.zero_le _

theorem mem_of_mem_segment {l : List α} {i : Nat} {a : α} (h : a ∈ segment l i) : a ∈ l := by
  unfold segment at h
  split at h
  · exact List.mem_of_mem_drop (List.mem_of_mem_take h)
  · cases h

theorem flatMap_segment (l : List α) (r : Nat) :
    ((List.range r).flatMap (segment l)).Perm (l.drop (l.length - l.length % 2 ^ r)) := by
  induction r with
  | zero => simp [Nat.mod_one]
  | succ r ih =>
    rw [List.range_succ, List.flatMap_append, List.flatMap_singleton]
    refine (ih.append_right _).trans ?_
    unfold segment
    by_cases hb : l.length.testBit r = true
    · have h1 := (testBit_iff l.length r).mp hb
      have h2 := Nat.mod_le l.length (2 ^ (r + 1))
      rw [if_pos hb, start_eq]
      have : l.drop (l.length - l.length % 2 ^ r) =
          (l.drop (l.length - l.length % 2 ^ (r + 1))).drop (2 ^ r) := by
        rw [List.drop_drop]
        congr 1
        omega
      rw [this]
      exact List.perm_append_comm.trans (List.Perm.of_eq (List.take_append_drop _ _))
    · rw [if_neg hb, List.append_nil, (testBit_false_iff l.length r).mp (by simpa using hb)]

/-- **The levels partition the items.** -/
theorem flatMap_segment_all {l : List α} {m : Nat} (h : l.length < 2 ^ m) :
    ((List.range m).flatMap (segment l)).Perm l := by
  have := flatMap_segment l m
  rwa [Nat.mod_eq_of_lt h, Nat.sub_self, List.drop_zero] at this

section

variable {l : List α} {r : Nat} (h : CarryAt l.length r) (a : α)

include h

theorem segment_snoc_of_lt {i : Nat} (hi : i < r) : segment (l ++ [a]) i = [] := by
  unfold segment
  rw [List.length_append, List.length_singleton, h.testBit_succ_lt hi, if_neg (by simp)]

theorem segment_snoc_of_gt {i : Nat} (hi : r < i) : segment (l ++ [a]) i = segment l i := by
  have hs : start (l.length + 1) i = start l.length i := by
    unfold start
    rw [h.div_succ (by omega)]
  unfold segment
  rw [List.length_append, List.length_singleton, h.testBit_succ_gt hi, hs]
  split
  · next ht =>
    have := start_add_le ht
    have := Nat.two_pow_pos i
    rw [List.drop_append_of_le_length (by omega), List.take_append_of_le_length]
    rw [List.length_drop]
    omega
  · rfl

theorem segment_carry : segment l r = [] := segment_unused h.testBit_self

theorem start_carry : start l.length r = l.length + 1 - 2 ^ r := by
  have h1 := h.le
  have h2 := Nat.two_pow_pos r
  rw [start_eq, h]
  omega

/-- After a carry level `r` holds the latest `2 ^ r` items. -/
theorem segment_snoc_eq : segment (l ++ [a]) r = (l ++ [a]).drop (l.length + 1 - 2 ^ r) := by
  have hs : start (l.length + 1) r = l.length + 1 - 2 ^ r := by
    rw [← start_carry h]
    unfold start
    rw [h.div_succ (le_refl r)]
  have hp := Nat.two_pow_pos r
  have hle := h.le
  unfold segment
  rw [List.length_append, List.length_singleton, if_pos h.testBit_succ_self, hs,
    List.take_of_length_le]
  rw [List.length_drop, List.length_append, List.length_singleton]
  omega

/-- **A carry**: the levels below `r` and the new item fill level `r`. -/
theorem segment_snoc : (segment (l ++ [a]) r).Perm
    ((List.range r).flatMap (segment l) ++ [a]) := by
  have hp := Nat.two_pow_pos r
  have hmod : l.length % 2 ^ r = 2 ^ r - 1 := by
    have := Nat.mod_mod_of_dvd l.length (pow_dvd_pow 2 (Nat.le_succ r))
    rw [h] at this
    rw [← this, Nat.mod_eq_of_lt (by omega)]
  have hseg := flatMap_segment l r
  rw [hmod, show l.length - (2 ^ r - 1) = l.length + 1 - 2 ^ r by omega] at hseg
  rw [segment_snoc_eq h, List.drop_append_of_le_length (by omega)]
  exact (hseg.append_right _).symm

end

end Lib.BinaryCounter
