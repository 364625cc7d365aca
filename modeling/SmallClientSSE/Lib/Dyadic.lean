import Mathlib.Data.List.Infix
import Mathlib.Data.List.Sort
import Mathlib.Data.Nat.Log
import Mathlib.Tactic.Ring

/-!
# Dyadic intervals

The node `(m, k)` of a complete binary tree stands `m` levels above the leaves
and covers those from `k * 2 ^ m` up to `(k + 1) * 2 ^ m`; a leaf `p` lies below
`(j, p / 2 ^ j)` for every `j`. `visit M m k` walks down from a node and turns
back at nodes marked by `M`: it lists the leaves it reaches and the marks it
meets. `cover t n` splits `n` leaves from `t` on into nodes of decreasing height.
With marks on full nodes only, the walks down a cover reach the leaves below no
mark at all (`mem_found`), and some mark above every other (`exists_mark`).
-/

namespace Lib.Dyadic

/-- Height above the leaves, and index among the nodes of that height. -/
abbrev Node := Nat × Nat

/-- The leaves reached from `(m, k)`, and the marks met. -/
def visit (M : Nat → Nat → Bool) : Nat → Nat → List Nat × List Node
  | 0, k => if M 0 k then ([], [(0, k)]) else ([k], [])
  | m + 1, k =>
    if M (m + 1) k then ([], [(m + 1, k)])
    else
      let l := visit M m (2 * k)
      let r := visit M m (2 * k + 1)
      (l.1 ++ r.1, l.2 ++ r.2)

/-- A mark above `p`, at height at most `m`. -/
def Covered (M : Nat → Nat → Bool) (m p : Nat) : Prop := ∃ j, j ≤ m ∧ M j (p / 2 ^ j) = true

section

variable {M : Nat → Nat → Bool} {m k p : Nat}

theorem div_succ (p m : Nat) : p / 2 ^ (m + 1) = p / 2 ^ m / 2 := by
  rw [pow_succ, Nat.div_div_eq_div_mul]

/-- The leaves below a node are those below its two children. -/
theorem below_succ : p / 2 ^ (m + 1) = k ↔ p / 2 ^ m = 2 * k ∨ p / 2 ^ m = 2 * k + 1 := by
  rw [div_succ]
  omega

theorem covered_zero : Covered M 0 p ↔ M 0 p = true := by
  constructor
  · rintro ⟨j, hj, h⟩
    obtain rfl := Nat.le_zero.mp hj
    simpa using h
  · exact fun h => ⟨0, le_refl _, by simpa using h⟩

theorem covered_succ : Covered M (m + 1) p ↔ M (m + 1) (p / 2 ^ (m + 1)) = true ∨ Covered M m p := by
  constructor
  · rintro ⟨j, hj, h⟩
    rcases Nat.lt_or_ge m j with hlt | hge
    · obtain rfl : j = m + 1 := by omega
      exact .inl h
    · exact .inr ⟨j, hge, h⟩
  · rintro (h | ⟨j, hj, h⟩)
    exacts [⟨m + 1, le_refl _, h⟩, ⟨j, by omega, h⟩]

theorem mem_visit_leaves : p ∈ (visit M m k).1 ↔ p / 2 ^ m = k ∧ ¬ Covered M m p := by
  induction m generalizing k with
  | zero =>
    rw [covered_zero, pow_zero, Nat.div_one]
    unfold visit
    split
    · next h =>
      simp only [List.not_mem_nil, false_iff, not_and, not_not]
      rintro rfl
      exact h
    · next h =>
      rw [List.mem_singleton]
      constructor
      · rintro rfl
        exact ⟨rfl, h⟩
      · exact And.left
  | succ m ih =>
    rw [covered_succ, below_succ]
    unfold visit
    split
    · next h =>
      simp only [List.not_mem_nil, false_iff, not_and, not_not]
      intro hp
      rw [← below_succ] at hp
      exact .inl (hp ▸ h)
    · next h =>
      simp only [List.mem_append, ih, ← or_and_right, not_or]
      refine and_congr_right fun hp => ?_
      rw [← below_succ] at hp
      rw [hp]
      exact ⟨fun hc => ⟨h, hc⟩, And.right⟩

theorem visit_sorted : (visit M m k).1.Pairwise (· < ·) := by
  induction m generalizing k with
  | zero =>
    unfold visit
    split
    · exact List.Pairwise.nil
    · exact List.pairwise_singleton _ _
  | succ m ih =>
    unfold visit
    split
    · exact List.Pairwise.nil
    · refine List.pairwise_append.mpr ⟨ih, ih, fun p hp q hq => ?_⟩
      have h1 := (mem_visit_leaves.mp hp).1
      have h2 := (mem_visit_leaves.mp hq).1
      by_contra hle
      have := Nat.div_le_div_right (c := 2 ^ m) (Nat.not_lt.mp hle)
      omega

theorem mem_visit_marks {j i : Nat} (h : (j, i) ∈ (visit M m k).2) :
    j ≤ m ∧ i / 2 ^ (m - j) = k ∧ M j i = true := by
  induction m generalizing k with
  | zero =>
    unfold visit at h
    split at h
    · next hM =>
      obtain ⟨rfl, rfl⟩ := Prod.mk.inj (List.mem_singleton.mp h)
      exact ⟨le_refl _, by simp, hM⟩
    · cases h
  | succ m ih =>
    unfold visit at h
    split at h
    · next hM =>
      obtain ⟨rfl, rfl⟩ := Prod.mk.inj (List.mem_singleton.mp h)
      exact ⟨le_refl _, by simp, hM⟩
    · have key : ∀ k', (j, i) ∈ (visit M m k').2 → k' / 2 = k →
          j ≤ m + 1 ∧ i / 2 ^ (m + 1 - j) = k ∧ M j i = true := fun k' hk hd => by
        obtain ⟨h1, h2, h3⟩ := ih hk
        refine ⟨by omega, ?_, h3⟩
        rw [show m + 1 - j = (m - j) + 1 by omega, div_succ, h2, hd]
      rcases List.mem_append.mp h with h | h
      · exact key _ h (by omega)
      · exact key _ h (by omega)

theorem visit_covers (hp : p / 2 ^ m = k) (hc : Covered M m p) :
    ∃ j, j ≤ m ∧ (j, p / 2 ^ j) ∈ (visit M m k).2 := by
  induction m generalizing k with
  | zero =>
    rw [covered_zero] at hc
    rw [pow_zero, Nat.div_one] at hp
    subst hp
    exact ⟨0, le_refl _, by simp [visit, hc]⟩
  | succ m ih =>
    unfold visit
    split
    · exact ⟨m + 1, le_refl _, by simp [hp]⟩
    · next hM =>
      rw [covered_succ, hp] at hc
      replace hc := hc.resolve_left hM
      rcases below_succ.mp hp with h | h
      · obtain ⟨j, hj, hmem⟩ := ih h hc
        exact ⟨j, by omega, List.mem_append_left _ hmem⟩
      · obtain ⟨j, hj, hmem⟩ := ih h hc
        exact ⟨j, by omega, List.mem_append_right _ hmem⟩

/-- **The marks a walk meets** are the topmost ones below its start. -/
theorem mem_visit_marks_iff {j i : Nat} : (j, i) ∈ (visit M m k).2 ↔
    j ≤ m ∧ i / 2 ^ (m - j) = k ∧ M j i = true ∧
      ∀ l, j < l → l ≤ m → M l (i / 2 ^ (l - j)) = false := by
  induction m generalizing k with
  | zero =>
    unfold visit
    constructor
    · intro h
      split at h
      · next hM =>
        obtain ⟨rfl, rfl⟩ := Prod.mk.inj (List.mem_singleton.mp h)
        exact ⟨le_refl _, by simp, hM, fun l h1 h2 => absurd h1 (by omega)⟩
      · cases h
    · rintro ⟨hj, hi, hM, -⟩
      obtain rfl := Nat.le_zero.mp hj
      rw [Nat.sub_zero, pow_zero, Nat.div_one] at hi
      rw [← hi, if_pos hM]
      exact List.mem_singleton_self _
  | succ m ih =>
    have hstep : j ≤ m → i / 2 ^ (m + 1 - j) = i / 2 ^ (m - j) / 2 := fun hj => by
      rw [show m + 1 - j = (m - j) + 1 by omega, div_succ]
    unfold visit
    split
    · next hM =>
      constructor
      · intro h
        obtain ⟨rfl, rfl⟩ := Prod.mk.inj (List.mem_singleton.mp h)
        exact ⟨le_refl _, by simp, hM, fun l h1 h2 => absurd h1 (by omega)⟩
      · rintro ⟨hj, hi, -, htop⟩
        -- a mark further down lies below this one
        have hjm : j = m + 1 := by
          by_contra hne
          have := htop (m + 1) (by omega) (le_refl _)
          rw [hi, hM] at this
          cases this
        subst hjm
        rw [Nat.sub_self, pow_zero, Nat.div_one] at hi
        rw [hi]
        exact List.mem_singleton_self _
    · next hM =>
      rw [List.mem_append, ih, ih]
      constructor
      · intro h
        have hjm : j ≤ m := h.elim And.left And.left
        have hk : i / 2 ^ (m + 1 - j) = k := by
          rw [hstep hjm]
          rcases h with ⟨-, hi, -⟩ | ⟨-, hi, -⟩ <;> omega
        refine ⟨by omega, hk, h.elim (fun h => h.2.2.1) (fun h => h.2.2.1), fun l hl hle => ?_⟩
        rcases Nat.lt_or_ge m l with hlt | hge
        · obtain rfl : l = m + 1 := by omega
          rw [hk]
          exact eq_false_of_ne_true hM
        · exact h.elim (fun h => h.2.2.2 l hl hge) fun h => h.2.2.2 l hl hge
      · rintro ⟨hj, hi, hMj, htop⟩
        have hjm : j ≤ m := by
          by_contra hne
          obtain rfl : j = m + 1 := by omega
          rw [Nat.sub_self, pow_zero, Nat.div_one] at hi
          exact hM (hi ▸ hMj)
        have htop' : ∀ l, j < l → l ≤ m → M l (i / 2 ^ (l - j)) = false :=
          fun l hl hle => htop l hl (by omega)
        rw [hstep hjm] at hi
        rcases Nat.mod_two_eq_zero_or_one (i / 2 ^ (m - j)) with h0 | h1
        · exact .inl ⟨hjm, by omega, hMj, htop'⟩
        · exact .inr ⟨hjm, by omega, hMj, htop'⟩

theorem visit_marks_nodup : (visit M m k).2.Nodup := by
  induction m generalizing k with
  | zero =>
    unfold visit
    split
    · exact List.nodup_singleton _
    · exact List.nodup_nil
  | succ m ih =>
    unfold visit
    split
    · exact List.nodup_singleton _
    · refine List.Nodup.append ih ih fun d hl hr => ?_
      have h1 := (mem_visit_marks (j := d.1) (i := d.2) hl).2.1
      have h2 := (mem_visit_marks (j := d.1) (i := d.2) hr).2.1
      omega

theorem visit_congr {M' : Nat → Nat → Bool}
    (h : ∀ j i, j ≤ m → i / 2 ^ (m - j) = k → M' j i = M j i) : visit M' m k = visit M m k := by
  induction m generalizing k with
  | zero => simp [visit, h 0 k (le_refl _) (by simp)]
  | succ m ih =>
    have hl : visit M' m (2 * k) = visit M m (2 * k) := ih fun j i hj hi => h j i (by omega) (by
      rw [show m + 1 - j = (m - j) + 1 by omega, div_succ, hi]; omega)
    have hr : visit M' m (2 * k + 1) = visit M m (2 * k + 1) := ih fun j i hj hi =>
      h j i (by omega) (by rw [show m + 1 - j = (m - j) + 1 by omega, div_succ, hi]; omega)
    simp [visit, h (m + 1) k (le_refl _) (by simp), hl, hr]

end

/-! ## Covers -/

/-- `n` leaves from `t` on, as nodes of decreasing height. -/
def cover (t n : Nat) : List Node :=
  if _h : n = 0 then []
  else (n.log2, t / 2 ^ n.log2) :: cover (t + 2 ^ n.log2) (n - 2 ^ n.log2)
termination_by n
decreasing_by
  have := Nat.two_pow_pos n.log2
  omega

section

variable {t n : Nat}

@[simp] theorem cover_zero : cover t 0 = [] := by
  unfold cover
  rfl

theorem cover_pos (h : n ≠ 0) :
    cover t n = (n.log2, t / 2 ^ n.log2) :: cover (t + 2 ^ n.log2) (n - 2 ^ n.log2) := by
  conv_lhs => unfold cover
  rw [dif_neg h]

/-- A start that is aligned to the number of leaves. -/
def Aligned (t n : Nat) : Prop := n = 0 ∨ 2 ^ (n.log2 + 1) ∣ t

theorem aligned_zero (n : Nat) : Aligned 0 n := .inr (dvd_zero _)

theorem rest_lt (n : Nat) : n - 2 ^ n.log2 < 2 ^ n.log2 := by
  have := Nat.lt_log2_self (n := n)
  rw [pow_succ] at this
  omega

theorem Aligned.rest (ha : Aligned t n) (h : n ≠ 0) :
    Aligned (t + 2 ^ n.log2) (n - 2 ^ n.log2) := by
  rcases Nat.eq_zero_or_pos (n - 2 ^ n.log2) with h0 | hpos
  · exact .inl h0
  · have hlt : (n - 2 ^ n.log2).log2 < n.log2 := (Nat.log2_lt (by omega)).mpr (rest_lt n)
    refine .inr (Dvd.dvd.trans (Nat.pow_dvd_pow 2 (show (n - 2 ^ n.log2).log2 + 1 ≤ n.log2 by omega))
      (Nat.dvd_add ?_ (dvd_refl _)))
    exact (Nat.pow_dvd_pow 2 (Nat.le_succ _)).trans (ha.resolve_left h)

theorem below_first (ha : Aligned t n) (h : n ≠ 0) {p : Nat} :
    p / 2 ^ n.log2 = t / 2 ^ n.log2 ↔ t ≤ p ∧ p < t + 2 ^ n.log2 := by
  have hpos := Nat.two_pow_pos n.log2
  obtain ⟨c, hc⟩ := (Nat.pow_dvd_pow 2 (Nat.le_succ n.log2)).trans (ha.resolve_left h)
  subst hc
  rw [Nat.mul_div_cancel_left _ hpos, Nat.div_eq_iff hpos, mul_comm c]
  omega

/-- **A cover covers** exactly its leaves. -/
theorem mem_cover (ha : Aligned t n) {p : Nat} :
    (∃ c ∈ cover t n, p / 2 ^ c.1 = c.2) ↔ t ≤ p ∧ p < t + n := by
  induction n using Nat.strongRecOn generalizing t with
  | ind n ih =>
    by_cases h : n = 0
    · subst h
      simp
    · have hpos := Nat.two_pow_pos n.log2
      have hle := Nat.log2_self_le h
      rw [cover_pos h]
      simp only [List.mem_cons, exists_eq_or_imp, below_first ha h,
        ih _ (by omega : n - 2 ^ n.log2 < n) (ha.rest h)]
      omega

theorem cover_end (ha : Aligned t n) {c : Node} (hc : c ∈ cover t n) :
    (c.2 + 1) * 2 ^ c.1 ≤ t + n := by
  have hpos := Nat.two_pow_pos c.1
  have hp : (c.2 * 2 ^ c.1 + (2 ^ c.1 - 1)) / 2 ^ c.1 = c.2 := by
    rw [Nat.mul_comm, Nat.mul_add_div hpos, Nat.div_eq_of_lt (by omega), Nat.add_zero]
  have := (mem_cover ha).mp ⟨c, hc, hp⟩
  rw [Nat.add_mul, Nat.one_mul]
  omega

theorem cover_disjoint (ha : Aligned t n) :
    (cover t n).Pairwise fun c d => ∀ p, p / 2 ^ c.1 = c.2 → p / 2 ^ d.1 ≠ d.2 := by
  induction n using Nat.strongRecOn generalizing t with
  | ind n ih =>
    by_cases h : n = 0
    · subst h
      simp
    · have hpos := Nat.two_pow_pos n.log2
      rw [cover_pos h]
      refine List.pairwise_cons.mpr ⟨fun d hd p hp hpd => ?_, ih _ (by omega) (ha.rest h)⟩
      have h1 := (below_first ha h).mp hp
      have h2 := (mem_cover (ha.rest h)).mp ⟨d, hd, hpd⟩
      omega

/-- A node that fits is no higher than the node of the cover it meets. -/
theorem cover_max (ha : Aligned t n) {c : Node} (hc : c ∈ cover t n) {p q : Nat}
    (hp : p / 2 ^ c.1 = c.2) (hq : (p / 2 ^ q + 1) * 2 ^ q ≤ t + n) : q ≤ c.1 := by
  induction n using Nat.strongRecOn generalizing t with
  | ind n ih =>
    by_cases h : n = 0
    · subst h
      simp at hc
    · have hpos := Nat.two_pow_pos n.log2
      have hle := Nat.log2_self_le h
      rw [cover_pos h] at hc
      rcases List.mem_cons.mp hc with rfl | hc
      · by_contra hlt
        replace hlt : n.log2 + 1 ≤ q := Nat.not_le.mp hlt
        have htp := ((below_first ha h).mp hp).1
        have hdvd := (Nat.pow_dvd_pow 2 hlt).trans (dvd_refl (2 ^ q))
        obtain ⟨a, ha'⟩ := ha.resolve_left h
        obtain ⟨b, hb⟩ := hdvd
        have hn := Nat.lt_log2_self (n := n)
        -- the end of the node is a multiple of `2 ^ (log2 n + 1)` above `t`
        have hend : t < (p / 2 ^ q + 1) * 2 ^ q := by
          have h1 := Nat.lt_mul_div_succ p (Nat.two_pow_pos q)
          rw [mul_comm] at h1
          exact lt_of_le_of_lt htp h1
        have hmul : (p / 2 ^ q + 1) * 2 ^ q = 2 ^ (n.log2 + 1) * ((p / 2 ^ q + 1) * b) := by
          calc (p / 2 ^ q + 1) * 2 ^ q = (p / 2 ^ q + 1) * (2 ^ (n.log2 + 1) * b) := by rw [← hb]
            _ = 2 ^ (n.log2 + 1) * ((p / 2 ^ q + 1) * b) := by ring
        rw [hmul, ha'] at hend
        rw [hmul, ha'] at hq
        have h2 : a + 1 ≤ (p / 2 ^ q + 1) * b := Nat.lt_of_mul_lt_mul_left hend
        have h3 := Nat.mul_le_mul_left (2 ^ (n.log2 + 1)) h2
        rw [mul_add, mul_one] at h3
        omega
      · exact ih _ (by omega : n - 2 ^ n.log2 < n) (ha.rest h) hc (by omega)

end

/-! ## Marks on full nodes -/

section

variable {M : Nat → Nat → Bool} {t n p : Nat}

def found (M : Nat → Nat → Bool) (t n : Nat) : List Nat :=
  (cover t n).flatMap fun c => (visit M c.1 c.2).1

def marks (M : Nat → Nat → Bool) (t n : Nat) : List Node :=
  (cover t n).flatMap fun c => (visit M c.1 c.2).2

theorem found_sorted (ha : Aligned t n) : (found M t n).Pairwise (· < ·) := by
  induction n using Nat.strongRecOn generalizing t with
  | ind n ih =>
    by_cases h : n = 0
    · subst h
      simp [found]
    · have hpos := Nat.two_pow_pos n.log2
      rw [found, cover_pos h, List.flatMap_cons]
      refine List.pairwise_append.mpr ⟨visit_sorted, ih _ (by omega) (ha.rest h), ?_⟩
      intro p hp q hq
      obtain ⟨c, hc, hq⟩ := List.mem_flatMap.mp hq
      have h1 := (below_first ha h).mp (mem_visit_leaves.mp hp).1
      have h2 := (mem_cover (ha.rest h)).mp ⟨c, hc, (mem_visit_leaves.mp hq).1⟩
      omega

theorem first_leaf_above {i j m : Nat} (h : j ≤ m) : i * 2 ^ j / 2 ^ m = i / 2 ^ (m - j) := by
  rw [← Nat.mul_div_mul_right i (2 ^ (m - j)) (Nat.two_pow_pos j), ← pow_add, Nat.sub_add_cancel h]

theorem marks_nodup (ha : Aligned t n) : (marks M t n).Nodup := by
  refine List.nodup_flatMap.mpr ⟨fun c _ => visit_marks_nodup, ?_⟩
  refine (cover_disjoint ha).imp fun {c d} hcd e hc hd => ?_
  obtain ⟨h1, h2, -⟩ := mem_visit_marks (j := e.1) (i := e.2) hc
  obtain ⟨h3, h4, -⟩ := mem_visit_marks (j := e.1) (i := e.2) hd
  exact hcd (e.2 * 2 ^ e.1) ((first_leaf_above h1).trans h2) ((first_leaf_above h3).trans h4)

variable (hfull : ∀ j i, M j i = true → (i + 1) * 2 ^ j ≤ n)

include hfull

/-- **The leaves reached** are those below no mark. -/
theorem mem_found : p ∈ found M 0 n ↔ p < n ∧ ∀ j, M j (p / 2 ^ j) = false := by
  have ha := aligned_zero n
  constructor
  · intro h
    obtain ⟨c, hc, hp⟩ := List.mem_flatMap.mp h
    obtain ⟨h1, h2⟩ := mem_visit_leaves.mp hp
    have h3 := (mem_cover ha).mp ⟨c, hc, h1⟩
    refine ⟨by omega, fun j => eq_false_of_ne_true fun hM => h2 ⟨j, ?_, hM⟩⟩
    exact cover_max ha hc h1 (by rw [Nat.zero_add]; exact hfull j _ hM)
  · rintro ⟨h1, h2⟩
    obtain ⟨c, hc, hp⟩ := (mem_cover (p := p) ha).mpr ⟨Nat.zero_le _, by omega⟩
    refine List.mem_flatMap.mpr ⟨c, hc, mem_visit_leaves.mpr ⟨hp, ?_⟩⟩
    rintro ⟨j, -, hM⟩
    rw [h2] at hM
    cases hM

/-- **Some mark met** lies above every marked leaf. -/
theorem exists_mark (hp : p < n) {j : Nat} (hM : M j (p / 2 ^ j) = true) :
    ∃ i, (i, p / 2 ^ i) ∈ marks M 0 n := by
  have ha := aligned_zero n
  obtain ⟨c, hc, hpc⟩ := (mem_cover (p := p) ha).mpr ⟨Nat.zero_le _, by omega⟩
  have hj := cover_max ha hc hpc (by rw [Nat.zero_add]; exact hfull j _ hM)
  obtain ⟨i, -, hi⟩ := visit_covers hpc ⟨j, hj, hM⟩
  exact ⟨i, List.mem_flatMap.mpr ⟨c, hc, hi⟩⟩

omit hfull

theorem marked_of_mem {j i : Nat} (h : (j, i) ∈ marks M t n) : M j i = true := by
  obtain ⟨c, -, hm⟩ := List.mem_flatMap.mp h
  exact (mem_visit_marks hm).2.2

end

end Lib.Dyadic
