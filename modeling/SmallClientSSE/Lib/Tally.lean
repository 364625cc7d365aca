import Mathlib.Order.Defs.LinearOrder
import Mathlib.Data.List.Basic
import Mathlib.Data.List.Sort
import Mathlib.Algebra.BigOperators.Group.List.Basic
import Mathlib.Tactic.Ring

/-!
# Tallies over an ordered key

A `Tally` is an ordered map from keys to integers, kept as a list with
ascending keys. `bump k d` adds `d` at `k`, creating the entry at `0` first.
`tally` bumps a list of weighted keys in turn, and `below` lists the keys whose
total is negative, in order. `totalAt` is the sum the tally holds at a key.
-/

namespace Lib

variable {κ : Type} [LinearOrder κ]

abbrev Tally (κ : Type) := List (κ × Int)

namespace Tally

def bump (k : κ) (d : Int) : Tally κ → Tally κ
  | [] => [(k, d)]
  | (j, v) :: t =>
    if k < j then (k, d) :: (j, v) :: t
    else if k = j then (j, v + d) :: t
    else (j, v) :: bump k d t

def tally (l : List (κ × Int)) : Tally κ := l.foldl (fun t p => bump p.1 p.2 t) []

def below (t : Tally κ) : List κ := (t.filter fun p => decide (p.2 < 0)).map Prod.fst

/-- The sum of the weights of `k`. -/
def totalAt (k : κ) (l : List (κ × Int)) : Int := ((l.filter fun p => p.1 = k).map Prod.snd).sum

/-- Keys strictly ascending. -/
def Sorted (t : Tally κ) : Prop := t.Pairwise fun p q => p.1 < q.1

@[simp] theorem totalAt_nil (k : κ) : totalAt k [] = 0 := rfl

@[simp] theorem totalAt_cons (k : κ) (p : κ × Int) (l : List (κ × Int)) :
    totalAt k (p :: l) = (if p.1 = k then p.2 else 0) + totalAt k l := by
  by_cases h : p.1 = k <;> simp [totalAt, h]

@[simp] theorem totalAt_append (k : κ) (l m : List (κ × Int)) :
    totalAt k (l ++ m) = totalAt k l + totalAt k m := by
  simp [totalAt]

theorem totalAt_perm {k : κ} {l m : List (κ × Int)} (h : l.Perm m) : totalAt k l = totalAt k m :=
  ((h.filter _).map _).sum_eq

theorem totalAt_bump (k j : κ) (d : Int) (t : Tally κ) :
    totalAt k (bump j d t) = totalAt k t + if j = k then d else 0 := by
  induction t with
  | nil => simp [bump]
  | cons p t ih =>
    obtain ⟨i, v⟩ := p
    simp only [bump]
    split
    · simp; ring
    · split
      · next h =>
        subst h
        by_cases hk : j = k <;> simp [hk]
        ring
      · simp only [totalAt_cons, ih]; ring

theorem mem_bump {p : κ × Int} {j : κ} {d : Int} {t : Tally κ} (h : p ∈ bump j d t) :
    p.1 = j ∨ p ∈ t := by
  induction t with
  | nil => simp only [bump, List.mem_singleton] at h; exact .inl (h ▸ rfl)
  | cons q t ih =>
    obtain ⟨i, v⟩ := q
    simp only [bump] at h
    split at h
    · rcases List.mem_cons.mp h with rfl | h
      · exact .inl rfl
      · exact .inr h
    · split at h
      · next hij =>
        rcases List.mem_cons.mp h with rfl | h
        · exact .inl hij.symm
        · exact .inr (List.mem_cons_of_mem _ h)
      · rcases List.mem_cons.mp h with rfl | h
        · exact .inr List.mem_cons_self
        · exact (ih h).imp_right (List.mem_cons_of_mem _)

theorem Sorted.bump {t : Tally κ} (h : Sorted t) (j : κ) (d : Int) : Sorted (bump j d t) := by
  induction t with
  | nil => simp [Sorted, Tally.bump]
  | cons q t ih =>
    obtain ⟨i, v⟩ := q
    have hc := List.pairwise_cons.mp h
    simp only [Tally.bump]
    split
    · next hlt =>
      refine List.pairwise_cons.mpr ⟨fun p hp => ?_, h⟩
      rcases List.mem_cons.mp hp with rfl | hp
      · exact hlt
      · exact lt_trans hlt (hc.1 p hp)
    · split
      · exact List.pairwise_cons.mpr ⟨fun p hp => hc.1 p hp, hc.2⟩
      · next h1 h2 =>
        refine List.pairwise_cons.mpr ⟨fun p hp => ?_, ih hc.2⟩
        rcases mem_bump hp with hp | hp
        · exact hp ▸ lt_of_le_of_ne (not_lt.mp h1) (Ne.symm h2)
        · exact hc.1 p hp

theorem foldl_bump_sorted (l : List (κ × Int)) :
    ∀ {t : Tally κ}, Sorted t → Sorted (l.foldl (fun t p => bump p.1 p.2 t) t) := by
  induction l with
  | nil => exact id
  | cons p l ih => intro t ht; exact ih (ht.bump _ _)

theorem sorted_tally (l : List (κ × Int)) : Sorted (tally l) :=
  foldl_bump_sorted l List.Pairwise.nil

theorem totalAt_foldl_bump (k : κ) (l : List (κ × Int)) :
    ∀ t : Tally κ, totalAt k (l.foldl (fun t p => bump p.1 p.2 t) t) = totalAt k t + totalAt k l := by
  induction l with
  | nil => simp
  | cons p l ih => intro t; simp only [List.foldl_cons, ih, totalAt_bump, totalAt_cons]; ring

/-- **The tally holds the sums.** -/
theorem totalAt_tally (k : κ) (l : List (κ × Int)) : totalAt k (tally l) = totalAt k l := by
  simp [tally, totalAt_foldl_bump]

/-- In a sorted tally a key's entry is its total. -/
theorem Sorted.totalAt_eq {t : Tally κ} (h : Sorted t) {p : κ × Int} (hp : p ∈ t) :
    totalAt p.1 t = p.2 := by
  induction t with
  | nil => cases hp
  | cons q t ih =>
    have hc := List.pairwise_cons.mp h
    rcases List.mem_cons.mp hp with rfl | hp
    · have hz : totalAt p.1 t = 0 := by
        have : t.filter (fun q => q.1 = p.1) = [] := by
          rw [List.filter_eq_nil_iff]
          intro q hq
          simpa using (hc.1 q hq).ne'
        simp [totalAt, this]
      simp [hz]
    · have : q.1 ≠ p.1 := (hc.1 p hp).ne
      simp [this, ih hc.2 hp]

theorem totalAt_eq_zero {k : κ} {t : Tally κ} (h : ∀ p ∈ t, p.1 ≠ k) : totalAt k t = 0 := by
  have : t.filter (fun p => p.1 = k) = [] := by
    rw [List.filter_eq_nil_iff]
    intro q hq
    simpa using h q hq
  simp [totalAt, this]

theorem Sorted.mem_below {t : Tally κ} (h : Sorted t) (k : κ) : k ∈ below t ↔ totalAt k t < 0 := by
  constructor
  · intro hk
    obtain ⟨p, hp, rfl⟩ := List.mem_map.mp hk
    rw [List.mem_filter] at hp
    rw [h.totalAt_eq hp.1]
    simpa using hp.2
  · intro hk
    by_cases hex : ∃ p ∈ t, p.1 = k
    · obtain ⟨p, hp, rfl⟩ := hex
      rw [h.totalAt_eq hp] at hk
      exact List.mem_map.mpr ⟨p, List.mem_filter.mpr ⟨hp, by simpa using hk⟩, rfl⟩
    · push Not at hex
      rw [totalAt_eq_zero hex] at hk
      exact absurd hk (lt_irrefl 0)

/-- **The keys below zero**: exactly those whose weights sum to less than zero. -/
theorem mem_below_tally (k : κ) (l : List (κ × Int)) : k ∈ below (tally l) ↔ totalAt k l < 0 := by
  rw [(sorted_tally l).mem_below, totalAt_tally]

theorem pairwise_below {t : Tally κ} (h : Sorted t) : (below t).Pairwise (· < ·) := by
  unfold below
  rw [List.pairwise_map]
  exact List.Pairwise.sublist List.filter_sublist h

theorem length_bump_le (k : κ) (d : Int) (t : Tally κ) : (bump k d t).length ≤ t.length + 1 := by
  induction t with
  | nil => simp [bump]
  | cons p t ih =>
    simp only [bump]
    split
    · simp
    · split
      · simp
      · simpa using ih

theorem length_foldl_bump_le (l : List (κ × Int)) :
    ∀ t : Tally κ, (l.foldl (fun t p => bump p.1 p.2 t) t).length ≤ t.length + l.length := by
  induction l with
  | nil => simp
  | cons p l ih =>
    intro t
    have h1 := ih (bump p.1 p.2 t)
    have h2 := length_bump_le p.1 p.2 t
    simp only [List.foldl_cons, List.length_cons]
    omega

theorem length_below_tally_le (l : List (κ × Int)) : (below (tally l)).length ≤ l.length := by
  have h1 := length_foldl_bump_le l []
  have h2 := List.length_filter_le (fun p : κ × Int => decide (p.2 < 0)) (tally l)
  simp only [below, List.length_map]
  simp only [List.length_nil, Nat.zero_add] at h1
  exact h2.trans h1

theorem below_tally_perm {l m : List (κ × Int)} (h : l.Perm m) :
    below (tally l) = below (tally m) :=
  (pairwise_below (sorted_tally l)).eq_of_mem_iff (pairwise_below (sorted_tally m)) fun k => by
    rw [mem_below_tally, mem_below_tally, totalAt_perm h]

theorem totalAt_map_const (k : κ) (d : Int) {l : List κ} (h : l.Nodup) :
    totalAt k (l.map fun x => (x, d)) = if k ∈ l then d else 0 := by
  induction l with
  | nil => simp
  | cons x l ih =>
    obtain ⟨hx, hl⟩ := List.nodup_cons.mp h
    simp only [List.map_cons, totalAt_cons, ih hl, List.mem_cons]
    by_cases hk : x = k
    · subst hk; simp [hx]
    · simp [hk, Ne.symm hk]

end Tally

end Lib
