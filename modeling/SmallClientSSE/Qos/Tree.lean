import SmallClientSSE.Lib.Dyadic
import SmallClientSSE.Qos.Client

/-!
# Node numbers as dyadic intervals

`index h m k` is the number of the node `m` levels above the leaves that comes
`k`-th in its row. The paths, siblings and covering sets of the code are those
of dyadic intervals under this numbering.
-/

namespace SmallClientSSE.Qos

open Lib Dyadic

/-- The number of a node of a tree of `h` levels. -/
def index (h m k : Nat) : Int := 2 ^ (h - 1 - m) - 1 + k

/-- A node of the tree. -/
def InTree (h m k : Nat) : Prop := m < h ∧ k < 2 ^ (h - 1 - m)

instance (h m k : Nat) : Decidable (InTree h m k) := inferInstanceAs (Decidable (_ ∧ _))

/-- The other child of the same parent. -/
def sib (k : Nat) : Nat := if k % 2 = 1 then k - 1 else k + 1

section

variable {h m k j i p : Nat}

theorem two_pow_cast (n : Nat) : (2 : Int) ^ n = ((2 ^ n : Nat) : Int) := by push_cast; rfl

theorem inTree_above (hp : p < 2 ^ (h - 1)) (hm : m < h) : InTree h m (p / 2 ^ m) := by
  refine ⟨hm, (Nat.div_lt_iff_lt_mul (Nat.two_pow_pos m)).mpr ?_⟩
  rwa [← pow_add, show h - 1 - m + m = h - 1 by omega]

theorem inTree_of_end (hpos : 0 < h) (he : (k + 1) * 2 ^ m ≤ 2 ^ (h - 1)) : InTree h m k := by
  have hle : 2 ^ m ≤ 2 ^ (h - 1) := (Nat.le_mul_of_pos_left _ (Nat.succ_pos k)).trans he
  have hm : m ≤ h - 1 := (Nat.pow_le_pow_iff_right (by decide)).mp hle
  refine ⟨by omega, ?_⟩
  rw [show h - 1 = (h - 1 - m) + m by omega, pow_add] at he
  exact Nat.le_of_mul_le_mul_right he (Nat.two_pow_pos m)

theorem index_nonneg : 0 ≤ index h m k := by
  have := Nat.two_pow_pos (h - 1 - m)
  rw [index, two_pow_cast]
  omega

theorem InTree.index_lt (ht : InTree h m k) : index h m k < 2 ^ h - 1 := by
  obtain ⟨hm, hk⟩ := ht
  have h1 : 2 ^ (h - 1 - m) ≤ 2 ^ (h - 1) := Nat.pow_le_pow_right (by decide) (by omega)
  have h2 : 2 ^ h = 2 * 2 ^ (h - 1) := by
    rw [← pow_succ', show h - 1 + 1 = h by omega]
  rw [index, two_pow_cast, two_pow_cast]
  omega

theorem index_inj (h1 : InTree h m k) (h2 : InTree h j i) (e : index h m k = index h j i) :
    m = j ∧ k = i := by
  have key : ∀ {m k j i : Nat}, InTree h m k → InTree h j i → index h m k = index h j i → m ≤ j := by
    rintro m k j i ⟨hm, hk⟩ ⟨hj, hi⟩ e
    by_contra hlt
    have hpow : 2 * 2 ^ (h - 1 - m) ≤ 2 ^ (h - 1 - j) := by
      rw [← pow_succ']
      exact Nat.pow_le_pow_right (by decide) (by omega)
    rw [index, index, two_pow_cast, two_pow_cast] at e
    omega
  obtain rfl := le_antisymm (key h1 h2 e) (key h2 h1 e.symm)
  refine ⟨rfl, ?_⟩
  simp only [index] at e
  omega

theorem index_left (hm : m + 1 < h) : index h (m + 1) k * 2 + 1 = index h m (2 * k) := by
  have : 2 ^ (h - 1 - m) = 2 * 2 ^ (h - 1 - (m + 1)) := by
    rw [← pow_succ', show h - 1 - (m + 1) + 1 = h - 1 - m by omega]
  rw [index, index, two_pow_cast, two_pow_cast, this]
  push_cast
  ring

theorem index_right (hm : m + 1 < h) : index h (m + 1) k * 2 + 2 = index h m (2 * k + 1) := by
  have := index_left (k := k) hm
  simp only [index] at this ⊢
  push_cast at this ⊢
  omega

theorem InTree.left (ht : InTree h (m + 1) k) : InTree h m (2 * k) := by
  obtain ⟨hm, hk⟩ := ht
  refine ⟨by omega, ?_⟩
  rw [show h - 1 - m = h - 1 - (m + 1) + 1 by omega, pow_succ]
  omega

theorem InTree.right (ht : InTree h (m + 1) k) : InTree h m (2 * k + 1) := by
  obtain ⟨hm, hk⟩ := ht
  refine ⟨by omega, ?_⟩
  rw [show h - 1 - m = h - 1 - (m + 1) + 1 by omega, pow_succ]
  omega

theorem InTree.below (ht : InTree h m k) (hj : j ≤ m) (hi : i / 2 ^ (m - j) = k) : InTree h j i := by
  obtain ⟨hm, hk⟩ := ht
  refine ⟨by omega, ?_⟩
  rw [← hi, Nat.div_lt_iff_lt_mul (Nat.two_pow_pos _), ← pow_add,
    show h - 1 - m + (m - j) = h - 1 - j by omega] at hk
  exact hk

theorem leaf_iff (ht : InTree h m k) : index h m k ≥ 2 ^ (h - 1) - 1 ↔ m = 0 := by
  obtain ⟨hm, hk⟩ := ht
  rw [index, two_pow_cast, two_pow_cast]
  constructor
  · intro hge
    by_contra hne
    have hpow : 2 * 2 ^ (h - 1 - m) ≤ 2 ^ (h - 1) := by
      rw [← pow_succ']
      exact Nat.pow_le_pow_right (by decide) (by omega)
    omega
  · rintro rfl
    simp only [Nat.sub_zero]
    omega

theorem parent_index (hm : m + 1 < h) : parent (index h m k) = index h (m + 1) (k / 2) := by
  have hpow : 2 ^ (h - 1 - m) = 2 * 2 ^ (h - 1 - (m + 1)) := by
    rw [← pow_succ', show h - 1 - (m + 1) + 1 = h - 1 - m by omega]
  have hpos := index_nonneg (h := h) (m := m) (k := k)
  rw [parent, Int.tdiv_eq_ediv_of_nonneg (by omega), index, index, two_pow_cast, two_pow_cast, hpow]
  push_cast
  omega

theorem parent_iterate (hm : m < h) : parent^[m] (index h 0 p) = index h m (p / 2 ^ m) := by
  induction m with
  | zero => simp
  | succ m ih =>
    rw [Function.iterate_succ_apply', ih (by omega), parent_index hm, div_succ]

theorem sibling_index (hm : m + 1 < h) :
    sibling (index h m k) = some (index h m (sib k)) := by
  have hpow : 2 ^ (h - 1 - m) = 2 * 2 ^ (h - 1 - (m + 1)) := by
    rw [← pow_succ', show h - 1 - (m + 1) + 1 = h - 1 - m by omega]
  have hpos := Nat.two_pow_pos (h - 1 - (m + 1))
  have hne : index h m k ≠ 0 := by
    rw [index, two_pow_cast, hpow]
    omega
  have hmod : index h m k % 2 = 0 ↔ k % 2 = 1 := by
    rw [index, two_pow_cast, hpow]
    omega
  unfold sibling sib
  by_cases hk : k % 2 = 1
  · rw [if_pos ⟨hmod.mpr hk, hne⟩, if_pos hk]
    simp only [index]
    congr 1
    push_cast [show 1 ≤ k by omega]
    ring
  · rw [if_neg fun e => hk (hmod.mp e.1), if_pos ⟨fun e => hk (hmod.mp e), hne⟩, if_neg hk]
    simp only [index]
    congr 1
    push_cast
    ring

theorem sibling_root : sibling (index h (h - 1) 0) = none := by
  simp [index, sibling]

theorem InTree.sib (ht : InTree h m k) (hm : m + 1 < h) : InTree h m (sib k) := by
  obtain ⟨h1, h2⟩ := ht
  have hpow : 2 ^ (h - 1 - m) = 2 * 2 ^ (h - 1 - (m + 1)) := by
    rw [← pow_succ', show h - 1 - (m + 1) + 1 = h - 1 - m by omega]
  refine ⟨h1, ?_⟩
  unfold Qos.sib
  split <;> omega

/-! ## Paths -/

theorem heightOf_large : heightOf ⟨2 ^ 30 + 1, by decide⟩ = 32 := by
  have h1 : Nat.clog 2 (2 ^ 30 + 1) ≤ 31 := Nat.clog_le_of_le_pow (by decide)
  have h2 : 30 < Nat.clog 2 (2 ^ 30 + 1) := (Nat.lt_clog_iff_pow_lt (by decide)).mpr (by decide)
  show Nat.clog 2 (2 ^ 30 + 1) + 1 = 32
  omega

theorem getNodeOnPath_32 (leaf curDepth : Int) : getNodeOnPath 32 leaf curDepth = none := by
  rw [getNodeOnPath, int, if_neg (by decide)]
  rfl

section

variable (hh : h ≤ 31)

include hh

theorem pow_le_int : (2 : Int) ^ h ≤ 2 ^ 31 := pow_le_pow_right₀ (by decide) hh

theorem getNodeOnPath_eq (hp : p < 2 ^ (h - 1)) (hm : m < h) :
    getNodeOnPath h p (h - m : Int) = some (index h m (p / 2 ^ m)) := by
  have hle := pow_le_int hh
  have h2 : (2 : Int) ^ h = 2 * 2 ^ (h - 1) := by
    rw [← pow_succ', show h - 1 + 1 = h by omega]
  have hpos : (0 : Int) < 2 ^ (h - 1) := by positivity
  have hp' : (p : Int) < 2 ^ (h - 1) := by exact_mod_cast hp
  have hfull : InInt ((2 : Int) ^ h - 1) := ⟨by omega, by omega⟩
  have hdiv : ((2 : Int) ^ h - 1).tdiv 2 = 2 ^ (h - 1) - 1 := by
    rw [Int.tdiv_eq_ediv_of_nonneg (by omega)]
    omega
  have hleaf : (p : Int) + (2 ^ (h - 1) - 1) = index h 0 p := by
    simp only [index, Nat.sub_zero]
    ring
  have hin : InInt (index h 0 p) := by
    rw [← hleaf]
    exact ⟨by omega, by omega⟩
  have hsteps : ((h : Int) - (h - m)).toNat = m := by omega
  simp only [getNodeOnPath, int, hfull, if_true, Option.bind_eq_bind, Option.bind_some, hdiv, hleaf,
    hin, hsteps, parent_iterate hm]
  rfl

theorem treeNodes_eq (hp : p < 2 ^ (h - 1)) :
    treeNodes h p = some ((List.range h).map fun m => index h m (p / 2 ^ m)) := by
  have key : ∀ l : List Nat, (∀ m ∈ l, m < h) →
      l.mapM (fun i : Nat => getNodeOnPath h p ((h : Int) - (i : Int))) =
        some (l.map fun m => index h m (p / 2 ^ m)) := by
    intro l
    induction l with
    | nil => exact fun _ => rfl
    | cons m l ih =>
      intro hl
      rw [List.mapM_cons, getNodeOnPath_eq hh hp (hl m List.mem_cons_self),
        ih fun x hx => hl x (List.mem_cons_of_mem _ hx)]
      rfl
  exact key _ fun m hm => List.mem_range.mp hm

omit hh in
theorem siblings_eq (hpos : 0 < h) (hp : p < 2 ^ (h - 1)) :
    ((List.range h).map fun m => index h m (p / 2 ^ m)).filterMap sibling =
      (List.range (h - 1)).map fun m => index h m (sib (p / 2 ^ m)) := by
  have hroot : p / 2 ^ (h - 1) = 0 := Nat.div_eq_of_lt hp
  have hrange : List.range h = List.range (h - 1) ++ [h - 1] := by
    rw [← List.range_succ, Nat.succ_eq_add_one, show h - 1 + 1 = h by omega]
  rw [hrange, List.map_append, List.filterMap_append, List.map_singleton, hroot,
    List.filterMap_cons, sibling_root, List.filterMap_nil, List.append_nil]
  have key : ∀ l : List Nat, (∀ m ∈ l, m + 1 < h) →
      (l.map fun m => index h m (p / 2 ^ m)).filterMap sibling =
        l.map fun m => index h m (sib (p / 2 ^ m)) := by
    intro l
    induction l with
    | nil => exact fun _ => rfl
    | cons m l ih =>
      intro hl
      have hm := hl m List.mem_cons_self
      rw [List.map_cons, List.filterMap_cons, sibling_index hm,
        ih fun x hx => hl x (List.mem_cons_of_mem _ hx), List.map_cons]
  exact key _ fun m hm => by
    have := List.mem_range.mp hm
    omega

/-! ## Covering sets -/

theorem coverLoop_eq : ∀ (fuel n t : Nat), n < fuel → Aligned t n → t + n ≤ 2 ^ (h - 1) → 0 < h →
    Server.coverLoop h fuel ((n : Int) - 1) t =
      some ((cover t n).map fun c => index h c.1 c.2) := by
  intro fuel
  induction fuel with
  | zero => intro n t hlt; omega
  | succ fuel ih =>
    intro n t hlt ha hfit hpos
    unfold Server.coverLoop
    by_cases hn : n = 0
    · subst hn
      rw [if_neg (by simp)]
      simp
    · have h1 := Nat.log2_self_le hn
      have h2 := Nat.two_pow_pos n.log2
      have hlast : (if (n : Int) - 1 = 0 then (0 : Int) else 2 ^ ((n : Int) - 1 + 1).toNat.log2 - 1) =
          2 ^ n.log2 - 1 := by
        rw [show ((n : Int) - 1 + 1).toNat = n by omega]
        split
        · next h0 =>
          obtain rfl : n = 1 := by omega
          simp [show Nat.log2 1 = 0 by decide]
        · rfl
      have hheight : (if (n : Int) - 1 = 0 then (1 : Int) else ((n : Int) - 1 + 1).toNat.log2 + 1) =
          n.log2 + 1 := by
        rw [show ((n : Int) - 1 + 1).toNat = n by omega]
        split
        · next h0 =>
          obtain rfl : n = 1 := by omega
          simp [show Nat.log2 1 = 0 by decide]
        · rfl
      have hlt2 : n.log2 < h := by
        by_contra hge
        have : 2 ^ (h - 1) < 2 ^ n.log2 := Nat.pow_lt_pow_right (by decide) (by omega)
        omega
      have hdiv : (2 ^ n.log2 - 1 + t) / 2 ^ n.log2 = t / 2 ^ n.log2 := by
        obtain ⟨c, hc⟩ := (Nat.pow_dvd_pow 2 (Nat.le_succ n.log2)).trans (ha.resolve_left hn)
        subst hc
        rw [Nat.add_mul_div_left _ _ h2, Nat.mul_div_cancel_left _ h2, Nat.div_eq_of_lt (by omega)]
        omega
      have hnode := getNodeOnPath_eq (p := 2 ^ n.log2 - 1 + t) hh (by omega) hlt2
      rw [hdiv] at hnode
      have harg : ((2 ^ n.log2 - 1 + t : Nat) : Int) = 2 ^ n.log2 - 1 + t := by
        rw [two_pow_cast]
        omega
      rw [harg] at hnode
      have hih := ih (n - 2 ^ n.log2) (t + 2 ^ n.log2) (by omega) (ha.rest hn) (by omega) hpos
      have he1 : ((n - 2 ^ n.log2 : Nat) : Int) - 1 = (n : Int) - 1 - (2 ^ n.log2 - 1 + 1) := by
        rw [two_pow_cast]
        omega
      have he2 : ((t + 2 ^ n.log2 : Nat) : Int) = t + (2 ^ n.log2 - 1 + 1) := by
        push_cast
        ring
      rw [he1, he2] at hih
      rw [if_pos (by omega)]
      simp only [hlast, hheight]
      rw [show (h : Int) - (n.log2 + 1) + 1 = h - n.log2 by ring, hnode, hih, cover_pos hn]
      rfl

/-- **The covering set** is the cover of the positions used. -/
theorem findCoveringSet_eq (hpos : 0 < h) {n : Nat} (hn : n ≤ 2 ^ (h - 1)) :
    Server.findCoveringSet h ((n : Int) - 1) =
      some ((cover 0 n).map fun c => index h c.1 c.2) := by
  have := coverLoop_eq hh (n + 1) n 0 (by omega) (aligned_zero n) (by omega) hpos
  rw [Server.findCoveringSet, show ((n : Int) - 1 + 1).toNat = n by omega]
  exact this

end

end

end SmallClientSSE.Qos
