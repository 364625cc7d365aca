import Mathlib.Data.Finset.Sort
import SmallClientSSE.Omap.AVLTree
import SmallClientSSE.Omap.Layout

/-!
# Capacity and height

The position refresh of `finilize` stops at `maxHeightOfAVLTree`. Every balanced
search tree is what some insertions build (`reach`), so how high a tree of
`maxSize` keys can get is a Fibonacci bound, and only for a few small sizes is the
stop high enough (`height_covered_iff`).
-/

namespace SmallClientSSE.Omap

open Lib AVL BinaryTree

/-! ## Insertions from an empty tree -/

section

variable {κ ν : Type} [LinearOrder κ]

theorem insertAll_snoc {ps : List (κ × ν)} {k : κ} {v : ν} {t u : AVLTree κ ν}
    (h : insertAll ps = some t) (hk : AVL.insert k v t = some u) :
    insertAll (ps ++ [(k, v)]) = some u := by
  simp only [insertAll] at h ⊢
  rw [List.foldlM_append, h]
  simpa using hk

/-- What some insertions build: a balanced search tree of their keys. -/
theorem insertAll_spec (ps : List (κ × ν)) : ∃ t, insertAll ps = some t ∧ AVL.Ok t ∧
    Ascending (pairs t) ∧ ∀ e ∈ pairs t, e.1 ∈ ps.map Prod.fst := by
  induction ps using List.reverseRecOn with
  | nil => exact ⟨.nil, rfl, trivial, List.Pairwise.nil, fun _ h => absurd h List.not_mem_nil⟩
  | append_singleton ps p ih =>
    obtain ⟨t, ht, hok, hasc, hkeys⟩ := ih
    obtain ⟨u, hu, hok', -⟩ := insert_ok p.1 p.2 hok
    refine ⟨u, insertAll_snoc ht hu, hok', ?_, fun e he => ?_⟩
    · rw [insert_pairs hasc hu]
      exact hasc.assign
    · rw [insert_pairs hasc hu] at he
      rw [List.map_append]
      rcases mem_assign he with rfl | he
      exacts [List.mem_append_right _ List.mem_cons_self, List.mem_append_left _ (hkeys e he)]

/-- **The last insertion**: a balanced search tree grew out of a smaller one. -/
theorem exists_before {t : AVLTree κ ν} (hok : AVL.Ok t) (hasc : Ascending (pairs t))
    (hne : t ≠ .nil) : ∃ k v s, AVL.insert k v s = some t ∧ AVL.Ok s ∧ Ascending (pairs s) ∧
      t.numNodes = s.numNodes + 1 ∧ AVL.height s ≤ AVL.height t ∧
      AVL.height t ≤ AVL.height s + 1 ∧ (pairs t).map Prod.fst ⊇ k :: (pairs s).map Prod.fst := by
  induction t with
  | nil => exact absurd rfl hne
  | node e l r ihl ihr =>
    obtain ⟨he, h1, h2, hl, hr⟩ := hok
    rw [pairs_node] at hasc ⊢
    obtain ⟨hal, har, hle, hre⟩ := ascending_append.mp hasc
    have hpos : ∀ {s : AVLTree κ ν}, AVL.Ok s → s ≠ .nil → 0 < AVL.height s := by
      intro s hs hn
      cases s with
      | nil => exact absurd rfl hn
      | node => exact hs.pos_of_node
    have hht : AVL.height (.node e l r) = e.height := rfl
    by_cases hlr : AVL.height r ≤ AVL.height l
    · by_cases hln : l = .nil
      · -- a single node
        subst hln
        have hrn : r = .nil := by
          by_contra hn
          have h0 : AVL.height (.nil : AVLTree κ ν) = 0 := rfl
          have := hpos hr hn
          omega
        subst hrn
        refine ⟨e.key, e.value, .nil, ?_, trivial, List.Pairwise.nil, rfl, Nat.zero_le _, ?_, ?_⟩
        · have : e.height = 1 := by simpa [AVL.height] using he
          simp only [AVL.insert, ← this]
        · rw [hht, he]
          simp [AVL.height]
        · simp
      · obtain ⟨k, v, l', hins, hok', hasc', hnum, hge, hle', hsub⟩ := ihl hl hal hln
        have hk : k < e.key := by
          obtain ⟨p, hp, hpk⟩ := List.mem_map.mp (hsub List.mem_cons_self)
          exact hpk ▸ hle p hp
        refine ⟨k, v, update e l' r, ?_, Ok.update (by omega) (by omega) hok' hr, ?_, ?_, ?_, ?_, ?_⟩
        · unfold update
          simp only [AVL.insert, hk, if_true, hins, Option.bind_eq_bind, Option.bind_some]
          rw [rebalance_level h1 h2]
          simp only [update, ← he]
        · rw [pairs_update]
          refine ascending_append.mpr ⟨hasc', har, fun b hb => ?_, hre⟩
          obtain ⟨p, hp, hpk⟩ := List.mem_map.mp
            (hsub (List.mem_cons_of_mem _ (List.mem_map_of_mem hb)))
          exact hpk ▸ hle p hp
        · simp only [update, numNodes]
          omega
        · rw [height_update, hht]
          omega
        · rw [height_update, hht]
          omega
        · rw [pairs_update]
          intro j hj
          simp only [List.map_append, List.map_cons, List.mem_append, List.mem_cons] at hj ⊢
          rcases hj with rfl | hj | hj
          exacts [.inl (hsub List.mem_cons_self), .inl (hsub (List.mem_cons_of_mem _ hj)), .inr hj]
    · have hrn : r ≠ .nil := fun h => by
        subst h
        exact hlr (Nat.zero_le _)
      obtain ⟨k, v, r', hins, hok', hasc', hnum, hge, hle', hsub⟩ := ihr hr har hrn
      have hk : e.key < k := by
        obtain ⟨p, hp, hpk⟩ := List.mem_map.mp (hsub List.mem_cons_self)
        exact hpk ▸ hre p hp
      refine ⟨k, v, update e l r', ?_, Ok.update (by omega) (by omega) hl hok', ?_, ?_, ?_, ?_, ?_⟩
      · unfold update
        simp only [AVL.insert, hk, hk.not_gt, if_false, if_true, hins, Option.bind_eq_bind,
          Option.bind_some]
        rw [rebalance_level h1 h2]
        simp only [update, ← he]
      · rw [pairs_update]
        refine ascending_append.mpr ⟨hal, hasc', hle, fun b hb => ?_⟩
        obtain ⟨p, hp, hpk⟩ := List.mem_map.mp
          (hsub (List.mem_cons_of_mem _ (List.mem_map_of_mem hb)))
        exact hpk ▸ hre p hp
      · simp only [update, numNodes]
        omega
      · rw [height_update, hht]
        omega
      · rw [height_update, hht]
        omega
      · rw [pairs_update]
        intro j hj
        simp only [List.map_append, List.map_cons, List.mem_append, List.mem_cons] at hj ⊢
        rcases hj with rfl | hj | rfl | hj
        exacts [.inr (.inr (hsub List.mem_cons_self)), .inl hj, .inr (.inl rfl),
          .inr (.inr (hsub (List.mem_cons_of_mem _ hj)))]

/-- **Every balanced search tree is reached** by inserting its keys. -/
theorem reach {n : Nat} {t : AVLTree κ ν} (hok : AVL.Ok t) (hasc : Ascending (pairs t))
    (hn : t.numNodes = n) : ∃ ps, insertAll ps = some t ∧ ps.length = n ∧
      ∀ p ∈ ps, p.1 ∈ (pairs t).map Prod.fst := by
  induction n generalizing t with
  | zero =>
    cases t with
    | nil => exact ⟨[], rfl, rfl, fun _ h => absurd h List.not_mem_nil⟩
    | node e l r => exact absurd hn (Nat.succ_ne_zero _)
  | succ n ih =>
    have hne : t ≠ .nil := fun h => by
      subst h
      cases hn
    obtain ⟨k, v, s, hins, hok', hasc', hnum, -, -, hsub⟩ := exists_before hok hasc hne
    obtain ⟨ps, hps, hlen, hkeys⟩ := ih hok' hasc' (by omega)
    refine ⟨ps ++ [(k, v)], insertAll_snoc hps hins, by simp [hlen], fun p hp => ?_⟩
    rcases List.mem_append.mp hp with hp | hp
    · exact hsub (List.mem_cons_of_mem _ (hkeys p hp))
    · rw [List.mem_singleton.mp hp]
      exact hsub List.mem_cons_self

/-- A tree of pairs with its heights filled in. -/
def withHeights : BinaryTree (κ × ν) → AVLTree κ ν
  | .nil => .nil
  | .node p l r => update ⟨p.1, p.2, 0⟩ (withHeights l) (withHeights r)

omit [LinearOrder κ] in
theorem height_withHeights : ∀ t : BinaryTree (κ × ν), AVL.height (withHeights t) = t.height
  | .nil => rfl
  | .node p l r => by
    rw [withHeights, height_update, height_withHeights, height_withHeights, BinaryTree.height]

omit [LinearOrder κ] in
theorem pairs_withHeights : ∀ t : BinaryTree (κ × ν), pairs (withHeights t) = inorder t
  | .nil => rfl
  | .node p l r => by
    rw [withHeights, pairs_update, pairs_withHeights, pairs_withHeights, inorder]

omit [LinearOrder κ] in
theorem ok_withHeights : ∀ {t : BinaryTree (κ × ν)}, Balanced t → AVL.Ok (withHeights t)
  | .nil, _ => trivial
  | .node p l r, ⟨h1, h2, hl, hr⟩ => by
    refine Ok.update ?_ ?_ (ok_withHeights hl) (ok_withHeights hr) <;>
      simpa only [height_withHeights]

omit [LinearOrder κ] in
theorem numNodes_pairs (t : AVLTree κ ν) : t.numNodes = (pairs t).length := by
  rw [pairs, List.length_map, length_inorder]

theorem numNodes_le {ks : List κ} {t : AVLTree κ ν} (hasc : Ascending (pairs t))
    (hkeys : ∀ e ∈ pairs t, e.1 ∈ ks) : t.numNodes ≤ ks.length := by
  have hsub : (pairs t).map Prod.fst ⊆ ks := by
    intro k hk
    obtain ⟨e, he, rfl⟩ := List.mem_map.mp hk
    exact hkeys e he
  have := (hasc.nodup.subperm hsub).length_le
  rwa [List.length_map, ← numNodes_pairs] at this

end

/-! ## Keys -/

def keyOf (i : Nat) : Bid 16 := ⟨(Buf.put 0 1 Buf.zero).putInt 4 i⟩

theorem keyOf_isZero (i : Nat) : (keyOf i).isZero = false := by
  simp only [Bid.isZero, List.all_eq_false]
  refine ⟨3, by decide, ?_⟩
  simp only [keyOf, Nat.sub_self]
  rw [Buf.putInt_at _ _ _ _ (by decide), if_neg (by decide)]
  decide

theorem keyOf_inj {i j : Nat} (hi : i < 2 ^ 31) (hj : j < 2 ^ 31) (h : keyOf i = keyOf j) : i = j := by
  have hid : (keyOf i).id = (keyOf j).id := by rw [h]
  have : (i : Int) = j := by
    refine Buf.leByte_inj ⟨by omega, by omega⟩ ⟨by omega, by omega⟩ fun k hk => ?_
    have := congrArg (fun b : Buf 16 => b.at' (4 + k)) hid
    simp only [keyOf] at this
    rwa [Buf.putInt_at _ _ _ _ (by omega), Buf.putInt_at _ _ _ _ (by omega), if_pos (by omega),
      if_pos (by omega), Nat.add_sub_cancel_left] at this
  exact_mod_cast this

theorem exists_keys {n : Nat} (hn : n ≤ 2 ^ 31) : ∃ f : Nat → Bid 16,
    (∀ i, i < n → (f i).isZero = false) ∧ ∀ i j, i < j → j < n → f i < f j := by
  classical
  have hcard : ((Finset.range n).image keyOf).card = n := by
    rw [Finset.card_image_of_injOn, Finset.card_range]
    intro i hi j hj h
    have hi := Finset.mem_range.mp (Finset.mem_coe.mp hi)
    have hj := Finset.mem_range.mp (Finset.mem_coe.mp hj)
    exact keyOf_inj (by omega) (by omega) h
  refine ⟨fun i => if h : i < n then Finset.orderEmbOfFin _ hcard ⟨i, h⟩ else keyOf 0,
    fun i hi => ?_, fun i j hij hj => ?_⟩
  · simp only [hi, dif_pos]
    obtain ⟨x, -, hx⟩ := Finset.mem_image.mp (Finset.orderEmbOfFin_mem _ hcard ⟨i, hi⟩)
    rw [← hx]
    exact keyOf_isZero x
  · simp only [hj, hij.trans hj, dif_pos]
    exact (Finset.orderEmbOfFin _ hcard).lt_iff_lt.mpr hij

/-! ## The bound -/

/-- The sizes that can be filled in any order without outgrowing the refresh. -/
def Covered (maxSize : Nat) : Prop :=
  4 ≤ maxSize ∧ maxSize ≤ 6 ∨ 8 ≤ maxSize ∧ maxSize ≤ 11 ∨ 16 ≤ maxSize ∧ maxSize ≤ 19 ∨
    maxSize = 32

instance (maxSize : Nat) : Decidable (Covered maxSize) := inferInstanceAs (Decidable (_ ∨ _))

theorem fib_le_four_pow : ∀ d, 4 ≤ d → Nat.fib (d + 6) ≤ 4 * 2 ^ d := by
  intro d hd
  induction d, hd using Nat.le_induction with
  | base => decide
  | succ d _ ih =>
    have h1 : Nat.fib (d + 1 + 6) = Nat.fib (d + 5) + Nat.fib (d + 6) := Nat.fib_add_two
    have h2 : Nat.fib (d + 5) ≤ Nat.fib (d + 6) := Nat.fib_le_fib_succ
    rw [h1, pow_succ]
    omega

theorem depthOf_spec {maxSize : Nat} (h : 4 ≤ maxSize) :
    4 * 2 ^ depthOf maxSize ≤ maxSize ∧ maxSize < 8 * 2 ^ depthOf maxSize := by
  have hne : maxSize / Z ≠ 0 := by
    unfold Z
    omega
  have h1 := Nat.pow_log_le_self 2 hne
  have h2 := Nat.lt_pow_succ_log_self (b := 2) (by decide) (maxSize / Z)
  rw [pow_succ] at h2
  unfold depthOf
  generalize 2 ^ Nat.log 2 (maxSize / Z) = p at *
  unfold Z at *
  omega

theorem covered_iff {maxSize : Nat} (h : 4 ≤ maxSize) :
    Covered maxSize ↔ maxSize + 1 < Nat.fib (depthOf maxSize + 6) := by
  obtain ⟨h1, h2⟩ := depthOf_spec h
  by_cases hd : 4 ≤ depthOf maxSize
  · have h3 := fib_le_four_pow _ hd
    have h4 : 2 ^ 4 ≤ 2 ^ depthOf maxSize := Nat.pow_le_pow_right (by decide) hd
    constructor
    · rintro (⟨-, h⟩ | ⟨-, h⟩ | ⟨-, h⟩ | h) <;> omega
    · intro h
      omega
  · have hcases : depthOf maxSize = 0 ∨ depthOf maxSize = 1 ∨ depthOf maxSize = 2 ∨
        depthOf maxSize = 3 := by omega
    unfold Covered
    rcases hcases with hd | hd | hd | hd <;> rw [hd] at h1 h2 ⊢ <;>
      simp only [show Nat.fib (0 + 6) = 8 from rfl, show Nat.fib (1 + 6) = 13 from rfl,
        show Nat.fib (2 + 6) = 21 from rfl, show Nat.fib (3 + 6) = 34 from rfl] <;> omega

/-- **The refresh covers every tree** of `maxSize` keys for these sizes only. -/
theorem height_covered_iff (maxSize : Nat) (h4 : 4 ≤ maxSize) (hint : maxSize < 2 ^ 31) :
    (∀ ps : List (Bid 16 × Buf 16), (∀ p ∈ ps, p.1.isZero = false) →
      (ps.map Prod.fst).dedup.length ≤ maxSize →
      ∃ t, insertAll ps = some t ∧ AVL.height t = t.height ∧
        t.height ≤ maxHeightOfAVLTree maxSize) ↔ Covered maxSize := by
  rw [covered_iff h4]
  constructor
  · intro hall
    by_contra hbig
    have hpos : 0 < Nat.fib (depthOf maxSize + 6) := Nat.fib_pos.mpr (Nat.succ_pos _)
    obtain ⟨f, hz, hf⟩ := exists_keys (n := Nat.fib (depthOf maxSize + 6) - 1) (by omega)
    have hin : inorder (sparse (fun i => (f i, (Buf.zero : Buf 16))) (depthOf maxSize + 4) 0) =
        (List.range (Nat.fib (depthOf maxSize + 6) - 1)).map fun i => (f i, Buf.zero) := by
      rw [inorder_sparse, List.range_eq_range']
    have hasc : Ascending (pairs (withHeights
        (sparse (fun i => (f i, (Buf.zero : Buf 16))) (depthOf maxSize + 4) 0))) := by
      rw [pairs_withHeights, hin]
      refine List.pairwise_map.mpr (List.pairwise_lt_range.imp_of_mem fun ha hb hab => ?_)
      exact hf _ _ hab (List.mem_range.mp hb)
    obtain ⟨ps, hps, hlen, hkeys⟩ := reach (ok_withHeights (balanced_sparse _ _ _)) hasc rfl
    rw [pairs_withHeights, hin] at hkeys
    rw [numNodes_pairs, pairs_withHeights, hin, List.length_map, List.length_range] at hlen
    have hsub := (List.dedup_sublist (ps.map Prod.fst)).length_le
    rw [List.length_map] at hsub
    obtain ⟨t, ht, hh, hle⟩ := hall ps (fun p hp => by
      obtain ⟨e, he, hpe⟩ := List.mem_map.mp (hkeys p hp)
      obtain ⟨i, hi, rfl⟩ := List.mem_map.mp he
      exact hpe ▸ hz i (List.mem_range.mp hi)) (by omega)
    obtain rfl := Option.some.inj (hps.symm.trans ht)
    rw [← hh, height_withHeights, height_sparse, maxHeightOfAVLTree_eq] at hle
    omega
  · intro hsmall ps _ hcount
    obtain ⟨t, ht, hok, hasc, hkeys⟩ := insertAll_spec ps
    refine ⟨t, ht, hok.height_eq, ?_⟩
    have h1 := hok.balanced.fib_le
    have h2 := numNodes_le hasc fun e he => List.mem_dedup.mpr (hkeys e he)
    rw [maxHeightOfAVLTree_eq]
    by_contra hbig
    have := Nat.fib_mono (show depthOf maxSize + 6 ≤ t.height + 2 by omega)
    omega

theorem height_covered_iff_seven :
    (∀ ps : List (Bid 16 × Buf 16), (∀ p ∈ ps, p.1.isZero = false) →
      (ps.map Prod.fst).dedup.length ≤ 7 →
      ∃ t, insertAll ps = some t ∧ AVL.height t = t.height ∧
        t.height ≤ maxHeightOfAVLTree 7) ↔ Covered 7 :=
  height_covered_iff 7 (by decide) (by decide)

/-- Seven keys in an order that makes four levels, where the refresh covers three. -/
theorem seven_keys_too_high :
    ∃ ps : List (Bid 16 × Buf 16), (∀ p ∈ ps, p.1.isZero = false) ∧
      (ps.map Prod.fst).dedup.length = 7 ∧
      (insertAll ps).map AVL.height = some 4 ∧ maxHeightOfAVLTree 7 = 3 := by
  refine ⟨[5, 3, 7, 2, 4, 6, 1].map fun i => (Bid.ofValue i, Buf.zero), ?_, ?_, ?_, ?_⟩
  · decide +kernel
  · decide +kernel
  · decide +kernel
  · rw [maxHeightOfAVLTree_eq, show depthOf 7 = 0 from rfl]

end SmallClientSSE.Omap
