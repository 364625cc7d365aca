import Mathlib.Data.List.Forall2
import Mathlib.Data.List.TakeWhile
import SmallClientSSE.Omap.Reached

/-!
# Batch searches against `find`

The answers of `batchSearch` come in the order of the nodes, with the zero bytes that
`find` cuts off and without the absent keys. So both agree exactly on the lists of
`Aligned` (`batchSearch_agrees_iff`).
-/

namespace SmallClientSSE.Omap

open Lib ORAM BinaryTree

variable {n : Nat}

/-- `batchSearch` answers each key as `find` does. -/
def BatchAgrees (E : Env n) (fuel : Nat) (m : OMAP n) (ks : List (Bid n)) : Prop :=
  ∃ res m', OMAP.batchSearch E fuel ks m = some (res, m') ∧
    List.Forall₂ (fun k s => ∃ m'', OMAP.find E fuel k m = some (s, m'')) ks res

/-- Every key is there with a value without a zero byte, and the order of the nodes lists the same
values as the order of the keys. -/
def Aligned (t : Tree n) (ks : List (Bid n)) : Prop :=
  (∀ k ∈ ks, ∃ v, valueOf k (AVL.pairs t) = some v ∧ NulFree (text v)) ∧
    (hits t ks).map (fun k => valueOf k (AVL.pairs t)) = ks.map fun k => valueOf k (AVL.pairs t)

section

variable {t : Tree n} {ks : List (Bid n)} {k : Bid n} {v : Buf 16}

theorem cstr_of_nulFree (h : NulFree (text v)) : v.cstr = text v := by
  unfold Buf.cstr
  refine List.takeWhile_eq_self_iff.mpr fun c hc => ?_
  have : c ≠ 0 := fun e => h (e ▸ hc)
  simpa using this

theorem nulFree_of_length (h : v.cstr.length = 16) : NulFree (text v) := by
  have hall : v.cstr = text v :=
    (List.takeWhile_prefix _).eq_of_length (h.trans List.length_ofFn.symm)
  intro h0
  have := List.mem_takeWhile_imp (hall ▸ h0 : (0 : Byte) ∈ v.cstr)
  simp at this

theorem text_inj {v w : Buf 16} (h : text v = text w) : v = w := List.ofFn_injective h

/-- **The answers agree** exactly for aligned keys. -/
theorem answers_iff (hs : Ascending (AVL.pairs t)) :
    (hits t ks).map (fullText t) = ks.map (contents t).find ↔ Aligned t ks := by
  have hfull : ∀ {k v}, valueOf k (AVL.pairs t) = some v → fullText t k = text v := fun h => by
    rw [fullText, h]
    rfl
  have hfind : ∀ {k v}, valueOf k (AVL.pairs t) = some v → (contents t).find k = v.cstr :=
    fun h => by
      rw [contents_find, h]
      rfl
  constructor
  · intro heq
    have hlen : (hits t ks).length = ks.length := by simpa using congrArg List.length heq
    have hall : ∀ k ∈ ks, k ∈ keys t := by
      have := List.length_filter_eq_length_iff.mp ((hits_perm hs).length_eq.symm.trans hlen)
      simpa using this
    have hstep : ∀ i (h1 : i < (hits t ks).length) (h2 : i < ks.length), ∃ v,
        valueOf ks[i] (AVL.pairs t) = some v ∧ NulFree (text v) ∧
        valueOf (hits t ks)[i] (AVL.pairs t) = some v := fun i h1 h2 => by
      obtain ⟨v, -, hv⟩ := exists_valueOf (hall _ (List.getElem_mem h2))
      obtain ⟨u, -, hu⟩ := exists_valueOf ((mem_hits hs).mp (List.getElem_mem h1)).2
      have hi : text u = v.cstr := by
        have := List.getElem_of_eq heq (i := i) (by simpa using h1)
        simpa [hfull hu, hfind hv] using this
      have hnul := nulFree_of_length (by rw [← hi, text, List.length_ofFn])
      rw [cstr_of_nulFree hnul] at hi
      exact ⟨v, hv, hnul, by rw [hu, text_inj hi]⟩
    refine ⟨fun k hk => ?_, List.ext_getElem (by simpa using hlen) fun i h1 h2 => ?_⟩
    · obtain ⟨i, hi, rfl⟩ := List.getElem_of_mem hk
      obtain ⟨v, hv, hnul, -⟩ := hstep i (hlen ▸ hi) hi
      exact ⟨v, hv, hnul⟩
    · obtain ⟨v, hv, -, hu⟩ := hstep i (by simpa using h1) (by simpa using h2)
      simp [hv, hu]
  · rintro ⟨hpresent, heq⟩
    have h1 : (hits t ks).map (fullText t) = ks.map (fullText t) := by
      have := congrArg (List.map fun v : Option (Buf 16) => (v.map text).getD []) heq
      simpa only [List.map_map] using! this
    rw [h1]
    refine List.map_congr_left fun k hk => ?_
    obtain ⟨v, hv, hnul⟩ := hpresent k hk
    rw [hfull hv, hfind hv, cstr_of_nulFree hnul]

end

/-- **`batchSearch` agrees with `find`** exactly when every key is present with sixteen nonzero
bytes and the values come in the order of the nodes. -/
theorem batchSearch_agrees_iff (maxSize : Nat) (hint : maxSize < 2 ^ 31) (tape : Nat → Int)
    (htape : ∀ i, Leaf (depthOf maxSize) (tape i)) (order : HashOrder) (fuel : Nat)
    (hfuel : maxHeightOfAVLTree maxSize < fuel) (m : OMAP n)
    (hm : Reached (plain tape order) maxSize fuel m) :
    ∃ V t, Stored (plain tape order) V t m ∧
      ∀ ks, BatchAgrees (plain tape order) fuel m ks ↔ Aligned t ks := by
  obtain ⟨V, t, hst, hht, hd, hmh⟩ := hm.within htape hfuel hint
  have hlive : ∀ k, (plain tape order : Env n).live k = true := fun _ => rfl
  refine ⟨V, t, hst, fun ks => ?_⟩
  rw [← answers_iff hst.sorted]
  obtain ⟨-, m1, hm1, -⟩ := OMAP.batchSearch_spec hlive (hd ▸ htape) (lt_of_le_of_lt hht hfuel) hst
    (.inl (hmh ▸ hht)) ks
  have hfind : ∀ k, ∃ m2, OMAP.find (plain tape order) fuel k m = some ((contents t).find k, m2) :=
    fun k => by
      obtain ⟨-, m2, hm2, -⟩ := find_spec hlive (hd ▸ htape) k (lt_of_le_of_lt hht hfuel) hst
        (.inl (hmh ▸ hht))
      exact ⟨m2, hm2⟩
  constructor
  · rintro ⟨res, m', hres, hall⟩
    obtain rfl := (Prod.mk.inj (Option.some.inj (hm1.symm.trans hres))).1
    have hall' := hall.imp fun k s ⟨m2, hs⟩ => by
      obtain ⟨m3, hm3⟩ := hfind k
      exact (Prod.mk.inj (Option.some.inj (hm3.symm.trans hs))).1
    rw [← List.forall₂_map_left_iff, List.forall₂_eq_eq_eq] at hall'
    exact hall'.symm
  · intro heq
    refine ⟨_, m1, hm1, ?_⟩
    rw [heq]
    exact List.forall₂_map_right_iff.mpr (List.forall₂_same.mpr fun k _ => hfind k)

def leftmost : Env 16 := plain (fun _ => 0) HashOrder.stored

/-- Two keys with values of sixteen bytes; the first stays above the second. -/
def fullCalls : List (Call 16) :=
  [.insert (keyOf 2) (List.replicate 16 120), .insert (keyOf 1) (List.replicate 16 121)]

theorem batchSearch_agrees_full : ∃ s,
    run (call leftmost 7) ([], OMAP.init (depthOf 4) (maxHeightOfAVLTree 4)) fullCalls = some s ∧
    (∃ V t, Stored leftmost V t s.2 ∧ ∀ ks, BatchAgrees leftmost 7 s.2 ks ↔ Aligned t ks) ∧
    BatchAgrees leftmost 7 s.2 [keyOf 2, keyOf 1] ∧
    ¬ BatchAgrees leftmost 7 s.2 [keyOf 1, keyOf 2] := by
  obtain ⟨s, hs, hreached⟩ := run_reached 4 (fun _ => 0) (fun _ => by decide)
    HashOrder.stored 7 (by decide) fullCalls (by decide) (heightOk_of_length (by decide))
  replace hs : run (call leftmost 7) ([], OMAP.init (depthOf 4) (maxHeightOfAVLTree 4)) fullCalls =
    some s := hs
  have hbatch : ∀ (ks : List (Bid 16)) {b : List Str},
      (run (call leftmost 7) ([], OMAP.init (depthOf 4) (maxHeightOfAVLTree 4)) fullCalls).bind
        (fun s => (OMAP.batchSearch leftmost 7 ks s.2).map Prod.fst) = some b →
      ∃ m', OMAP.batchSearch leftmost 7 ks s.2 = some (b, m') := fun ks b h => by
    rw [hs, Option.bind_some] at h
    obtain ⟨⟨_, m'⟩, hm', rfl⟩ := Option.map_eq_some_iff.mp h
    exact ⟨m', hm'⟩
  have hfind : ∀ {k : Bid 16} {b : Str},
      (run (call leftmost 7) ([], OMAP.init (depthOf 4) (maxHeightOfAVLTree 4)) fullCalls).bind
        (fun s => (OMAP.find leftmost 7 k s.2).map Prod.fst) = some b →
      ∃ m', OMAP.find leftmost 7 k s.2 = some (b, m') := fun h => by
    rw [hs, Option.bind_some] at h
    obtain ⟨⟨_, m'⟩, hm', rfl⟩ := Option.map_eq_some_iff.mp h
    exact ⟨m', hm'⟩
  have h2 := hfind (k := keyOf 2) (b := List.replicate 16 120) (by decide +kernel)
  have h1 := hfind (k := keyOf 1) (b := List.replicate 16 121) (by decide +kernel)
  refine ⟨s, hs, batchSearch_agrees_iff 4 (by decide) (fun _ => 0) (fun _ => by decide)
    HashOrder.stored 7 (by decide) s.2 hreached, ?_, ?_⟩
  · obtain ⟨m', hm'⟩ := hbatch [keyOf 2, keyOf 1]
      (b := [List.replicate 16 120, List.replicate 16 121]) (by decide +kernel)
    exact ⟨_, m', hm', .cons h2 (.cons h1 .nil)⟩
  · rintro ⟨res, m', hres, hall⟩
    obtain ⟨m1, hm1⟩ := hbatch [keyOf 1, keyOf 2]
      (b := [List.replicate 16 120, List.replicate 16 121]) (by decide +kernel)
    obtain ⟨rfl, -⟩ := Prod.mk.inj (Option.some.inj (hm1.symm.trans hres))
    obtain ⟨⟨m2, hm2⟩, -⟩ := List.forall₂_cons.mp hall
    obtain ⟨m3, hm3⟩ := h1
    have := (Prod.mk.inj (Option.some.inj (hm2.symm.trans hm3))).1
    revert this
    decide

/-- With one short value stored, `batchSearch` returns its zero bytes too, and nothing for an
absent key. -/
theorem batchSearch_disagrees : ∃ m,
    OMAP.insert leftmost 7 (keyOf 1) [120] (OMAP.init (depthOf 4) (maxHeightOfAVLTree 4)) =
      some m ∧ Reached leftmost 4 7 m ∧
    (OMAP.find leftmost 7 (keyOf 1) m).map Prod.fst = some [120] ∧
    (OMAP.batchSearch leftmost 7 [keyOf 1] m).map Prod.fst = some [120 :: List.replicate 15 0] ∧
    (OMAP.batchSearch leftmost 7 [keyOf 2] m).map Prod.fst = some [] ∧
    ¬ BatchAgrees leftmost 7 m [keyOf 1] ∧ ¬ BatchAgrees leftmost 7 m [keyOf 2] := by
  obtain ⟨m, hm, hreached⟩ : ∃ m, OMAP.insert leftmost 7 (keyOf 1) [120]
      (OMAP.init (depthOf 4) (maxHeightOfAVLTree 4)) = some m ∧ Reached leftmost 4 7 m := by
    obtain ⟨s, hs, hreached⟩ := run_reached 4 (fun _ => 0) (fun _ => by decide)
      HashOrder.stored 7 (by decide) [.insert (keyOf 1) [120]] (by decide)
      (heightOk_of_length (by decide))
    obtain ⟨m, hm, rfl⟩ := Option.map_eq_some_iff.mp
      (show call leftmost 7 _ (.insert (keyOf 1) [120]) = some s by simpa using! hs)
    exact ⟨m, hm, hreached⟩
  have after : ∀ {β : Type} (g : OMAP 16 → Option β) (b : β),
      (OMAP.insert leftmost 7 (keyOf 1) [120]
        (OMAP.init (depthOf 4) (maxHeightOfAVLTree 4))).bind g = some b → g m = some b :=
    fun g b h => by rwa [hm, Option.bind_some] at h
  have hfind := after (fun m => (OMAP.find leftmost 7 (keyOf 1) m).map Prod.fst) [120]
    (by decide +kernel)
  have hshort := after (fun m => (OMAP.batchSearch leftmost 7 [keyOf 1] m).map Prod.fst)
    [120 :: List.replicate 15 0] (by decide +kernel)
  have habsent := after (fun m => (OMAP.batchSearch leftmost 7 [keyOf 2] m).map Prod.fst) []
    (by decide +kernel)
  refine ⟨m, hm, hreached, hfind, hshort, habsent, ?_, ?_⟩
  · rintro ⟨res, m', hres, hall⟩
    obtain rfl : res = [120 :: List.replicate 15 0] := by simpa [hres] using hshort
    obtain ⟨⟨m2, hm2⟩, -⟩ := List.forall₂_cons.mp hall
    simp [hm2] at hfind
  · rintro ⟨res, m', hres, hall⟩
    obtain rfl : res = [] := by simpa [hres] using habsent
    simp at hall

end SmallClientSSE.Omap
