import SmallClientSSE.Omap.BatchSearch

/-!
# Padding

`finilize` pads the reads of an operation to `1.45 * depth` or `4.35 * depth`. What an
operation reads without that is the number of leaves among the nodes it looks at, and one
more where a new node lands on a leaf that was read. So the padding hides the keys of a
state exactly when no key makes it read more (`padding_hides_iff`).
-/

namespace SmallClientSSE.Omap

open Lib ORAM BinaryTree

variable {n : Nat}

/-! ## Reads -/

def findReads (P : Bid n → Int) (t : Tree n) (key : Bid n) : Nat := leafCount P (searched key t)

def insertReads (P : Bid n → Int) (t : Tree n) (key : Bid n) : Nat :=
  leafCount P (key :: visited key t) + reread P [] key t

/-- The reads of an increment without padding: of a search, or also of the insertion after it. -/
def countReads (P : Bid n → Int) (t : Tree n) (key : Bid n) : Nat :=
  if key ∈ keys t then findReads P t key else insertReads P t key

section

variable {P : Bid n → Int} {t : Tree n} {key : Bid n} {e : AVL.Entry (Bid n) (Buf 16)} {l r : Tree n}

theorem leafCount_cons_pos (k : Bid n) (ks : List (Bid n)) : 1 ≤ leafCount P (k :: ks) :=
  List.length_pos_of_mem (List.mem_dedup.mpr (List.mem_map_of_mem (List.mem_cons_self (a := k))))

theorem leafCount_one (k : Bid n) (ks : List (Bid n)) (h : ∀ j ∈ ks, j = k) :
    leafCount P (k :: ks) = 1 := by
  rw [show leafCount P (k :: ks) = leafCount P [k] from leafCount_congr fun j => by
    simp only [List.mem_cons, List.not_mem_nil, or_false]
    exact ⟨fun hj => hj.elim id (h j), .inl⟩]
  rfl

theorem findReads_root : findReads P (.node e l r) e.key = 1 :=
  leafCount_one _ _ (by simp)

theorem insertReads_root : insertReads P (.node e l r) e.key = 1 := by
  have hk : e.key ∈ keys (.node e l r : Tree n) := by simp
  rw [insertReads, reread, if_neg fun h => h.1 hk, leafCount_one _ _ fun j hj => ?_]
  simpa [visited] using hj

theorem insertReads_nil (key : Bid n) : insertReads P .nil key = 1 := by
  rw [insertReads, reread, if_neg (by simp [searched]), leafCount_one _ _ (by simp [visited])]

theorem findReads_pos (ht : t ≠ .nil) : 1 ≤ findReads P t key := by
  cases t with
  | nil => exact absurd rfl ht
  | node e l r => exact leafCount_cons_pos _ _

theorem insertReads_pos : 1 ≤ insertReads P t key :=
  (leafCount_cons_pos _ _).trans (Nat.le_add_right _ _)

/-- Padded counts are the same for all keys exactly when none exceeds the padding, where
some key has the least count. -/
theorem padded_iff {ok : Bid n → Prop} {f : Bid n → Option Nat} {reads : Bid n → Nat} {p : Nat}
    (hf : ∀ k, ok k → f k = some (max p (reads k))) (hpos : ∀ k, ok k → 1 ≤ reads k)
    (hone : (∃ k, ok k ∧ reads k = 1) ∨ ∀ k, reads k = 1) :
    (∀ k j, ok k → ok j → f k = f j) ↔ ∀ k, ok k → reads k ≤ max p 1 := by
  constructor
  · intro h k hk
    rcases hone with ⟨j, hj, hj1⟩ | hall
    · have := h k j hk hj
      rw [hf k hk, hf j hj, hj1] at this
      exact (le_max_right _ _).trans (Option.some.inj this).le
    · exact (hall k).le.trans (le_max_right _ _)
  · intro h k j hk hj
    have hmax : ∀ {k}, ok k → max p (reads k) = max p 1 := fun {k} hk => by
      have := h k hk
      have := hpos k hk
      omega
    rw [hf k hk, hf j hj, hmax hk, hmax hj]

end

/-! ## Equal counts -/

theorem Stored.real_root {E : Env n} {V : Bid n → Option (Node n)} {m : OMAP n}
    {e : AVL.Entry (Bid n) (Buf 16)} {l r : Tree n} (h : Stored E V (.node e l r) m) :
    e.key.isZero = false := by
  obtain ⟨nd, hV, -, rfl, -⟩ := h.rooted.repr (by simp)
  exact isZero_of_real (h.rest.keeps.proper hV).2

def fetches {α : Type} (r : Option (α × OMAP n)) : Option Nat := r.map fun r => r.2.oram.readCnt

def insertFetches (r : Option (OMAP n)) : Option Nat := r.map fun m => m.oram.readCnt

/-- Any two keys make a search fetch as many paths. -/
def FindHides (E : Env n) (fuel : Nat) (m : OMAP n) : Prop :=
  ∀ k j, fetches (OMAP.find E fuel k m) = fetches (OMAP.find E fuel j m)

/-- Any two keys make an insertion of a value fetch as many paths. -/
def InsertHides (E : Env n) (fuel : Nat) (value : Str) (m : OMAP n) : Prop :=
  ∀ k j : Bid n, k.isZero = false → j.isZero = false →
    insertFetches (OMAP.insert E fuel k value m) = insertFetches (OMAP.insert E fuel j value m)

/-- Any two keys make a counter update fetch as many paths. -/
def CountHides (E : Env n) (fuel : Nat) (m : OMAP n) : Prop :=
  ∀ k j : Bid n, k.isZero = false → j.isZero = false →
    fetches (OMAP.incrementFileCnt E fuel k m) = fetches (OMAP.incrementFileCnt E fuel j m)

section

variable {E : Env n} {V : Bid n → Option (Node n)} {t : Tree n} {m : OMAP n} {fuel : Nat}
  (hlive : ∀ k, E.live k = true) (htape : ∀ i, Leaf m.oram.depth (E.tape i))
  (hfuel : t.height < fuel) (h : Stored E V t m)

include hlive htape hfuel h

theorem find_padded_iff (hH : t.height ≤ m.oram.maxHeightOfAVLTree ∨ m.oram.depth = 0) :
    FindHides E fuel m ↔
      ∀ k, findReads (places E V m.oram) t k ≤ max (padTo true m.oram.depth) 1 := by
  cases t with
  | nil =>
    obtain ⟨-, hnr⟩ := h.rooted.resolve_left fun h => h.2 rfl
    have hz : m.rootKey.isZero = true := by simpa [real, hlive] using hnr
    refine iff_of_true (fun k j => by simp [OMAP.find, hz]) fun k => ?_
    exact (Nat.zero_le _ : leafCount (places E V m.oram) [] ≤ _)
  | node e l r =>
    have hf : ∀ k, True → fetches (OMAP.find E fuel k m) = some (max (padTo true m.oram.depth)
        (findReads (places E V m.oram) (.node e l r) k)) := fun k _ => by
      obtain ⟨V', m', hm', -, -, -, hc⟩ := find_spec hlive htape k hfuel h hH
      rw [hm']
      exact congrArg some (hc (by simp))
    simpa [FindHides] using padded_iff hf (fun k _ => findReads_pos (by simp))
      (.inl ⟨e.key, trivial, findReads_root⟩)

theorem insert_padded_iff {value : Str} (hv : value.length ≤ 16) :
    InsertHides E fuel value m ↔ ∀ k, k.isZero = false →
      insertReads (places E V m.oram) t k ≤ max (padTo false m.oram.depth) 1 := by
  have hf : ∀ k : Bid n, k.isZero = false → insertFetches (OMAP.insert E fuel k value m) =
      some (max (padTo false m.oram.depth) (insertReads (places E V m.oram) t k)) := fun k hk => by
    obtain ⟨u, hu, -⟩ := AVL.insert_ok k (Buf.zero.copyStr value) h.ok
    obtain ⟨V', m', hm', -, -, -, -, hc⟩ := insert_refines hlive htape k hv hk hfuel h hu
    rw [hm']
    exact congrArg some hc
  refine padded_iff hf (fun k _ => insertReads_pos) ?_
  cases t with
  | nil => exact .inr insertReads_nil
  | node e l r => exact .inl ⟨e.key, (h.real_root), insertReads_root⟩

theorem increment_padded_iff (hH : t.height ≤ m.oram.maxHeightOfAVLTree ∨ m.oram.depth = 0)
    (hd : m.oram.depth ≤ 31) (hc : ∀ k, Countable m k) :
    CountHides E fuel m ↔ ∀ k, k.isZero = false →
      countReads (places E V m.oram) t k ≤ max (padTo true m.oram.depth) 1 := by
  have hf : ∀ k : Bid n, k.isZero = false → fetches (OMAP.incrementFileCnt E fuel k m) =
      some (max (padTo true m.oram.depth) (countReads (places E V m.oram) t k)) := fun k hkey => by
    by_cases hk : k ∈ keys t
    · obtain ⟨a, b, hval, ha, hb, ha', hfit⟩ := (hc k).text h hk
      obtain ⟨V', m', hm', -, -, hcnt⟩ := incrementFileCnt_turn htape hfuel h hH hval
        (incrementFirst_turns ha hb ha' hfit hd)
      rw [hm', countReads, if_pos hk]
      exact congrArg some hcnt
    · obtain ⟨u, hu, -⟩ := AVL.insert_ok k (Buf.zero.copyStr (pairStr 1 0)) h.ok
      obtain ⟨V', m', hm', -, -, -, -, hcnt⟩ := incrementFileCnt_absent htape hfuel h hk
        (by simp [real, hlive, hkey]) hu
      rw [hm', countReads, if_neg hk]
      exact congrArg some hcnt
  refine padded_iff hf (fun k _ => ?_) ?_
  · rw [countReads]
    split
    · next hk => exact findReads_pos (by rintro rfl; cases hk)
    · exact insertReads_pos
  · cases t with
    | nil => exact .inr fun k => by rw [countReads, if_neg (by simp), insertReads_nil]
    | node e l r =>
      exact .inl ⟨e.key, h.real_root, by rw [countReads, if_pos (by simp), findReads_root]⟩

end

/-- **Padding hides the keys** of a reachable state from the number of fetches exactly when no
key makes an operation read more leaves than it is padded to. -/
theorem padding_hides_iff (maxSize : Nat) (hint : maxSize < 2 ^ 31) (tape : Nat → Int)
    (htape : ∀ i, Leaf (depthOf maxSize) (tape i)) (order : HashOrder) (fuel : Nat)
    (hfuel : maxHeightOfAVLTree maxSize < fuel) (m : OMAP n)
    (hm : Reached (plain tape order) maxSize fuel m) :
    let E := plain tape order
    ∃ V t, Stored E V t m ∧
      (FindHides E fuel m ↔
        ∀ k, findReads (places E V m.oram) t k ≤ max (padTo true (depthOf maxSize)) 1) ∧
      (∀ value : Str, value.length ≤ 16 → (InsertHides E fuel value m ↔ ∀ k, k.isZero = false →
        insertReads (places E V m.oram) t k ≤ max (padTo false (depthOf maxSize)) 1)) ∧
      ((∀ k, Countable m k) → (CountHides E fuel m ↔ ∀ k, k.isZero = false →
        countReads (places E V m.oram) t k ≤ max (padTo true (depthOf maxSize)) 1)) := by
  obtain ⟨V, t, h, hht, hd, hmh⟩ := hm.within htape hfuel hint
  have hlive : ∀ k, (plain tape order : Env n).live k = true := fun _ => rfl
  have hfuel' := lt_of_le_of_lt hht hfuel
  have hsize := depthOf_le hint
  rw [← hd] at htape hsize ⊢
  rw [← hmh] at hht
  exact ⟨V, t, h, find_padded_iff hlive htape hfuel' h (.inl hht),
    fun _ hv => insert_padded_iff hlive htape hfuel' h hv,
    increment_padded_iff hlive htape hfuel' h (.inl hht) hsize⟩

/-- The leaf `0` for the insertions of eight keys, and `1`, `2` and `3` for a search each. -/
def spread : Env 16 :=
  plain (fun i => if i < 100 then 0 else if i < 105 then 1 else if i < 109 then 2 else 3)
    HashOrder.stored

theorem leaf_spread (i : Nat) : Leaf (depthOf 16) (spread.tape i) := by
  show Leaf (depthOf 16) (if i < 100 then 0 else if i < 105 then 1 else if i < 109 then 2 else 3)
  split_ifs <;> decide

/-- Eight keys, inserted in their order, and searches down to the last key but one. -/
def spreadCalls : List (Call 16) :=
  ([1, 2, 3, 4, 5, 6, 7, 8].map fun k => .insert (keyOf k) [49, dash, 48]) ++
    [7, 6, 4].map fun k => .find (keyOf k)

theorem spread_reached : ∃ s,
    run (call spread 7) ([], OMAP.init (depthOf 16) (maxHeightOfAVLTree 16)) spreadCalls = some s ∧
      Reached spread 16 7 s.2 ∧ fetches (OMAP.find spread 7 (keyOf 1) s.2) = some 3 ∧
      fetches (OMAP.find spread 7 (keyOf 8) s.2) = some 4 := by
  obtain ⟨s, hs, hreached⟩ := run_reached 16 _ leaf_spread HashOrder.stored 7 (by decide)
    spreadCalls (by decide) (heightOk_of_inits (by decide +kernel))
  have hfetch : (run (call spread 7) ([], OMAP.init (depthOf 16) (maxHeightOfAVLTree 16))
      spreadCalls).map (fun s => [fetches (OMAP.find spread 7 (keyOf 1) s.2),
        fetches (OMAP.find spread 7 (keyOf 8) s.2)]) = some [some 3, some 4] := by decide +kernel
  rw [show run (call spread 7) _ spreadCalls = some s from hs, Option.map_some,
    Option.some.injEq] at hfetch
  obtain ⟨h1, h⟩ := List.cons.inj hfetch
  exact ⟨s, hs, hreached, h1, (List.cons.inj h).1⟩

theorem padding_hides_spread : ∃ s,
    run (call spread 7) ([], OMAP.init (depthOf 16) (maxHeightOfAVLTree 16)) spreadCalls = some s ∧
      ∃ V t, Stored spread V t s.2 ∧
        (∃ k, max (padTo true (depthOf 16)) 1 < findReads (places spread V s.2.oram) t k) ∧
        (InsertHides spread 7 [49, dash, 48] s.2 ↔ ∀ k, k.isZero = false →
          insertReads (places spread V s.2.oram) t k ≤ max (padTo false (depthOf 16)) 1) := by
  obtain ⟨s, hs, hreached, h1, h8⟩ := spread_reached
  obtain ⟨V, t, hst, hfind, hinsert, -⟩ := padding_hides_iff 16 (by decide) _ leaf_spread
    HashOrder.stored 7 (by decide) s.2 hreached
  refine ⟨s, hs, V, t, hst, ?_, hinsert _ (by decide)⟩
  by_contra hall
  have : fetches (OMAP.find spread 7 (keyOf 1) s.2) = fetches (OMAP.find spread 7 (keyOf 8) s.2) :=
    hfind.mpr (fun k => not_lt.mp fun hk => hall ⟨k, hk⟩) _ _
  rw [h1, h8] at this
  cases this

/-- The last key is four leaves away from the root, and searches are padded to three reads. -/
theorem find_shows_key : ∃ s,
    run (call spread 7) ([], OMAP.init (depthOf 16) (maxHeightOfAVLTree 16)) spreadCalls = some s ∧
      Reached spread 16 7 s.2 ∧ fetches (OMAP.find spread 7 (keyOf 1) s.2) = some 3 ∧
      fetches (OMAP.find spread 7 (keyOf 8) s.2) = some 4 ∧ ¬ FindHides spread 7 s.2 := by
  obtain ⟨s, hs, hreached, h1, h8⟩ := spread_reached
  refine ⟨s, hs, hreached, h1, h8, fun hall => ?_⟩
  have := hall (keyOf 1) (keyOf 8)
  rw [h1, h8] at this
  cases this

end SmallClientSSE.Omap
