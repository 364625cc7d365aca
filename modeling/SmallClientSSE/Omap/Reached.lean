import SmallClientSSE.Omap.CountUp

/-!
# Reachable states

`Reached` collects the states that loading, insertions, searches and counter updates
lead to while no stored node is higher than the position updates of `finilize` go. Such
an OMAP stores a balanced search tree within that height (`Reached.within`), and every
run of calls whose trees stay within it leads to one (`run_reached`).
-/

namespace SmallClientSSE.Omap

open Lib ORAM BinaryTree

variable {n : Nat}

/-- No stored node is higher than the position updates of `finilize` go. -/
def Low (E : Env n) (m : OMAP n) : Prop :=
  ∀ nd p, real E nd.key = true → Sits m.oram nd p → nd.height ≤ m.oram.maxHeightOfAVLTree

/-- A key whose text, if it has one, can be counted up. -/
def Countable (m : OMAP n) (key : Bid n) : Prop :=
  ∀ nd p, Sits m.oram nd p → nd.key = key → ∃ a b : Int, nd.value = Buf.zero.copyStr (pairStr a b) ∧
    0 ≤ a ∧ 0 ≤ b ∧ a + 1 < 2 ^ 31 ∧ (pairStr (a + 1) b).length ≤ 16

/-- The states of an OMAP for `maxSize`: loaded or not, after any operations that stay within
the height that the position updates cover. -/
inductive Reached (E : Env n) (maxSize fuel : Nat) : OMAP n → Prop where
  | fresh : Reached E maxSize fuel (OMAP.init (depthOf maxSize) (maxHeightOfAVLTree maxSize))
  | setupInsert {S : PosSort (nodes E)} {l : List (Bid n × Str)} {m : OMAP n} : Ascending l →
      (∀ p ∈ l, p.1.isZero = false ∧ p.2.length ≤ 16) → l.length ≤ blockCount (depthOf maxSize) →
      OMAP.setupInsert E S l (OMAP.init (depthOf maxSize) (maxHeightOfAVLTree maxSize)) = some m →
      Reached E maxSize fuel m
  | insert {m m' : OMAP n} {key : Bid n} {value : Str} : Reached E maxSize fuel m →
      key.isZero = false → value.length ≤ 16 → OMAP.insert E fuel key value m = some m' →
      Low E m' → Reached E maxSize fuel m'
  | find {m m' : OMAP n} {key : Bid n} {res : Str} : Reached E maxSize fuel m →
      OMAP.find E fuel key m = some (res, m') → Reached E maxSize fuel m'
  | batchSearch {m m' : OMAP n} {ks : List (Bid n)} {res : List Str} : Reached E maxSize fuel m →
      OMAP.batchSearch E fuel ks m = some (res, m') → Reached E maxSize fuel m'
  | incrementFileCnt {m m' : OMAP n} {key : Bid n} {res : Str} : Reached E maxSize fuel m →
      key.isZero = false → Countable m key → OMAP.incrementFileCnt E fuel key m = some (res, m') →
      Low E m' → Reached E maxSize fuel m'

/-- A tree within the height, in an OMAP for `maxSize`. -/
def Within (E : Env n) (maxSize : Nat) (m : OMAP n) : Prop :=
  ∃ V t, Stored E V t m ∧ t.height ≤ maxHeightOfAVLTree maxSize ∧
    m.oram.depth = depthOf maxSize ∧ m.oram.maxHeightOfAVLTree = maxHeightOfAVLTree maxSize

section

variable {E : Env n} {V : Bid n → Option (Node n)} {t : Tree n} {m m' : OMAP n} {key : Bid n}
  {value res : Str} {l : List (Bid n × Str)} {maxSize fuel : Nat}

theorem init_within (E : Env n) (maxSize : Nat) :
    Within E maxSize (OMAP.init (depthOf maxSize) (maxHeightOfAVLTree maxSize)) :=
  ⟨_, _, init_stored _ _ _, Nat.zero_le _, rfl, rfl⟩

theorem size_le_maxHeight {l : Nat} (hsize : l ≤ blockCount (depthOf maxSize)) :
    Nat.size l ≤ maxHeightOfAVLTree maxSize := by
  rw [Nat.size_le, maxHeightOfAVLTree_eq]
  have := Nat.one_le_two_pow (n := depthOf maxSize)
  unfold blockCount Z at hsize
  simp only [pow_succ] at hsize ⊢
  omega

theorem depthOf_le (hint : maxSize < 2 ^ 31) : depthOf maxSize ≤ 31 := by
  have h1 := Nat.log_mono_right (b := 2) (Nat.div_le_self maxSize Z)
  have h2 := Nat.log_lt_of_lt_pow' (b := 2) (by decide) hint
  exact h1.trans h2.le

/-! ## Heights -/

theorem Low.root (hlow : Low E m) (hrest : Rest E V m.oram)
    (hroot : ∃ k nd, V k = some nd ∧ nd.height = t.height) :
    t.height ≤ m.oram.maxHeightOfAVLTree := by
  obtain ⟨k, nd, hV, htop⟩ := hroot
  obtain ⟨p, hsits, rfl⟩ := hrest.sits hV
  exact htop ▸ hlow nd p (hrest.keeps.proper hV).2 hsits

theorem height_le {id : Bid n} {pos : Int} (hr : Repr V id pos t) (hok : AVL.Ok t) {k : Bid n}
    (hk : k ∈ keys t) {nd : Node n} (hV : V k = some nd) : nd.height ≤ AVL.height t := by
  induction t generalizing id pos with
  | nil => cases hk
  | node e l r ihl ihr =>
    obtain ⟨he, -, -, hokl, hokr⟩ := hok
    obtain ⟨md, hVd, -, rfl, hl, hrr⟩ := hr
    replace he : md.height = max (AVL.height l) (AVL.height r) + 1 := he
    show nd.height ≤ md.height
    rw [keys_node, List.mem_append, List.mem_cons] at hk
    rcases hk with hk | rfl | hk
    · have := ihl hl hokl hk
      omega
    · rw [Option.some.inj (hVd.symm.trans hV)]
    · have := ihr hrr hokr hk
      omega

theorem Stored.node_height {maxHeight : Nat} (h : Stored E V t m) (hH : t.height ≤ maxHeight)
    {nd : Node n} {p : Option Int} (hreal : real E nd.key = true) (hsits : Sits m.oram nd p) :
    nd.height ≤ maxHeight := by
  have hV := h.rest.of_sits hreal hsits
  have hk := h.dom nd.key (by simp [hV])
  have ht : t ≠ .nil := by
    rintro rfl
    cases hk
  have := height_le (h.rooted.repr ht) h.ok hk hV
  exact this.trans (h.ok.height_eq ▸ hH)

theorem Stored.low (h : Stored E V t m) (hH : t.height ≤ m.oram.maxHeightOfAVLTree) : Low E m :=
  fun _ _ hreal hsits => h.node_height hH hreal hsits

theorem Countable.text (hc : Countable m key) (h : Stored E V t m) (hk : key ∈ keys t) :
    ∃ a b : Int, valueOf key (AVL.pairs t) = some (Buf.zero.copyStr (pairStr a b)) ∧ 0 ≤ a ∧ 0 ≤ b ∧
      a + 1 < 2 ^ 31 ∧ (pairStr (a + 1) b).length ≤ 16 := by
  obtain ⟨v, hmem, hv⟩ := exists_valueOf hk
  have ht : t ≠ .nil := by
    rintro rfl
    cases hk
  obtain ⟨nd, hV, rfl⟩ := (h.rooted.repr ht).holds hmem
  obtain ⟨p, hsits, hkey⟩ := h.rest.sits hV
  obtain ⟨a, b, hnd, hab⟩ := hc nd p hsits hkey
  exact ⟨a, b, by rw [hv, hnd], hab⟩

/-! ## The operations -/

variable (hlive : ∀ k, E.live k = true) (htape : ∀ i, Leaf (depthOf maxSize) (E.tape i))

include hlive htape

theorem setupInsert_within {S : PosSort (nodes E)} (hl : Ascending l)
    (hkeys : ∀ p ∈ l, p.1.isZero = false) (hsize : l.length ≤ blockCount (depthOf maxSize))
    (hm : OMAP.setupInsert E S l
      (OMAP.init (depthOf maxSize) (maxHeightOfAVLTree maxSize)) = some m) : Within E maxSize m := by
  obtain ⟨V, t, m', hm', hst, -, hheight, hd, hmh⟩ := OMAP.setupInsert_spec S (depthOf maxSize)
    (maxHeightOfAVLTree maxSize) hl (fun p hp => by simp [real, hlive, hkeys p hp]) htape
  obtain rfl := Option.some.inj (hm'.symm.trans hm)
  refine ⟨V, t, hst, ?_, hd, hmh⟩
  rw [← hst.ok.height_eq, hheight]
  exact size_le_maxHeight hsize

variable (hfuel : maxHeightOfAVLTree maxSize < fuel) (h : Within E maxSize m)

include hfuel h

theorem Within.insert (hkey : key.isZero = false) (hv : value.length ≤ 16)
    (hins : OMAP.insert E fuel key value m = some m') (hlow : Low E m') : Within E maxSize m' := by
  obtain ⟨V, t, hst, hht, hd, hmh⟩ := h
  obtain ⟨u, hu, hok, -⟩ := AVL.insert_ok key (Buf.zero.copyStr value) hst.ok
  obtain ⟨V', m2, hm2, hrest, hroot, hst', hset, -⟩ :=
    insert_refines hlive (hd ▸ htape) key hv hkey (lt_of_le_of_lt hht hfuel) hst hu
  obtain rfl := Option.some.inj (hm2.symm.trans hins)
  have hle := hlow.root hrest hroot
  rw [hset.2] at hle
  exact ⟨V', u, hst' (.inl hle), hmh ▸ hle, hset.1.trans hd, hset.2.trans hmh⟩

theorem Within.find (hfind : OMAP.find E fuel key m = some (res, m')) : Within E maxSize m' := by
  obtain ⟨V, t, hst, hht, hd, hmh⟩ := h
  obtain ⟨V', m2, hm2, hst', -, hset, -⟩ := find_spec hlive (hd ▸ htape) key
    (lt_of_le_of_lt hht hfuel) hst (.inl (hmh ▸ hht))
  obtain rfl := (Prod.mk.inj (Option.some.inj (hm2.symm.trans hfind))).2
  exact ⟨V', t, hst', hht, hset.1.trans hd, hset.2.trans hmh⟩

theorem Within.batchSearch {ks : List (Bid n)} {res : List Str}
    (hbatch : OMAP.batchSearch E fuel ks m = some (res, m')) : Within E maxSize m' := by
  obtain ⟨V, t, hst, hht, hd, hmh⟩ := h
  obtain ⟨V', m2, hm2, hst', hset⟩ := OMAP.batchSearch_spec hlive (hd ▸ htape)
    (lt_of_le_of_lt hht hfuel) hst (.inl (hmh ▸ hht)) ks
  obtain rfl := (Prod.mk.inj (Option.some.inj (hm2.symm.trans hbatch))).2
  exact ⟨V', t, hst', hht, hset.1.trans hd, hset.2.trans hmh⟩

theorem Within.incrementFileCnt (hsize : depthOf maxSize ≤ 31) (hkey : key.isZero = false)
    (hc : Countable m key) (hinc : OMAP.incrementFileCnt E fuel key m = some (res, m'))
    (hlow : Low E m') : Within E maxSize m' := by
  obtain ⟨V, t, hst, hht, hd, hmh⟩ := h
  by_cases hk : key ∈ keys t
  · obtain ⟨a, b, hval, ha, hb, ha', hfit⟩ := hc.text hst hk
    obtain ⟨V', m2, hm2, hst', hset, -⟩ := incrementFileCnt_turn (hd ▸ htape)
      (lt_of_le_of_lt hht hfuel) hst (.inl (hmh ▸ hht)) hval
      (incrementFirst_turns ha hb ha' hfit (hd ▸ hsize))
    obtain rfl := (Prod.mk.inj (Option.some.inj (hm2.symm.trans hinc))).2
    refine ⟨V', _, hst', ?_, hset.1.trans hd, hset.2.trans hmh⟩
    rwa [← hst'.ok.height_eq, AVL.height_setValue, hst.ok.height_eq]
  · obtain ⟨u, hu, -⟩ := AVL.insert_ok key (Buf.zero.copyStr (pairStr 1 0)) hst.ok
    obtain ⟨V', m2, hm2, hrest, hroot, hst', hset, -⟩ := incrementFileCnt_absent (hd ▸ htape)
      (lt_of_le_of_lt hht hfuel) hst hk (by simp [real, hlive, hkey]) hu
    obtain rfl := (Prod.mk.inj (Option.some.inj (hm2.symm.trans hinc))).2
    have hle := hlow.root hrest hroot
    rw [hset.2] at hle
    exact ⟨V', u, hst' (.inl hle), hmh ▸ hle, hset.1.trans hd, hset.2.trans hmh⟩

end

section

variable {tape : Nat → Int} {order : HashOrder} {maxSize fuel : Nat} {m : OMAP n}
  (htape : ∀ i, Leaf (depthOf maxSize) (tape i)) (hfuel : maxHeightOfAVLTree maxSize < fuel)

include htape hfuel

/-- **A reachable OMAP** stores a tree within the height. -/
theorem Reached.within (hint : maxSize < 2 ^ 31)
    (hm : Reached (plain tape order) maxSize fuel m) : Within (plain tape order) maxSize m := by
  have hlive : ∀ k, (plain tape order : Env n).live k = true := fun _ => rfl
  induction hm with
  | fresh => exact init_within _ _
  | setupInsert hl hfit hsize hm =>
    exact setupInsert_within hlive htape hl (fun p hp => (hfit p hp).1) hsize hm
  | insert _ hkey hv hins hlow ih => exact ih.insert hlive htape hfuel hkey hv hins hlow
  | find _ hfind ih => exact ih.find hlive htape hfuel hfind
  | batchSearch _ hbatch ih => exact ih.batchSearch hlive htape hfuel hbatch
  | incrementFileCnt _ hkey hc hinc hlow ih =>
    exact ih.incrementFileCnt hlive htape hfuel (depthOf_le hint) hkey hc hinc hlow

end

/-- **A run of calls** leads to a reachable OMAP when its trees stay within the height. -/
theorem run_reached (maxSize : Nat) (tape : Nat → Int)
    (htape : ∀ i, Leaf (depthOf maxSize) (tape i)) (order : HashOrder) (fuel : Nat)
    (hfuel : maxHeightOfAVLTree maxSize < fuel) (calls : List (Call n)) (hok : ∀ c ∈ calls, CallOk c)
    (hheight : HeightOk (maxHeightOfAVLTree maxSize) calls) :
    ∃ s, run (call (plain tape order) fuel)
        ([], OMAP.init (depthOf maxSize) (maxHeightOfAVLTree maxSize)) calls = some s ∧
      Reached (plain tape order) maxSize fuel s.2 := by
  refine run_inv (f := call (plain tape order) fuel)
    (s := ([], OMAP.init (depthOf maxSize) (maxHeightOfAVLTree maxSize))) (l := calls)
    (fun _ s => Reached (plain tape order) maxSize fuel s.2) .fresh
    fun pre c s hpre hrun hreached => ?_
  have hheight' : HeightOk (maxHeightOfAVLTree maxSize) (pre ++ [c]) := fun pre' hpre' =>
    hheight pre' (hpre'.trans hpre)
  obtain ⟨s', hs', V, u, h, hbuilt, -, hmh⟩ := run_agrees maxSize tape htape order fuel hfuel
    (pre ++ [c]) (fun c' hc' => hok c' (hpre.subset hc')) hheight'
  obtain ⟨s1, hs1, hstep⟩ := run_split hs'
  obtain rfl := Option.some.inj (hrun.symm.trans hs1)
  have hcall : call (plain tape order) fuel s c = some s' := by simpa using hstep
  refine ⟨s', hcall, ?_⟩
  cases c with
  | insert key value =>
    obtain ⟨hkey, -, hlen⟩ := hok (.insert key value) (hpre.subset (by simp))
    obtain ⟨m', hm', rfl⟩ := Option.map_eq_some_iff.mp hcall
    exact hreached.insert hkey hlen hm'
      (h.stored.low (hmh.symm ▸ hheight' _ (List.prefix_refl _) u hbuilt))
  | find key =>
    obtain ⟨⟨res, m'⟩, hm', rfl⟩ := Option.map_eq_some_iff.mp hcall
    exact hreached.find hm'

end SmallClientSSE.Omap
