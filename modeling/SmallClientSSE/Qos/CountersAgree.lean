import SmallClientSSE.Qos.Counters

/-!
# The two counters of the QOS client

A call does the same to `LOcnt` and to the tree of `Ocnt` (`count_step`), unless it
inserts a keyword below the root: then `Ocnt` counts `src_cnt` up (`count_below`).
-/

namespace SmallClientSSE.Qos

open Lib BinaryTree Omap Omap.ORAM

section

variable {E : Omap.Env 16} {L L' : Str → Option Str} {V : Bid 16 → Option (Node 16)}
  {t t' : Tree 16} {m : OMAP 16} {w : Str} {a b : Int} {fuel : Nat} {c : Count} {out : List Int}

theorem Paired.find (h : Paired E L V t m) (hw : IsKey w)
    (hlen : ∀ text, L w = some text → text.length ≤ 16) :
    (contents t).find (Bid.ofStr w) = (L w).getD [] := by
  rw [FMap.find, contents, h.same w hw, Option.map_map]
  cases hLw : L w with
  | none => rfl
  | some text =>
    obtain ⟨a, b, -, -, rfl⟩ := h.texts w text hLw
    exact Buf.cstr_copyStr (nulFree_pairStr a b) (hlen _ hLw)

theorem Paired.value (h : Paired E L V t m) (hw : IsKey w) (hLw : L w = some (pairStr a b)) :
    valueOf (Bid.ofStr w) (AVL.pairs t) = some (Buf.zero.copyStr (pairStr a b)) := by
  rw [h.same w hw, hLw]
  rfl

theorem Paired.notMem (h : Paired E L V t m) (hw : IsKey w) (hLw : L w = none) :
    Bid.ofStr w ∉ keys t := fun hk => by
  obtain ⟨v, -, hv⟩ := exists_valueOf hk
  rw [h.same w hw, hLw] at hv
  cases hv

/-- The root of the tree is the root of the OMAP. -/
theorem Paired.root (h : Paired E L V t m) {key : Bid 16} (hk : key ∈ keys t) :
    AVL.rootKey t = some m.rootKey := by
  cases t with
  | nil => cases hk
  | node e l r =>
    obtain ⟨nd, -, -, rfl, -⟩ := h.stored.rooted.repr (by simp)
    rfl

variable (hlive : ∀ k, E.live k = true) (htape : ∀ i, Leaf m.oram.depth (E.tape i))
  (hfuel : t.height < fuel) (hd : m.oram.depth ≤ 31)
  (hH : t.height ≤ m.oram.maxHeightOfAVLTree ∨ m.oram.depth = 0)

include hlive htape hfuel hd hH

/-- **A call that inserts at the root, if at all.** -/
theorem count_step (h : Paired E L V t m) (hc : IsKey c.keyword)
    (hcall : localCount L c = some (out, L')) (htree : treeCount (L, t) c = some (L', t'))
    (hlen : ∀ w text, L w = some text → text.length ≤ 16)
    (hlen' : ∀ w text, L' w = some text → text.length ≤ 16)
    (hH' : t'.height ≤ m.oram.maxHeightOfAVLTree ∨ m.oram.depth = 0)
    (hroot : ∀ w, c = .insert w → AtRoot t w) :
    ∃ V' m', omapCount E fuel m c = some (out, m') ∧ Paired E L' V' t' m' ∧
      Settings m.oram m'.oram := by
  have hs := h.stored.sorted
  rcases localCount_cases h.texts hcall with ⟨w, rfl, hLw, rfl, rfl⟩ |
    ⟨w, a, b, hLw, ha, hb, hcase⟩
  · -- a new keyword
    have hk : Bid.ofStr w ∉ keys t := h.notMem hc hLw
    have hins : AVL.insert (Bid.ofStr w) (Buf.zero.copyStr (pairStr 0 0)) t = some t' := by
      simpa [treeCount, treeStep, hcall, Option.bind_eq_some_iff] using htree
    obtain ⟨V', m', hm', hs', hset⟩ := incrementAwCnt_absent htape hfuel h.stored hk
      (by simp [real, hlive, isZero_ofStr (w := w) hc.1 hc.2.1]) hins
    refine ⟨V', m', ?_, ⟨hs' hH', h.same.update hc hs hins, h.texts.update ⟨by decide, by decide⟩
      ⟨by decide, by decide⟩⟩, hset⟩
    simp only [omapCount, hm', nextCounters_nil, Option.bind_eq_bind, Option.bind_some,
      Option.pure_def]
  have hshort := hlen w _ hLw
  have hkey : IsKey w := by
    rcases hcase with ⟨rfl, -⟩ | ⟨rfl, -⟩ | ⟨rfl, -⟩
    all_goals exact hc
  have hval := h.value hkey hLw
  have hk := mem_keys_of_valueOf hval
  have hset : ∀ {v : Buf 16}, AVL.insert (Bid.ofStr w) v t = some (AVL.setValue (Bid.ofStr w) v t) :=
    AVL.insert_setValue h.stored.ok hs hk
  have hread := read_padded ha.1 ha.2 hb.1 hb.2 hshort
  rcases hcase with ⟨rfl, hb', rfl, rfl⟩ | ⟨rfl, rfl, rfl⟩ | ⟨rfl, ha', rfl, rfl⟩
  · -- the keyword at the root
    have hfit : (pairStr a (b + 1)).length ≤ 16 := hlen' w _ (Function.update_self ..)
    have hrt : Bid.ofStr w = m.rootKey := by
      have := hroot w rfl hk
      rw [h.root hk] at this
      exact (Option.some.inj this).symm
    obtain ⟨V', m', hm', hs', hsett, -⟩ := incrementAwCnt_turn htape hfuel h.stored hH hval
      (by rw [if_pos hrt]; exact incrementAwCnt_turns ha.1 hb.1 hb' hfit)
    obtain rfl : AVL.setValue (Bid.ofStr w) (Buf.zero.copyStr (pairStr a (b + 1))) t = t' := by
      simpa [treeCount, treeStep, hcall, Option.bind_eq_some_iff, hset] using htree
    refine ⟨V', m', ?_, ⟨hs', h.same.update hkey hs hset, h.texts.update ha ⟨by omega, hb'⟩⟩, hsett⟩
    have hint : int (b + 1) = some (b + 1) := int_eq_some.mpr ⟨⟨by omega, hb'⟩, rfl⟩
    simp only [omapCount, hm', nextCounters_of_parsePair hread, hint, Option.map_some,
      Option.bind_eq_bind, Option.bind_some, Option.pure_def]
  · obtain ⟨V', m', hm', hs', -, hsett, -⟩ := find_spec hlive htape (Bid.ofStr w) hfuel h.stored hH
    obtain rfl : t = t' := by simpa [treeCount, treeStep, hcall] using htree
    refine ⟨V', m', ?_, ⟨hs', h.same, h.texts⟩, hsett⟩
    rw [h.find hkey (hlen w), hLw, Option.getD_some] at hm'
    simp only [omapCount, hm', readSrc_pairStr ha.1 ha.2 hb.1, Option.bind_eq_bind,
      Option.bind_some, Option.pure_def]
  · have hfit : (pairStr (a + 1) b).length ≤ 16 := hlen' w _ (Function.update_self ..)
    obtain ⟨V', m', hm', hs', hsett⟩ := incrementSrcCnt_turn htape hfuel h.stored hH hval
      (incrementFirst_turns ha.1 hb.1 ha' hfit hd)
    obtain rfl : AVL.setValue (Bid.ofStr w) (Buf.zero.copyStr (pairStr (a + 1) b)) t = t' := by
      simpa [treeCount, treeStep, hcall, Option.bind_eq_some_iff, hset] using htree
    refine ⟨V', m', ?_, ⟨hs', h.same.update hkey hs hset, h.texts.update ⟨by omega, ha'⟩ hb⟩, hsett⟩
    have hint : int (a + 1) = some (a + 1) := int_eq_some.mpr ⟨⟨by omega, ha'⟩, rfl⟩
    simp only [omapCount, hm', hread, Option.bind_eq_bind, Option.bind_some, hint, Option.pure_def]

omit hlive in
/-- **An insertion below the root** counts `src_cnt` up. -/
theorem count_below (h : Paired E L V t m) (hw : IsKey w)
    (hcall : localCount L (.insert w) = some (out, L'))
    (hlen : ∀ text, L w = some text → text.length + 1 ≤ 16)
    (hroot : ¬ AtRoot t w) {out' : List Int} {m' : OMAP 16}
    (hcount : omapCount E fuel m (.insert w) = some (out', m')) :
    ∃ V' t', Stored E V' t' m' ∧ t'.height = t.height ∧ Settings m.oram m'.oram ∧
      (contents t').find (Bid.ofStr w) ≠ (L' w).getD [] := by
  have hs := h.stored.sorted
  unfold AtRoot at hroot
  push Not at hroot
  obtain ⟨hk, hrt⟩ := hroot
  have hne : Bid.ofStr w ≠ m.rootKey := fun e => hrt ((h.root hk).trans (congrArg some e.symm))
  rcases localCount_cases h.texts hcall with ⟨v, hv, hLv, -, -⟩ |
    ⟨v, a, b, hLv, ha, hb, ⟨hv, hb', hout, hL'⟩ | ⟨hv, -⟩ | ⟨hv, -⟩⟩
  · obtain rfl := Count.insert.inj hv
    exact absurd hk (h.notMem hw hLv)
  · obtain rfl := Count.insert.inj hv
    have hshort := hlen _ hLv
    have hval := h.value hw hLv
    by_cases ha' : a + 1 < 2 ^ 31
    · have hgrow := length_intStr_succ ha.1
      have hfit : (pairStr (a + 1) b).length ≤ 16 := by
        rw [length_pairStr] at hshort ⊢
        omega
      obtain ⟨V', m1, hm1, hs', hset, -⟩ := incrementAwCnt_turn htape hfuel h.stored hH hval
        (by rw [if_neg hne]; exact incrementFirst_turns ha.1 hb.1 ha' hfit hd)
      simp only [omapCount, hm1, Option.bind_eq_bind, Option.bind_some, Option.bind_eq_some_iff,
        Option.pure_def, Option.some.injEq, Prod.mk.injEq] at hcount
      obtain ⟨-, -, -, rfl⟩ := hcount
      have hins : AVL.insert (Bid.ofStr w) (Buf.zero.copyStr (pairStr (a + 1) b)) t = some
          (AVL.setValue (Bid.ofStr w) (Buf.zero.copyStr (pairStr (a + 1) b)) t) :=
        AVL.insert_setValue h.stored.ok hs hk
      refine ⟨V', _, hs', ?_, hset, fun hfind => ?_⟩
      · rw [← hs'.ok.height_eq, AVL.height_setValue, h.stored.ok.height_eq]
      · rw [FMap.find, contents, AVL.insert_pairs hs hins, valueOf_assign hs, if_pos rfl, hL',
          Function.update_self, Option.map_some, Option.getD_some, Option.getD_some,
          Buf.cstr_copyStr (nulFree_pairStr _ _) hfit] at hfind
        have hparse := parsePair_pairStr (b := b) (show 0 ≤ a + 1 by omega) hb.1 ha' hb.2
        rw [hfind, parsePair_pairStr ha.1 (by omega) ha.2 hb'] at hparse
        have := (Prod.mk.inj (Option.some.inj hparse)).1
        omega
    · -- `stoi(...) + 1` is no `int`
      obtain ⟨nd, hV, hnd⟩ := (h.stored.rooted.repr (by rintro rfl; cases hk)).holds
        (mem_of_valueOf hval)
      have hstuck : OMAP.incrementAwCnt E fuel (Bid.ofStr w) m = none := by
        have hnone : Omap.incrementSrcCnt nd = none := by
          rw [Omap.incrementSrcCnt, incrementFirst_eq ha.1 hb.1 ha.2 hnd (by omega), if_neg ha']
        have hinc := increment_stuck Omap.incrementAwCnt Omap.incrementSrcCnt hk
          (h.stored.start false) hfuel hV (by rw [if_neg hne, hnone])
        dsimp only at hinc
        simp only [OMAP.incrementAwCnt, OMAP.incrementOr, AVLTree.incrementAwCnt, hinc,
          Option.bind_eq_bind, Option.bind_none]
      rw [omapCount, hstuck] at hcount
      cases hcount
  · cases hv
  · cases hv

end

/-! ## Runs -/

/-- `endSetup` for one OMAP: the pairs of its map, and the test pair 1000 times. -/
def loadOmap (E : Omap.Env 16) (S : PosSort (nodes E)) (fuel : Nat) (pairs : List (Bid 16 × Str))
    (m : OMAP 16) : Option (OMAP 16) := do
  let m ← OMAP.setupInsert E S pairs m
  OMAP.insertEach E fuel (List.replicate 1000 testPair) m

/-- The counters at the start: none, or those of the setup, loaded into the OMAP. The tree has the
test pair, too. -/
inductive Begins (E : Omap.Env 16) (S : PosSort (nodes E)) (maxSize fuel : Nat) :
    (Str → Option Str) → Tree 16 → OMAP 16 → Prop where
  | fresh : Begins E S maxSize fuel (fun _ => none) .nil
      (OMAP.init (depthOf maxSize) (maxHeightOfAVLTree maxSize))
  | loaded {setupOcnt : List (Bid 16 × Str)} {V : Bid 16 → Option (Node 16)} {t₀ t : Tree 16}
      {m₀ m : OMAP 16} (ascending : Ascending setupOcnt)
      (keys : ∀ p ∈ setupOcnt, (∃ w, IsKey w ∧ p.1 = Bid.ofStr w) ∧ IsCounters p.2)
      (setupInsert : OMAP.setupInsert E S setupOcnt
        (OMAP.init (depthOf maxSize) (maxHeightOfAVLTree maxSize)) = some m₀)
      (tree : Stored E V t₀ m₀)
      (insert : AVL.insert testPair.1 (Buf.zero.copyStr testPair.2) t₀ = some t)
      (endSetup : loadOmap E S fuel setupOcnt
        (OMAP.init (depthOf maxSize) (maxHeightOfAVLTree maxSize)) = some m) :
      Begins E S maxSize fuel (fun w => valueOf (Bid.ofStr w) setupOcnt) t m

section

variable {E : Omap.Env 16} {S : PosSort (nodes E)} {L : Str → Option Str} {t : Tree 16}
  {m : OMAP 16} {maxSize room fuel : Nat} {calls pre : List Count} {c : Count}

theorem Begins.paired (h : Begins E S maxSize fuel L t m) (hlive : ∀ k, E.live k = true)
    (htape : ∀ i, Leaf (depthOf maxSize) (E.tape i)) (hfuel : t.height < fuel)
    (hH : t.height ≤ maxHeightOfAVLTree maxSize ∨ depthOf maxSize = 0) :
    ∃ V, Paired E L V t m ∧ m.oram.depth = depthOf maxSize ∧
      m.oram.maxHeightOfAVLTree = maxHeightOfAVLTree maxSize := by
  cases h with
  | fresh =>
    exact ⟨_, ⟨init_stored _ _ _, fun _ _ => rfl, fun _ _ h => by cases h⟩, rfl, rfl⟩
  | @loaded l V t₀ t m₀ m hl hkeys hm hs hins hload =>
    have hzero : ∀ p ∈ l, p.1.isZero = false := fun p hp => by
      obtain ⟨⟨w, hw, hp⟩, -⟩ := hkeys p hp
      exact hp ▸ isZero_ofStr hw.1 hw.2.1
    obtain ⟨V₀, u₀, m', hm', hs₀, hpairs, -, hd, hmh⟩ := OMAP.setupInsert_spec S (depthOf maxSize)
      (maxHeightOfAVLTree maxSize) hl (fun p hp => by simp [real, hlive, hzero p hp]) htape
    obtain rfl : m' = m₀ := Option.some.inj (hm'.symm.trans hm)
    obtain ⟨-, rfl⟩ := hs₀.unique hs
    obtain ⟨V', m'', hm'', hs', hd', hmh'⟩ := insertEach_replicate hlive (hd ▸ htape) hs
      (p := testPair) (by decide) (by decide) hins hfuel (by rwa [hd, hmh]) 999
    rw [loadOmap, hm] at hload
    obtain rfl : m'' = m := Option.some.inj (hm''.symm.trans hload)
    refine ⟨V', ⟨hs', fun w hw => ?_, fun w text hw => ?_⟩, hd'.trans hd, hmh'.trans hmh⟩
    · rw [AVL.insert_pairs hs.sorted hins, valueOf_assign hs.sorted,
        if_neg (show Bid.ofStr w ≠ testPair.1 from Bid.ofStr_ne_one hw.1 hw.2.1), hpairs, stored,
        valueOf_map (fun v => Buf.zero.copyStr v)]
    · exact (hkeys _ (mem_of_valueOf hw)).2

/-- The counters of a setup phase can be loaded when the tree stays low enough. -/
theorem exists_loaded {l : List (Bid 16 × Str)} (hlive : ∀ k, E.live k = true)
    (htape : ∀ i, Leaf (depthOf maxSize) (E.tape i)) (hl : Ascending l)
    (hkeys : ∀ p ∈ l, (∃ w, IsKey w ∧ p.1 = Bid.ofStr w) ∧ IsCounters p.2)
    (hfuel : Nat.size l.length + 1 < fuel)
    (hH : Nat.size l.length + 1 ≤ maxHeightOfAVLTree maxSize ∨ depthOf maxSize = 0) :
    ∃ t₀ t m, AVL.pairs t₀ = stored l ∧ AVL.Ok t₀ ∧
      AVL.insert testPair.1 (Buf.zero.copyStr testPair.2) t₀ = some t ∧
      Begins E S maxSize fuel (fun w => valueOf (Bid.ofStr w) l) t m := by
  obtain ⟨V₀, t₀, m₀, hm₀, hs₀, hpairs, hheight, hd, hmh⟩ := OMAP.setupInsert_spec S (depthOf maxSize)
    (maxHeightOfAVLTree maxSize) hl (fun p hp => by
      obtain ⟨⟨w, hw, hp⟩, -⟩ := hkeys p hp
      simp [real, hlive, hp, isZero_ofStr hw.1 hw.2.1]) htape
  obtain ⟨t, ht, hok, -, hle, -⟩ := AVL.insert_ok testPair.1 (Buf.zero.copyStr testPair.2) hs₀.ok
  rw [hheight, hok.height_eq] at hle
  obtain ⟨V', m, hm, -⟩ := insertEach_replicate hlive (hd ▸ htape) hs₀ (p := testPair) (by decide)
    (by decide) ht (lt_of_le_of_lt hle hfuel) (by rw [hd, hmh]; exact hH.imp_left hle.trans) 999
  exact ⟨t₀, t, m, hpairs, hs₀.ok, ht, .loaded hl hkeys hm₀ hs₀ ht (by rw [loadOmap, hm₀]; exact hm)⟩

theorem CountsFit.left {depth maxHeight : Nat} {s : (Str → Option Str) × Tree 16}
    (h : CountsFit room depth maxHeight s calls) (hpre : pre <+: calls) :
    CountsFit room depth maxHeight s pre := fun _ h' => h _ (h'.trans hpre)

theorem InsertsAtRoot.left {s : (Str → Option Str) × Tree 16} (h : InsertsAtRoot s calls)
    (hpre : pre <+: calls) : InsertsAtRoot s pre := fun _ _ _ h' => h _ _ _ (h'.trans hpre)

theorem treeCount_local {s s' : (Str → Option Str) × Tree 16} (h : treeCount s c = some s') :
    ∃ out, localCount s.1 c = some (out, s'.1) := by
  obtain ⟨⟨out, L'⟩, hcall, h⟩ := Option.bind_eq_some_iff.mp h
  obtain ⟨t', -, h⟩ := Option.bind_eq_some_iff.mp h
  rw [Option.pure_def] at h
  obtain rfl := Option.some.inj h
  exact ⟨out, hcall⟩

variable (hlive : ∀ k, E.live k = true) (htape : ∀ i, Leaf (depthOf maxSize) (E.tape i))
  (hd : depthOf maxSize ≤ 31) (hb : Begins E S maxSize fuel L t m)
  (hfuel : ∀ pre s', pre <+: calls → run treeCount (L, t) pre = some s' → s'.2.height < fuel)
  (hkeys : ∀ c ∈ calls, IsKey c.keyword)

include hlive htape hd hb hfuel hkeys

/-- **Both maps after a run** whose insertions are at the root. -/
theorem paired_run
    (hfit : CountsFit 0 (depthOf maxSize) (maxHeightOfAVLTree maxSize) (L, t) calls)
    (hroot : InsertsAtRoot (L, t) calls) :
    ∃ s V u, run (collect (omapCount E fuel)) ([], m) calls = some s ∧
      run treeCount (L, t) calls = some u ∧
      run (collect localCount) ([], L) calls = some (s.1, u.1) ∧ Paired E u.1 V u.2 s.2 ∧
      s.2.oram.depth = depthOf maxSize ∧
      s.2.oram.maxHeightOfAVLTree = maxHeightOfAVLTree maxSize := by
  obtain ⟨s₀, hs₀, -, hheight⟩ := hfit [] (List.nil_prefix ..)
  obtain rfl : (L, t) = s₀ := Option.some.inj hs₀
  obtain ⟨V, hp, hd0, hH0⟩ := hb.paired hlive htape (hfuel [] (L, t) (List.nil_prefix ..) rfl)
    hheight
  obtain ⟨s, hs, V, u, h⟩ := Lib.run_inv (f := collect (omapCount E fuel)) (s := ([], m))
    (l := calls)
    (fun pre s => ∃ V u, run treeCount (L, t) pre = some u ∧
      run (collect localCount) ([], L) pre = some (s.1, u.1) ∧ Paired E u.1 V u.2 s.2 ∧
      s.2.oram.depth = depthOf maxSize ∧
      s.2.oram.maxHeightOfAVLTree = maxHeightOfAVLTree maxSize)
    ⟨V, (L, t), rfl, rfl, hp, hd0, hH0⟩
    fun pre c s hpre _ hI => by
      obtain ⟨V, u, hu, hl, hp, hds, hHs⟩ := hI
      have hpre' := (List.prefix_append pre [c]).trans hpre
      obtain ⟨u1, hu1, hlen, hH⟩ := hfit pre hpre'
      obtain rfl : u1 = u := Option.some.inj (hu1.symm.trans hu)
      obtain ⟨u', hu', hlen', hH'⟩ := hfit _ hpre
      have hstep : treeCount u1 c = some u' := by simpa [run_append, hu] using hu'
      obtain ⟨out, hcall⟩ := treeCount_local hstep
      obtain ⟨V', m', hm', hp', hset⟩ := count_step (c := c) hlive (hds ▸ htape)
        (hfuel pre u1 hpre' hu) (hds ▸ hd) (by rwa [hHs, hds]) hp
        (hkeys c (hpre.subset (by simp))) hcall hstep hlen hlen' (by rwa [hHs, hds])
        fun w hw => hroot pre w u1 (hw ▸ hpre) hu
      refine ⟨(s.1 ++ [out], m'), by simp [collect, hm'], V', u', hu', ?_, hp', hset.1.trans hds,
        hset.2.trans hHs⟩
      refine run_snoc hl ?_
      simp [collect, hcall]
  exact ⟨s, V, u, hs, h⟩

theorem agree_of_root
    (hfit : CountsFit 0 (depthOf maxSize) (maxHeightOfAVLTree maxSize) (L, t) calls)
    (hroot : InsertsAtRoot (L, t) calls) : CountersAgree E fuel L m calls := by
  intro pre hpre
  obtain ⟨s, V, u, hs, hu, hl, hp, hds, hHs⟩ := paired_run hlive htape hd hb
    (fun pre' s' h => hfuel pre' s' (h.trans hpre)) (fun c hc => hkeys c (hpre.subset hc))
    (hfit.left hpre) (hroot.left hpre)
  obtain ⟨u1, hu1, hlen, hH⟩ := hfit pre hpre
  obtain rfl : u1 = u := Option.some.inj (hu1.symm.trans hu)
  refine ⟨s.1, u1.1, s.2, hl, hs, fun w hw => ?_⟩
  obtain ⟨V', m', hm', -⟩ := find_spec hlive (hds ▸ htape) (Bid.ofStr w) (hfuel pre u1 hpre hu)
    hp.stored (by rwa [hHs, hds])
  rw [hm', Option.map_some, hp.find hw (hlen w)]

theorem root_of_agree
    (hfit : CountsFit 1 (depthOf maxSize) (maxHeightOfAVLTree maxSize) (L, t) calls)
    (h : CountersAgree E fuel L m calls) : InsertsAtRoot (L, t) calls := by
  have hfit0 : CountsFit 0 (depthOf maxSize) (maxHeightOfAVLTree maxSize) (L, t) calls := by
    intro pre hpre
    obtain ⟨u, hu, hlen, hH⟩ := hfit pre hpre
    exact ⟨u, hu, fun w text hw => Nat.le_of_succ_le (hlen w text hw), hH⟩
  have hall : ∀ pre, pre <+: calls → InsertsAtRoot (L, t) pre := by
    intro pre
    induction pre using List.reverseRecOn with
    | nil => exact fun _ pre w s' h' => by simp at h'
    | append_singleton pre c ih =>
      intro hpre pre' w s' hpre' hs'
      have hleft := (List.prefix_append pre [c]).trans hpre
      rcases List.prefix_concat_iff.mp hpre' with heq | hshort
      · obtain ⟨rfl, hc⟩ := List.append_inj' heq rfl
        obtain rfl := List.singleton_inj.mp hc
        by_contra hbelow
        obtain ⟨s, V, u, hs, hu, hl, hp, hds, hHs⟩ := paired_run hlive htape hd hb
          (fun pre' s' h => hfuel pre' s' (h.trans hleft)) (fun c hc => hkeys c (hleft.subset hc))
          (hfit0.left hleft) (ih hleft)
        obtain rfl : u = s' := Option.some.inj (hu.symm.trans hs')
        obtain ⟨u1, hu1, hlen, hH⟩ := hfit pre' hleft
        obtain rfl : u1 = u := Option.some.inj (hu1.symm.trans hu)
        have hw : IsKey w := hkeys (.insert w) (hpre.subset (by simp))
        obtain ⟨out, L', m', hl', hm', hfind⟩ := h _ hpre
        obtain ⟨s1, hs1, hlast⟩ := run_split hm'
        obtain rfl := Option.some.inj (hs.symm.trans hs1)
        obtain ⟨l1, hl1, hlast'⟩ := run_split hl'
        obtain rfl := Option.some.inj (hl.symm.trans hl1)
        simp only [run_cons, run_nil, collect, Option.bind_fun_some, Option.map_eq_some_iff]
          at hlast hlast'
        obtain ⟨r, hr, hlast⟩ := hlast
        obtain ⟨r', hr', hlast'⟩ := hlast'
        obtain ⟨-, rfl⟩ := Prod.mk.inj hlast
        obtain ⟨-, rfl⟩ := Prod.mk.inj hlast'
        obtain ⟨V', t', hs', hheight, hset, hne⟩ := count_below (hds ▸ htape)
          (hfuel pre' u1 hleft hu) (hds ▸ hd) (by rwa [hHs, hds]) hp hw hr' (hlen w) hbelow hr
        obtain ⟨V'', m'', hm'', -⟩ := find_spec hlive (hset.1.trans hds ▸ htape) (Bid.ofStr w)
          (hheight ▸ hfuel pre' u1 hleft hu) hs' (by rwa [hheight, hset.1, hset.2, hHs, hds])
        have := hfind w hw
        rw [hm'', Option.map_some] at this
        exact hne (Option.some.inj this)
      · exact ih hleft pre' w s' hshort hs'
  exact hall calls (List.prefix_refl calls)

end

/-- **`Ocnt` counts like `LOcnt`** in every run whose insertions find their keyword new or at the
root of the tree; one that does not, with room for a digit, is counted as a search. -/
theorem ocnt_counts_iff (maxSize : Nat) (hsize : depthOf maxSize ≤ 31) (tape : Nat → Int)
    (htape : ∀ i, Leaf (depthOf maxSize) (tape i)) (order : HashOrder)
    (S : PosSort (nodes (plain tape order))) (L : Str → Option Str) (t : Tree 16) (m : OMAP 16)
    (fuel : Nat) (hb : Begins (plain tape order) S maxSize fuel L t m) (calls : List Count)
    (hkeys : ∀ c ∈ calls, IsKey c.keyword)
    (hfuel : ∀ pre s, pre <+: calls → run treeCount (L, t) pre = some s → s.2.height < fuel) :
    (CountsFit 0 (depthOf maxSize) (maxHeightOfAVLTree maxSize) (L, t) calls →
        InsertsAtRoot (L, t) calls → CountersAgree (plain tape order) fuel L m calls) ∧
      (CountsFit 1 (depthOf maxSize) (maxHeightOfAVLTree maxSize) (L, t) calls →
        CountersAgree (plain tape order) fuel L m calls → InsertsAtRoot (L, t) calls) :=
  ⟨agree_of_root (fun _ => rfl) htape hsize hb hfuel hkeys,
    root_of_agree (fun _ => rfl) htape hsize hb hfuel hkeys⟩

/-- Texts that leave a byte. -/
def Short (L : Str → Option Str) : Prop := ∀ w text, L w = some text → text.length + 1 ≤ 16

theorem Short.update {L : Str → Option Str} {w text : Str} (h : Short L) (ht : text.length + 1 ≤ 16) :
    Short (Function.update L w (some text)) := by
  intro u v hu
  by_cases huw : u = w
  · subst huw
    rw [Function.update_self] at hu
    exact Option.some.inj hu ▸ ht
  · rw [Function.update_of_ne huw] at hu
    exact h u v hu

abbrev countEnv : Omap.Env 16 := plain (fun _ => 0) HashOrder.stored

theorem eq_single {k : Bid 16} {v : Buf 16} {t : Tree 16} (hok : AVL.Ok t)
    (hp : AVL.pairs t = [(k, v)]) : t = .node ⟨k, v, 1⟩ .nil .nil := by
  cases t with
  | nil => cases hp
  | node e l r =>
    have hlen := congrArg List.length hp
    rw [AVL.pairs_node, List.length_append, List.length_cons, List.length_singleton] at hlen
    have hl : AVL.pairs l = [] := List.eq_nil_of_length_eq_zero (by omega)
    have hr : AVL.pairs r = [] := List.eq_nil_of_length_eq_zero (by omega)
    cases l with
    | node => simp [AVL.pairs_node] at hl
    | nil =>
      cases r with
      | node => simp [AVL.pairs_node] at hr
      | nil =>
        obtain ⟨he, -⟩ := hok
        obtain ⟨key, value, height⟩ := e
        obtain ⟨rfl, rfl⟩ := Prod.mk.inj (List.singleton_inj.mp hp)
        obtain rfl : height = 1 := he
        rfl

def setupSample : List (Bid 16 × Str) := [(Bid.ofStr [49], pairStr 0 0)]

def loadedTexts (w : Str) : Option Str := valueOf (Bid.ofStr w) setupSample

def loadedTree : Tree 16 :=
  .node ⟨Bid.ofStr [49], Buf.zero.copyStr (pairStr 0 0), 2⟩
    (.node ⟨testPair.1, Buf.zero.copyStr testPair.2, 1⟩ .nil .nil) .nil

def loadedCounts : List Count := [.insert [49], .insert [50], .search [50], .insert [49]]

theorem loaded_states {pre : List Count} (hpre : pre <+: loadedCounts) :
    ∃ s, run treeCount (loadedTexts, loadedTree) pre = some s ∧ Short s.1 ∧ s.2.height ≤ 2 ∧
      ∀ v, pre ++ [.insert v] <+: loadedCounts → AtRoot s.2 v := by
  have h0 : Short loadedTexts := fun w text h => by
    obtain ⟨-, rfl⟩ := Prod.mk.inj (List.mem_singleton.mp (mem_of_valueOf h))
    decide
  have h1 : Short (Function.update loadedTexts [49] (some (pairStr 0 1))) := h0.update (by decide)
  have h2 : Short (Function.update _ [50] (some (pairStr 0 0))) := h1.update (by decide)
  have h3 : Short (Function.update _ [50] (some (pairStr 1 0))) := h2.update (by decide)
  have h4 : Short (Function.update _ [49] (some (pairStr 0 2))) := h3.update (by decide)
  simp only [loadedCounts, List.prefix_cons_iff, List.prefix_nil] at hpre
  rcases hpre with rfl | ⟨_, rfl, rfl | ⟨_, rfl, rfl | ⟨_, rfl, rfl | ⟨_, rfl, rfl⟩⟩⟩⟩
  · refine ⟨_, rfl, h0, by decide, fun v hv => ?_⟩
    obtain rfl : v = [49] := by simpa [loadedCounts] using hv
    decide
  · refine ⟨_, rfl, h1, by decide, fun v hv => ?_⟩
    have hv' : v = [50] := by simpa [loadedCounts] using hv
    clear hv
    subst hv'
    decide
  · exact ⟨_, rfl, h2, by decide, fun v hv => by simp [loadedCounts] at hv⟩
  · refine ⟨_, rfl, h3, by decide, fun v hv _ => ?_⟩
    have hv' : v = [49] := by simpa [loadedCounts] using hv
    clear hv
    subst hv'
    decide +kernel
  · exact ⟨_, rfl, h4, by decide, fun v hv => by simp [loadedCounts] at hv⟩

/-- `Ocnt` after a setup phase, and a keyword of it that goes on counting. -/
theorem counters_agree_loaded : ∃ m,
    Begins countEnv (.insertion _) 16 6 loadedTexts loadedTree m ∧
      CountersAgree countEnv 6 loadedTexts m loadedCounts := by
  have hkeys : ∀ p ∈ setupSample, (∃ w, IsKey w ∧ p.1 = Bid.ofStr w) ∧ IsCounters p.2 :=
    fun p hp => by
      rw [List.mem_singleton.mp hp]
      exact ⟨⟨[49], by decide, rfl⟩, 0, 0, by decide, by decide, rfl⟩
  obtain ⟨t₀, t, m, hp₀, hok, hins, hb⟩ := exists_loaded (E := countEnv) (S := .insertion _)
    (fun _ => rfl) (fun _ => (by decide : Leaf (depthOf 16) 0)) (List.pairwise_singleton _ _) hkeys
    (by decide : Nat.size 1 + 1 < 6) (by decide)
  rw [eq_single hok hp₀] at hins
  obtain rfl : loadedTree = t := Option.some.inj hins
  refine ⟨m, hb, (ocnt_counts_iff 16 (by decide) (fun _ => 0) (fun _ => by decide)
    HashOrder.stored (.insertion _) _ _ m 6 hb loadedCounts (by decide) fun pre s hpre hs => ?_).1
    (fun pre hpre => ?_) fun pre w s hpre hs => ?_⟩
  · obtain ⟨s', hs', -, hheight, -⟩ := loaded_states hpre
    obtain rfl := Option.some.inj (hs'.symm.trans hs)
    omega
  · obtain ⟨s, hs, hshort, hheight, -⟩ := loaded_states hpre
    exact ⟨s, hs, fun w text hw => Nat.le_of_succ_le (hshort w text hw),
      .inl (hheight.trans (by decide))⟩
  · obtain ⟨s', hs', -, -, hroot⟩ := loaded_states ((List.prefix_append _ _).trans hpre)
    obtain rfl := Option.some.inj (hs'.symm.trans hs)
    exact hroot w hpre

def belowCounts : List Count := [.insert [49], .insert [50], .search [50], .insert [50]]

theorem below_states {pre : List Count} (hpre : pre <+: belowCounts) :
    ∃ s, run treeCount (fun _ => none, .nil) pre = some s ∧ Short s.1 ∧ s.2.height ≤ 2 := by
  have h0 : Short fun _ => none := fun _ _ h => by cases h
  have h1 : Short (Function.update (fun _ => none) [49] (some (pairStr 0 0))) := h0.update (by decide)
  have h2 : Short (Function.update _ [50] (some (pairStr 0 0))) := h1.update (by decide)
  have h3 : Short (Function.update _ [50] (some (pairStr 1 0))) := h2.update (by decide)
  have h4 : Short (Function.update _ [50] (some (pairStr 1 1))) := h3.update (by decide)
  simp only [belowCounts, List.prefix_cons_iff, List.prefix_nil] at hpre
  rcases hpre with rfl | ⟨_, rfl, rfl | ⟨_, rfl, rfl | ⟨_, rfl, rfl | ⟨_, rfl, rfl⟩⟩⟩⟩
  · exact ⟨_, rfl, h0, by decide⟩
  · exact ⟨_, rfl, h1, by decide⟩
  · exact ⟨_, rfl, h2, by decide⟩
  · exact ⟨_, rfl, h3, by decide⟩
  · exact ⟨_, rfl, h4, by decide⟩

/-- `1-0` becomes `2-0` in `Ocnt` and `1-1` in `LOcnt`. -/
theorem counters_differ_below : ¬ CountersAgree countEnv 6 (fun _ => none)
    (OMAP.init (depthOf 16) (maxHeightOfAVLTree 16)) belowCounts := by
  intro h
  have hb : Begins countEnv (.insertion _) 16 6 (fun _ => none) .nil
    (OMAP.init (depthOf 16) (maxHeightOfAVLTree 16)) := .fresh
  have hroot : InsertsAtRoot (fun _ => none, .nil) belowCounts := root_of_agree (fun _ => rfl)
    (fun _ => (by decide : Leaf (depthOf 16) 0)) (by decide) hb (fun pre s hpre hs => ?_) (by decide)
    (fun pre hpre => ?_) h
  · have := hroot [.insert [49], .insert [50], .search [50]] [50] _ (List.prefix_refl _) rfl
      (by decide)
    revert this
    decide
  · obtain ⟨s', hs', -, hheight⟩ := below_states hpre
    obtain rfl := Option.some.inj (hs'.symm.trans hs)
    omega
  · obtain ⟨s, hs, hshort, hheight⟩ := below_states hpre
    exact ⟨s, hs, hshort, .inl (hheight.trans (by decide))⟩

end SmallClientSSE.Qos
