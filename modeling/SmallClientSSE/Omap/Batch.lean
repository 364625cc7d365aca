import SmallClientSSE.Omap.Setup

/-!
# Batch searches

`AVLTree::batchSearch` goes through the tree once: at a node it lists the keys that
hit it, and takes the smaller keys to the left and the larger ones to the right. So
the answers come in the order of the nodes visited (`hits`), absent keys have none,
and `OMAP::batchSearch` keeps the zero bytes behind a value that `find` cuts off.
-/

namespace SmallClientSSE.Omap

open Lib ORAM BinaryTree

variable {n : Nat} (E : Env n)

/-! ## The code -/

/-- `batchSearch` of a child, if any keys go there. -/
def searchBelow (batchSearch : Bid n → Int → List (Bid n) → ORAM n →
    Option (List (Bid n) × ORAM n)) (id : Bid n) (pos : Int) (keys : List (Bid n)) (o : ORAM n) :
    Option (List (Bid n) × ORAM n) :=
  if keys = [] then some ([], o)
  else do
    let (o, found) ← readNode E id pos pos o
    if found then
      let child ← o.cache.lookup id
      batchSearch child.key child.pos keys o
    else pure ([], o)

/-- `AVLTree::batchSearch`: pointers to the nodes found. -/
def AVLTree.batchSearch : Nat → Bid n → Int → List (Bid n) → ORAM n →
    Option (List (Bid n) × ORAM n)
  | 0, _, _, _, _ => none
  | fuel + 1, head, headPos, keys, o =>
    if real E head then do
      let (o, found) ← readNode E head headPos headPos o
      guard found
      let node ← o.cache.lookup head
      let results := (keys.filter fun bid => node.key = bid).map fun _ => head
      let (left, o) ← searchBelow E (batchSearch fuel) node.leftID node.leftPos
        (keys.filter fun bid => bid < node.key) o
      let node ← o.cache.lookup head
      let (right, o) ← searchBelow E (batchSearch fuel) node.rightID node.rightPos
        (keys.filter fun bid => node.key < bid) o
      pure (results ++ left ++ right, o)
    else some ([], o)

/-- `finishOperation(true, ...)` after a batch search. Without a root it leaves a null pointer
under the key `0`, which nothing follows. -/
def OMAP.finishSearch (m : OMAP n) : Option (OMAP n) :=
  if m.rootKey.isZero then do
    let o ← pad E true m.oram
    let o ← evict E (refresh E o)
    pure { m with oram := o }
  else finish E true m

def text (value : Buf 16) : Str := List.ofFn value

/-- `OMAP::batchSearch`. -/
def OMAP.batchSearch (fuel : Nat) (keys : List (Bid n)) (m : OMAP n) :
    Option (List Str × OMAP n) := do
  let (resNodes, o) ← AVLTree.batchSearch E fuel m.rootKey m.rootPos keys (start false m.oram)
  let result ← resNodes.mapM fun k => (o.cache.lookup k).map fun node => text node.value
  let m ← finishSearch E { m with oram := o }
  pure (result, m)

/-! ## The keys that hit -/

/-- The keys that hit a node, in the order of the nodes: each root before its subtrees. -/
def hits : Tree n → List (Bid n) → List (Bid n)
  | .nil, _ => []
  | .node e l r, keys => keys.filter (fun bid => e.key = bid) ++
      hits l (keys.filter fun bid => bid < e.key) ++ hits r (keys.filter fun bid => e.key < bid)

section

variable {E} {t : Tree n} {ks : List (Bid n)} {k : Bid n}

@[simp] theorem hits_nil : ∀ t : Tree n, hits t [] = []
  | .nil => rfl
  | .node e l r => by simp [hits, hits_nil l, hits_nil r]

/-- **Hits** are the keys that the tree has, each as often as it is asked for. -/
theorem count_hits (hs : Ascending (AVL.pairs t)) :
    (hits t ks).count k = if k ∈ keys t then ks.count k else 0 := by
  induction t generalizing ks with
  | nil => simp [hits]
  | node e l r ihl ihr =>
    obtain ⟨hsl, hsr, hle, hre⟩ := ascending_node hs
    have hfilter : ∀ p : Bid n → Bool, (ks.filter p).count k = if p k then ks.count k else 0 :=
      fun p => by
        split
        · next h => exact List.count_filter h
        · next h => exact List.count_eq_zero.mpr fun hk => h (List.mem_filter.mp hk).2
    simp only [hits, List.count_append, ihl hsl, ihr hsr, hfilter, decide_eq_true_eq]
    rcases lt_trichotomy k e.key with hk | rfl | hk
    · have hr : k ∉ keys r := fun h => absurd (hre k h) hk.not_gt
      simp [hk, hk.ne, hk.ne', hr]
    · have hl : e.key ∉ keys l := fun h => absurd (hle _ h) (lt_irrefl _)
      have hr : e.key ∉ keys r := fun h => absurd (hre _ h) (lt_irrefl _)
      simp
    · have hl : k ∉ keys l := fun h => absurd (hle k h) hk.not_gt
      simp [hk, hk.ne, hk.ne', hl]

theorem hits_perm (hs : Ascending (AVL.pairs t)) :
    (hits t ks).Perm (ks.filter fun k => k ∈ keys t) := by
  refine List.perm_iff_count.mpr fun k => ?_
  rw [count_hits hs]
  split
  · next h => exact (List.count_filter (by simpa using h)).symm
  · next h =>
    exact (List.count_eq_zero.mpr fun hk => h (by simpa using (List.mem_filter.mp hk).2)).symm

theorem mem_hits (hs : Ascending (AVL.pairs t)) : k ∈ hits t ks ↔ k ∈ ks ∧ k ∈ keys t := by
  rw [(hits_perm hs).mem_iff, List.mem_filter, decide_eq_true_eq]

end

/-! ## The walk through the memory -/

section

variable {E} {P : Bid n → Int} {V : Bid n → Option (Node n)} {o o' o'' : ORAM n} {id k : Bid n}
  {pos : Int} {e : AVL.Entry (Bid n) (Buf 16)} {l r t : Tree n} {ks : List (Bid n)}
  {S T : Set (Bid n)}

/-- What a batch search of `ks` below a tree leaves: it touched some nodes of the tree, those
that are hit among them. -/
structure Walked (E : Env n) (P : Bid n → Int) (V : Bid n → Option (Node n)) (t : Tree n)
    (ks : List (Bid n)) (o o' : ORAM n) (T : Set (Bid n)) : Prop where
  next : Next E P V o o' T
  inside : ∀ k ∈ T, k ∈ keys t
  hit : ∀ k ∈ hits t ks, k ∈ T
  upward : Upward o'.modified t

/-- A walk elsewhere leaves the touched nodes of a tree as they are. -/
theorem Upward.beside (hup : Upward o.modified t) (hn : Next E P V o o' T) (hnd : (keys t).Nodup)
    (hT : ∀ k ∈ T, k ∉ keys t) : Upward o'.modified t :=
  hup.grow (fun _ => hn.kept) hnd fun k hk hk' =>
    .inl (((hn.modified k).mp hk').resolve_left fun h => hT k h hk)

theorem searchBelow_spec (ks : List (Bid n)) (batchSearch : Bid n → Int → List (Bid n) → ORAM n →
      Option (List (Bid n) × ORAM n)) (h : Mid E P V o) (hr : Repr V id pos t)
    (hnd : (keys t).Nodup) (hup : Upward o.modified t)
    (ih : ∀ {o}, Mid E P V o → Upward o.modified t → ∃ o' T,
      batchSearch id pos ks o = some (hits t ks, o') ∧ Walked E P V t ks o o' T) :
    ∃ o' T, searchBelow E batchSearch id pos ks o = some (hits t ks, o') ∧
      Walked E P V t ks o o' T := by
  unfold searchBelow
  by_cases hks : ks = []
  · subst hks
    rw [if_pos rfl, hits_nil]
    exact ⟨o, ∅, rfl, Next.refl h, fun _ h => h.elim, fun k hk => by simp at hk, hup⟩
  rw [if_neg hks]
  cases t with
  | nil =>
    refine ⟨o, ∅, ?_, Next.refl h, fun _ h => h.elim, fun k hk => absurd hk List.not_mem_nil, trivial⟩
    simp [readNode_zero (show id.isZero = true from hr), hits]
  | node e l r =>
    obtain ⟨nd, hV, rfl, rfl, -⟩ := hr
    obtain ⟨o1, ho1, hn1⟩ := readNode_spec h hV
    have hup1 := hup.grow (fun _ => hn1.kept) hnd fun k _ hk' => by
      rw [mem_top_node]
      exact ((hn1.modified k).mp hk').symm
    obtain ⟨o2, T, ho2, hw⟩ := ih hn1.mid hup1
    refine ⟨o2, {id} ∪ T, ?_, Does.trans hn1 hw.next, ?_, fun k hk => .inr (hw.hit k hk), hw.upward⟩
    · simp only [ho1, Option.bind_eq_bind, Option.bind_some, if_true,
        lookup_cached hn1.mid hV (hn1.mem rfl), h.key hV, ho2]
    · rintro k (rfl | hk)
      exacts [by simp, hw.inside k hk]

/-- **A batch search** lists the keys that hit, and touches their nodes. -/
theorem batchSearch_spec {fuel : Nat} (ks : List (Bid n)) (h : Mid E P V o)
    (hr : Rooted E V id pos t) (hs : Ascending (AVL.pairs t)) (hfuel : t.height < fuel) (hup : Upward o.modified t) :
    ∃ o' T, AVLTree.batchSearch E fuel id pos ks o = some (hits t ks, o') ∧
      Walked E P V t ks o o' T ∧ ∀ k ∈ top t, k ∈ T := by
  induction t generalizing fuel id pos o ks with
  | nil =>
    obtain ⟨-, hid⟩ := hr.resolve_left fun h => h.2 rfl
    obtain ⟨fuel, rfl⟩ := Nat.exists_eq_succ_of_ne_zero (Nat.pos_iff_ne_zero.mp hfuel)
    exact ⟨o, ∅, by simp [AVLTree.batchSearch, hid, hits], ⟨Next.refl h, fun _ h => h.elim,
      fun k hk => absurd hk List.not_mem_nil, trivial⟩, fun k hk => (mem_top_nil.mp hk).elim⟩
  | node e l r ihl ihr =>
    obtain ⟨hr, -⟩ := hr.resolve_right fun h => by cases h.1
    obtain ⟨hsl, hsr, hle, hre⟩ := ascending_node hs
    have hnd : (keys (.node e l r)).Nodup := hs.nodup
    obtain ⟨hndl, hndr, hel, her, hlr⟩ := nodup_node hnd
    obtain ⟨-, -, hul, hur⟩ := hup
    obtain ⟨nd, hV, rfl, rfl, hl, hrr⟩ := hr
    dsimp only at hel her hle hre
    obtain ⟨fuel, rfl⟩ := Nat.exists_eq_succ_of_ne_zero (Nat.ne_of_gt (Nat.zero_lt_of_lt hfuel))
    replace hfuel : max l.height r.height + 1 < fuel + 1 := hfuel
    obtain ⟨o1, ho1, hn1⟩ := readNode_spec h hV
    have hid : ∀ k ∈ ({id} : Set (Bid n)), k = id := fun k hk => hk
    obtain ⟨o2, S, ho2, hw2⟩ := searchBelow_spec (ks.filter fun bid => bid < id)
      (AVLTree.batchSearch E fuel) hn1.mid hl hndl
      (hul.beside hn1 hndl fun k hk => hid k hk ▸ hel) fun h hup => by
        obtain ⟨o', T, h1, h2, -⟩ := ihl _ h hl.rooted hsl (show l.height < fuel by omega) hup
        exact ⟨o', T, h1, h2⟩
    have hn12 := Does.trans hn1 hw2.next
    obtain ⟨o3, T, ho3, hw3⟩ := searchBelow_spec (ks.filter fun bid => id < bid)
      (AVLTree.batchSearch E fuel) hw2.next.mid hrr hndr
      (hur.beside hn12 hndr fun k hk => hk.elim (fun hk => hid k hk ▸ her)
        fun hk => hlr k (hw2.inside k hk)) fun h hup => by
        obtain ⟨o', T, h1, h2, -⟩ := ihr _ h hrr.rooted hsr (show r.height < fuel by omega) hup
        exact ⟨o', T, h1, h2⟩
    have hn := Does.trans hn12 hw3.next
    refine ⟨o3, {id} ∪ S ∪ T, ?_, ⟨hn, ?_, fun k hk => ?_, .node (hn.mem (.inl (.inl rfl)))
      (hw2.upward.beside hw3.next hndl fun k hk => ?_) hw3.upward⟩, fun k hk => ?_⟩
    · have hkey := h.key hV
      have hself : ((ks.filter fun bid => nd.key = bid).map fun _ => id) =
          ks.filter fun bid => id = bid := by
        rw [hkey]
        refine (List.map_congr_left fun k hk => ?_).trans (List.map_id _)
        simpa using (List.mem_filter.mp hk).2
      simp only [AVLTree.batchSearch, h.real hV, if_true, ho1, guard_true,
        lookup_cached hn1.mid hV (hn1.mem rfl), hself, Option.bind_eq_bind, Option.bind_some]
      rw [hkey]
      simp only [ho2, lookup_cached hw2.next.mid hV (hn12.mem (.inl rfl)), hkey, ho3,
        Option.bind_some, Option.pure_def, hits]
    · rintro k ((rfl | hk) | hk)
      · simp
      · simp [hw2.inside k hk]
      · simp [hw3.inside k hk]
    · simp only [hits, List.mem_append] at hk
      rcases hk with (hk | hk) | hk
      · have : id = k := by simpa using (List.mem_filter.mp hk).2
        exact .inl (.inl this.symm)
      · exact .inl (.inr (hw2.hit k hk))
      · exact .inr (hw3.hit k hk)
    · exact fun hkl => hlr k hkl (hw3.inside k hk)
    · exact .inl (.inl (mem_top_node.mp hk))

/-! ## The operation -/

/-- What the tree maps a key to, with the zero bytes. -/
def fullText (t : Tree n) (k : Bid n) : Str := ((valueOf k (AVL.pairs t)).map text).getD []

theorem mapM_eq {α β : Type} {f : α → Option β} {g : α → β} : ∀ {l : List α},
    (∀ a ∈ l, f a = some (g a)) → l.mapM f = some (l.map g)
  | [], _ => rfl
  | a :: l, h => by
    rw [List.mapM_cons, h a List.mem_cons_self, mapM_eq fun b hb => h b (List.mem_cons_of_mem a hb)]
    rfl

section

variable {m : OMAP n} {fuel : Nat}

theorem Walked.lookups (hw : Walked E P V t ks o o' T) (hr : Rooted E V m.rootKey m.rootPos t)
    (hs : Ascending (AVL.pairs t)) :
    ((hits t ks).mapM fun k => (o'.cache.lookup k).map fun node => text node.value) =
      some ((hits t ks).map (fullText t)) := by
  refine mapM_eq fun k hk => ?_
  have hkt := ((mem_hits hs).mp hk).2
  have ht : t ≠ .nil := by
    rintro rfl
    cases hkt
  obtain ⟨v, hv, hval⟩ := exists_valueOf hkt
  obtain ⟨nd, hV, rfl⟩ := (hr.repr ht).holds hv
  rw [lookup_cached hw.next.mid hV (hw.next.mem (hw.hit k hk)), fullText, hval]
  rfl

/-- **`finishOperation`** after a search. -/
theorem finishSearch_spec (hlive : ∀ k, E.live k = true) (h : Working E P V t m)
    (hb : m.oram.batchWrite = false) (hw : m.oram.writeviewmap = [])
    (htape : ∀ i, Leaf m.oram.depth (E.tape i)) (htop : ∀ k ∈ top t, k ∈ m.oram.modified)
    (hH : t.height ≤ m.oram.maxHeightOfAVLTree ∨ m.oram.depth = 0) :
    ∃ V' m', OMAP.finishSearch E m = some m' ∧ Stored E V' t m' ∧ Settings m.oram m'.oram := by
  unfold OMAP.finishSearch
  by_cases ht : t = .nil
  · subst ht
    obtain ⟨-, hnr⟩ := h.rooted.resolve_left fun h => h.2 rfl
    have hz : m.rootKey.isZero = true := by simpa [real, hlive] using hnr
    obtain ⟨o1, ho1, h1, hg1, hmod1, -⟩ := pad_spec true h.mid hb htape
    obtain ⟨V', h2, hs2, hsame, -⟩ := refresh_spec (K := []) h1.toLoaded (hg1.depth ▸ htape)
      h1.touched (fun k hk => by cases hk)
    obtain ⟨o3, ho3, hrest, hd3, hm3, -⟩ := evict_spec h2
      (hs2.written.trans (hg1.written.trans hw))
      (hs2.lost.trans (lost_eq_empty (h1.reads (hg1.batch.trans hb))))
    refine ⟨V', { m with oram := o3 }, ?_, ⟨hrest, .inr ⟨rfl, hnr⟩, fun k hk => ?_, h.ok, h.sorted⟩,
      hd3.trans (hs2.depth.trans hg1.depth), hm3.trans (hs2.maxHeight.trans hg1.maxHeight)⟩
    · simp only [hz, if_true, ho1, ho3, Option.bind_eq_bind, Option.bind_some, Option.pure_def]
    · exact h.dom k fun hV => hk ((hsame k).1 hV)
  · obtain ⟨hroot, hV, -⟩ := h.root ht
    obtain ⟨nd, hV⟩ := Option.ne_none_iff_exists'.mp hV
    have hz := isZero_of_real (h.mid.real hV)
    obtain ⟨V', m', hm', -, hs, -, hd, hmh, -⟩ := finish_spec true h hb hw htape ht htop
    exact ⟨V', m', by simp only [hz, Bool.false_eq_true, if_false, hm'], hs hH, hd, hmh⟩

/-- **`batchSearch`** answers for the keys that hit, with whole values. -/
theorem OMAP.batchSearch_spec (hlive : ∀ k, E.live k = true)
    (htape : ∀ i, Leaf m.oram.depth (E.tape i)) (hfuel : t.height < fuel) (h : Stored E V t m)
    (hH : t.height ≤ m.oram.maxHeightOfAVLTree ∨ m.oram.depth = 0) (ks : List (Bid n)) :
    ∃ V' m', OMAP.batchSearch E fuel ks m = some ((hits t ks).map (fullText t), m') ∧
      Stored E V' t m' ∧ Settings m.oram m'.oram := by
  have hw := h.start false
  obtain ⟨o1, T, ho1, hwalk, htop⟩ := Omap.batchSearch_spec ks hw.mid h.rooted h.sorted
    hfuel hw.upward
  have hn := hwalk.next
  obtain ⟨V', m', hm', hs, hset⟩ := @finishSearch_spec _ E _ V t { m with oram := o1 } hlive
    ⟨hn.mid, h.rooted, h.dom, h.ok, h.sorted, hwalk.upward⟩ hn.grows.batch hn.grows.written
    (hn.grows.depth ▸ htape) (fun k hk => hn.mem (htop k hk))
    (by rw [hn.grows.maxHeight, hn.grows.depth]; exact hH)
  refine ⟨V', m', ?_, hs, hset.1.trans hn.grows.depth, hset.2.trans hn.grows.maxHeight⟩
  simp only [OMAP.batchSearch, ho1, hwalk.lookups h.rooted h.sorted, hm', Option.bind_eq_bind,
    Option.bind_some, Option.pure_def]

end

end

end SmallClientSSE.Omap
