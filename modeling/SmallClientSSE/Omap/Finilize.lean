import SmallClientSSE.Omap.Insert

/-!
# The end of an operation

Fake reads, new leaves, eviction. The position updates go through the cache once
for each height: a node touched gets a new leaf, and a cached node copies the
leaves of its cached children. `LinkOk` is what holds of a link after the heights
up to `i`; with the parents of touched nodes touched, and no node higher than the
loop goes, every link ends up right (`refresh_spec`).
-/

namespace SmallClientSSE.Omap

open Lib ORAM BinaryTree

variable {n : Nat}

section

variable {E : Env n} {P : Bid n → Int} {V : Bid n → Option (Node n)} {o o' o'' : ORAM n}
  {k : Bid n} {nd : Node n} {i : Nat} {find : Bool}

/-! ## Fake reads -/

theorem fetchPath_addLeaf (leaf l : Int) (o : ORAM n) :
    ORAM.fetchPath E leaf (addLeaf l o) = (ORAM.fetchPath E leaf o).map (addLeaf l) := by
  by_cases hl : l ∈ o.leafList <;>
    simp only [ORAM.fetchPath, addLeaf, hl, if_true, if_false, Option.map_map] <;>
    cases Omap.fetchPath (nodes E) o.depth true leaf ⟨o.cache, o.store, o.readviewmap, o.time⟩ <;>
    simp [addLeaf, hl]

theorem Loaded.draws (h : Loaded E V o) (d : Nat) : Loaded E V { o with draws := d } :=
  ⟨h.keeps, h.reads, h.view, h.leaves, h.pos⟩

theorem fakeRead_spec (h : Loaded E V o) (htape : ∀ i, Leaf o.depth (E.tape i)) :
    ∃ o', fakeRead E o = some o' ∧ Loaded E V o' ∧ Grows o o' ∧ o'.modified = o.modified ∧
      o'.readCnt = o.readCnt + 1 ∧ (o.leafList.Nodup → o'.leafList.Nodup) := by
  obtain ⟨o1, ho1, h1, hg, -, hmod, hcnt, hlist, -⟩ := fetchPath_loaded (h.draws (o.draws + 1))
    (htape o.draws)
  refine ⟨addLeaf (E.tape o.draws) o1, ?_, h1, ⟨hg.depth, hg.maxHeight, hg.batch, hg.store,
    hg.written, hg.cache, hg.leafs, (Nat.le_succ _).trans hg.draws⟩, ?_, ?_, fun hnd => nodup_addLeaf _ (hlist ▸ hnd)⟩
  · simp only [fakeRead, randomPath, fetchPath_addLeaf, ho1, Option.map_some]
  · rw [addLeaf_eq]
    exact hmod
  · rw [addLeaf_eq]
    exact hcnt

/-- **The fake reads** fill an operation up. -/
theorem pad_loaded (find : Bool) (h : Loaded E V o) (hb : o.batchWrite = false)
    (htape : ∀ i, Leaf o.depth (E.tape i)) :
    ∃ o', pad E find o = some o' ∧ Loaded E V o' ∧ Grows o o' ∧ o'.modified = o.modified ∧
      o'.readCnt = max (padTo find o.depth) o.readCnt ∧
      (o.leafList.Nodup → o'.leafList.Nodup) := by
  obtain ⟨o', ho', h', hg, hmod, hcnt, hnd⟩ := run_inv
    (l := List.range (padTo find o.depth - o.readCnt)) (f := fun o _ => fakeRead E o) (s := o)
    (fun l o' => Loaded E V o' ∧ Grows o o' ∧ o'.modified = o.modified ∧
      o'.readCnt = o.readCnt + l.length ∧ (o.leafList.Nodup → o'.leafList.Nodup))
    ⟨h, Grows.refl o, rfl, rfl, id⟩ fun l _ o1 _ _ hpre => by
      obtain ⟨h1, hg, hmod, hcnt, hnd⟩ := hpre
      obtain ⟨o2, ho2, h2, hg2, hmod2, hcnt2, hnd2⟩ := fakeRead_spec h1 (hg.depth ▸ htape)
      refine ⟨o2, ho2, h2, hg.trans hg2, hmod2.trans hmod, ?_, fun h => hnd2 (hnd h)⟩
      rw [hcnt2, hcnt, List.length_append]
      rfl
  refine ⟨o', ?_, h', hg, hmod, ?_, hnd⟩
  · simp only [pad, hb, Bool.false_eq_true, if_false]
    exact ho'
  · rw [hcnt, List.length_range]
    omega

theorem pad_spec (find : Bool) (h : Mid E P V o) (hb : o.batchWrite = false)
    (htape : ∀ i, Leaf o.depth (E.tape i)) :
    ∃ o', pad E find o = some o' ∧ Mid E P V o' ∧ Grows o o' ∧ o'.modified = o.modified ∧
      o'.readCnt = max (padTo find o.depth) o.readCnt := by
  obtain ⟨o', ho', h', hg, hmod, hcnt, hnd⟩ := pad_loaded find h.toLoaded hb htape
  exact ⟨o', ho', h.grow h' hg hmod (hnd h.nodup), hg, hmod, hcnt⟩

/-! ## One round of the position updates -/

/-- All but the cached nodes, the time and the leaves drawn. -/
structure Steady (o o' : ORAM n) : Prop where
  depth : o'.depth = o.depth
  maxHeight : o'.maxHeightOfAVLTree = o.maxHeightOfAVLTree
  batch : o'.batchWrite = o.batchWrite
  store : o'.store = o.store
  leafs : o'.leafList = o.leafList
  view : o'.readviewmap = o.readviewmap
  written : o'.writeviewmap = o.writeviewmap
  modified : o'.modified = o.modified
  count : o'.readCnt = o.readCnt
  cache : ∀ k, k ∈ o'.cache ↔ k ∈ o.cache

theorem Steady.refl (o : ORAM n) : Steady o o :=
  ⟨rfl, rfl, rfl, rfl, rfl, rfl, rfl, rfl, rfl, fun _ => Iff.rfl⟩

theorem Steady.trans (h : Steady o o') (h' : Steady o' o'') : Steady o o'' :=
  ⟨h'.depth.trans h.depth, h'.maxHeight.trans h.maxHeight, h'.batch.trans h.batch,
    h'.store.trans h.store, h'.leafs.trans h.leafs, h'.view.trans h.view,
    h'.written.trans h.written, h'.modified.trans h.modified, h'.count.trans h.count,
    fun k => (h'.cache k).trans (h.cache k)⟩

/-- The position copied from a child: the child's if it is cached and of another
height, and the old one if it is not. -/
structure Copied (V : Bid n → Option (Node n)) (o : ORAM n) (i : Nat) (child : Bid n)
    (old new : Int) : Prop where
  miss : child ∉ o.cache → new = old
  hit : ∀ {c}, V child = some c → child ∈ o.cache → c.height ≠ i → new = c.pos

/-- A node before and after the round of its height. -/
structure Renewed (V : Bid n → Option (Node n)) (o : ORAM n) (i : Nat) (nd nd' : Node n) :
    Prop where
  same : ∃ p lp rp, nd' = { nd with
    pos := p
    leftPos := lp
    rightPos := rp }
  pos : nd.key ∉ o.modified → nd'.pos = nd.pos
  left : Copied V o i nd.leftID nd.leftPos nd'.leftPos
  right : Copied V o i nd.rightID nd.rightPos nd'.rightPos

/-- What a round of height `i` does to a node. -/
structure Round (V : Bid n → Option (Node n)) (o : ORAM n) (i : Nat) (k : Bid n)
    (x : Option (Node n)) : Prop where
  gone : V k = none → x = none
  kept : ∀ {nd}, V k = some nd → k ∉ o.cache ∨ nd.height ≠ i → x = some nd
  fresh : ∀ {nd}, V k = some nd → k ∈ o.cache → nd.height = i →
    ∃ nd', x = some nd' ∧ Renewed V o i nd nd'

theorem childPos_spec (h : Loaded E V o) (hV : V k = some nd) (hk : k ∈ o.cache) {x : Node n}
    (hc : o'.cache = o.cache.put k x) (child : Bid n) (old : Int) :
    Copied V o nd.height child old (childPos o' child old) := by
  constructor
  · intro hmiss
    have hne : child ≠ k := fun e => hmiss (e ▸ hk)
    have : o.cache.lookup child = none := AList.lookup_eq_none.mpr hmiss
    unfold childPos
    rw [hc, AList.lookup_insert_ne hne, this]
    split <;> rfl
  · intro c hVc hhit hheight
    have hne : child ≠ k := by
      rintro rfl
      rw [hV] at hVc
      exact hheight (Option.some.inj hVc ▸ rfl)
    unfold childPos
    rw [hc, AList.lookup_insert_ne hne, h.lookup hVc hhit, isZero_of_real (h.real hVc)]
    rfl

theorem Loaded.put_unreal (h : Loaded E V o) (hr : ORAM.real E k = false) (hkey : nd.key = k) :
    Loaded E V { o with cache := o.cache.put k nd } :=
  ⟨h.keeps.put_unreal hr hkey, h.reads, h.view, h.leaves, h.pos⟩

theorem steady_put (hk : k ∈ o.cache) (d : Nat) : Steady o { o with
    cache := o.cache.put k nd
    draws := d } := by
  refine ⟨rfl, rfl, rfl, rfl, rfl, rfl, rfl, rfl, rfl, fun j => ?_⟩
  constructor
  · exact fun hj => ((AList.mem_insert o.cache).mp hj).elim (fun e => e ▸ hk) (fun h => h)
  · exact fun hj => (AList.mem_insert o.cache).mpr (.inr hj)

theorem refreshNode_spec (h : Loaded E V o) (htape : ∀ i, Leaf o.depth (E.tape i)) :
    ∃ V', Loaded E V' (refreshNode E i o k) ∧ Steady o (refreshNode E i o k) ∧
      (∀ j, j ≠ k → V' j = V j) ∧ Round V o i k (V' k) := by
  cases hlook : o.cache.lookup k with
  | none =>
    have hk : k ∉ o.cache := AList.lookup_eq_none.mp hlook
    have heq : refreshNode E i o k = o := by simp [refreshNode, hlook]
    rw [heq]
    exact ⟨V, h, Steady.refl o, fun _ _ => rfl, id, fun hV _ => hV, fun _ hk' => absurd hk' hk⟩
  | some tmp =>
    have hk : k ∈ o.cache := AList.lookup_isSome.mp (by rw [hlook]; rfl)
    have hkey : tmp.key = k := h.keeps.keyed hlook
    by_cases hi : tmp.height = i
    · subst hi
      obtain ⟨p, d, hdraw, hmod, hleaf⟩ : ∃ p d,
          (if tmp.key ∈ o.modified then randomPath E o else (tmp.pos, o)) =
            (p, { o with draws := d }) ∧ (tmp.key ∉ o.modified → p = tmp.pos) ∧
          (Leaf o.depth tmp.pos → Leaf o.depth p) := by
        by_cases hm : tmp.key ∈ o.modified
        · exact ⟨E.tape o.draws, o.draws + 1, if_pos hm, fun h => absurd hm h, fun _ => htape _⟩
        · exact ⟨tmp.pos, o.draws, if_neg hm, fun _ => rfl, id⟩
      obtain ⟨o2, nd', ho2, hc2, hnd'⟩ : ∃ (o2 : ORAM n) (nd' : Node n),
          refreshNode E tmp.height o k = { o with
            cache := o.cache.put k nd'
            draws := d } ∧ o2.cache = o.cache.put k { tmp with pos := p } ∧ nd' = { tmp with
              pos := p
              leftPos := childPos o2 tmp.leftID tmp.leftPos
              rightPos := childPos o2 tmp.rightID tmp.rightPos } := by
        refine ⟨{ o with
          cache := o.cache.put k { tmp with pos := p }
          draws := d }, _, ?_, rfl, rfl⟩
        simp only [refreshNode, hlook, if_true, hdraw]
        congr 1
        exact AList.insert_insert ..
      have hkey' : nd'.key = k := by rw [hnd', hkey]
      rw [ho2]
      cases hV : V k with
      | none =>
        have hr : real E k = false := by
          by_contra hr
          rw [h.keeps.stashed hlook (by simpa using hr)] at hV
          cases hV
        refine ⟨V, (h.put_unreal hr hkey').draws d, steady_put hk d, fun _ _ => rfl, ?_⟩
        rw [hV]
        exact ⟨fun _ => rfl, fun hV' => absurd (hV.symm.trans hV') (by simp), fun hV' =>
          absurd (hV.symm.trans hV') (by simp)⟩
      | some nd =>
        obtain rfl : nd = tmp := Option.some.inj ((h.lookup hV hk).symm.trans hlook)
        have hput := h.put (.inl hk) (h.real hV) hkey' (by rw [hnd']; exact hleaf (h.pos hV))
        refine ⟨_, hput.draws d, steady_put hk d, fun j hj => Function.update_of_ne hj _ _, ?_⟩
        rw [Function.update_self]
        refine ⟨fun hV' => absurd (hV.symm.trans hV') (by simp), fun {md} hV' h' => ?_,
          fun {md} hV' _ _ => ?_⟩
        · obtain rfl : nd = md := Option.some.inj (hV.symm.trans hV')
          exact absurd h' (by simp [hk])
        · obtain rfl : nd = md := Option.some.inj (hV.symm.trans hV')
          subst hnd'
          exact ⟨_, rfl, ⟨_, _, _, rfl⟩, hmod, childPos_spec h hV hk hc2 _ _,
            childPos_spec h hV hk hc2 _ _⟩
    · have heq : refreshNode E i o k = o := by simp [refreshNode, hlook, hi]
      rw [heq]
      refine ⟨V, h, Steady.refl o, fun _ _ => rfl, id, fun hV _ => hV, fun {nd} hV _ hn => ?_⟩
      rw [h.lookup hV hk] at hlook
      exact absurd (Option.some.inj hlook ▸ hn) hi

theorem refreshNodes_spec (h : Loaded E V o) (htape : ∀ i, Leaf o.depth (E.tape i))
    (ks : List (Bid n)) (hks : ks.Nodup) :
    ∃ V', Loaded E V' (ks.foldl (refreshNode E i) o) ∧ Steady o (ks.foldl (refreshNode E i) o) ∧
      (∀ j, j ∉ ks → V' j = V j) ∧ ∀ j ∈ ks, Round V o i j (V' j) := by
  induction ks using List.reverseRecOn with
  | nil => exact ⟨V, h, Steady.refl o, fun _ _ => rfl, fun _ hj => by cases hj⟩
  | append_singleton ks k ih =>
    obtain ⟨hks, -, hdisj⟩ := List.nodup_append.mp hks
    have hk : k ∉ ks := fun hk => hdisj k hk k (by simp) rfl
    obtain ⟨V1, h1, hs1, hout1, hin1⟩ := ih hks
    obtain ⟨V2, h2, hs2, hout2, hin2⟩ := refreshNode_spec (i := i) (k := k) h1
      (hs1.depth ▸ htape)
    rw [List.foldl_append]
    refine ⟨V2, h2, hs1.trans hs2, fun j hj => ?_, fun j hj => ?_⟩
    · rw [List.mem_append, not_or, List.mem_singleton] at hj
      rw [hout2 j hj.2, hout1 j hj.1]
    · by_cases hjk : j = k
      · subst hjk
        -- the children of this height do not matter, and the others are as they were
        have hcopy : ∀ {child old new}, Copied V1 (ks.foldl (refreshNode E i) o) i child old new →
            Copied V o i child old new := fun {child old new} hc => by
          refine ⟨fun hm => hc.miss ((hs1.cache child).not.mpr hm), fun {c} hVc hm hh => ?_⟩
          refine hc.hit ?_ ((hs1.cache child).mpr hm) hh
          by_cases hck : child ∈ ks
          · exact (hin1 child hck).kept hVc (.inr hh)
          · exact (hout1 child hck).trans hVc
        have hV := hout1 j hk
        refine ⟨fun hn => hin2.gone (hV.trans hn), fun hn hh => hin2.kept (hV.trans hn) ?_,
          fun hn hm hh => ?_⟩
        · exact hh.imp_left fun hm => (hs1.cache j).not.mpr hm
        · obtain ⟨nd', hx, hr⟩ := hin2.fresh (hV.trans hn) ((hs1.cache j).mpr hm) hh
          exact ⟨nd', hx, hr.same, hs1.modified ▸ hr.pos, hcopy hr.left, hcopy hr.right⟩
      · have hj' : j ∈ ks := (List.mem_append.mp hj).resolve_right fun h =>
          hjk (List.mem_singleton.mp h)
        have := hin1 j hj'
        rwa [← hout2 j hjk] at this

/-- **One round** of the position updates. -/
theorem refreshHeight_spec (h : Loaded E V o) (htape : ∀ i, Leaf o.depth (E.tape i)) (i : Nat) :
    ∃ V', Loaded E V' (refreshHeight E o i) ∧ Steady o (refreshHeight E o i) ∧
      ∀ j, Round V o i j (V' j) := by
  have hperm := (E.order.perm o.time 0 o.cache.pairs).map Prod.fst
  have ht : Loaded E V { o with time := o.time + 1 } := ⟨h.keeps, h.reads, h.view, h.leaves, h.pos⟩
  obtain ⟨V', h', hs, hout, hin⟩ := refreshNodes_spec (i := i) ht htape
    ((E.order.order o.time 0 o.cache.pairs).map Prod.fst) (hperm.nodup_iff.mpr o.cache.nodup_pairs)
  refine ⟨V', h', ⟨hs.depth, hs.maxHeight, hs.batch, hs.store, hs.leafs, hs.view, hs.written,
    hs.modified, hs.count, hs.cache⟩, fun j => ?_⟩
  by_cases hj : j ∈ (E.order.order o.time 0 o.cache.pairs).map Prod.fst
  · have := hin j hj
    exact ⟨this.gone, this.kept, fun hV hm hh => by
      obtain ⟨nd', hx, hr⟩ := this.fresh hV hm hh
      exact ⟨nd', hx, hr.same, hr.pos, ⟨hr.left.miss, hr.left.hit⟩, ⟨hr.right.miss, hr.right.hit⟩⟩⟩
  · have hm : j ∉ o.cache := fun hm => by
      obtain ⟨b, hb⟩ := Option.isSome_iff_exists.mp (AList.lookup_isSome.mpr hm)
      exact hj (hperm.symm.subset (List.mem_map_of_mem (f := Prod.fst) (Table.mem_pairs.mpr hb)))
    rw [hout j hj]
    exact ⟨id, fun hV _ => hV, fun _ hm' => absurd hm' hm⟩

/-! ## All rounds -/

/-- A link from `nd` to `child` after the heights up to `i`: it is right, or the
child was touched, and the round of its parent is to come. -/
def LinkOk (depth : Nat) (D : List (Bid n)) (V : Bid n → Option (Node n)) (i : Nat) (nd : Node n)
    (child : Bid n) (pos : Int) : Prop :=
  child.isZero = true ∨ ∃ c, V child = some c ∧ c.height < nd.height ∧ (child ∈ D → nd.key ∈ D) ∧
    (pos = c.pos ∨ child ∈ D ∧ i < nd.height ∧ Leaf depth pos)

/-- Both links of the nodes of `K`. -/
def LinksOk (depth : Nat) (D K : List (Bid n)) (V : Bid n → Option (Node n)) (i : Nat) : Prop :=
  ∀ k ∈ K, ∀ nd, V k = some nd → LinkOk depth D V i nd nd.leftID nd.leftPos ∧
    LinkOk depth D V i nd nd.rightID nd.rightPos

def Same (V V' : Bid n → Option (Node n)) : Prop :=
  ∀ k, (V k = none → V' k = none) ∧ ∀ nd, V k = some nd →
    ∃ p lp rp, V' k = some { nd with
      pos := p
      leftPos := lp
      rightPos := rp }

theorem Same.refl (V : Bid n → Option (Node n)) : Same V V := fun _ =>
  ⟨id, fun _ hV => ⟨_, _, _, hV⟩⟩

theorem Same.trans {V' V'' : Bid n → Option (Node n)} (h : Same V V') (h' : Same V' V'') :
    Same V V'' := fun k => by
  refine ⟨fun hV => (h' k).1 ((h k).1 hV), fun nd hV => ?_⟩
  obtain ⟨p, lp, rp, hV'⟩ := (h k).2 nd hV
  obtain ⟨p', lp', rp', hV''⟩ := (h' k).2 _ hV'
  exact ⟨p', lp', rp', hV''⟩

theorem Round.same {V' : Bid n → Option (Node n)} (h : ∀ j, Round V o i j (V' j)) : Same V V' := by
  intro k
  refine ⟨(h k).gone, fun nd hV => ?_⟩
  by_cases hc : k ∈ o.cache ∧ nd.height = i
  · obtain ⟨nd', hx, ⟨p, lp, rp, rfl⟩, -⟩ := (h k).fresh hV hc.1 hc.2
    exact ⟨p, lp, rp, hx⟩
  · exact ⟨_, _, _, (h k).kept hV (by tauto)⟩

/-- **A link through one round.** -/
theorem LinkOk.step {V' : Bid n → Option (Node n)} {nd' : Node n} {child : Bid n} {pos pos' : Int}
    (h : Loaded E V o) (htouched : ∀ k ∈ o.modified, k ∈ o.cache)
    (hround : ∀ j, Round V o (i + 1) j (V' j)) (hV : V k = some nd) (hheight : nd'.height = nd.height)
    (hkey : nd'.key = k)
    (hkept : k ∉ o.cache ∨ nd.height ≠ i + 1 → pos' = pos)
    (hcopy : k ∈ o.cache → nd.height = i + 1 → Copied V o (i + 1) child pos pos')
    (hl : LinkOk o.depth o.modified V i nd child pos) :
    LinkOk o.depth o.modified V' (i + 1) nd' child pos' := by
  rcases hl with hz | ⟨c, hVc, hlt, hup, hpos⟩
  · exact .inl hz
  refine .inr ?_
  have hkeyk : nd.key = k := h.key hV
  rw [hheight, hkey]
  rw [hkeyk] at hup
  by_cases hc : child ∈ o.cache ∧ c.height = i + 1
  · -- the child is renewed, and its parent is higher
    obtain ⟨c', hVc', ⟨p, lp, rp, rfl⟩, hp, -, -⟩ := (hround child).fresh hVc hc.1 hc.2
    rw [hkept (.inr (by omega))]
    refine ⟨_, hVc', hlt, hup, ?_⟩
    by_cases hm : child ∈ o.modified
    · refine .inr ⟨hm, by omega, ?_⟩
      rcases hpos with rfl | ⟨-, -, hleaf⟩
      exacts [h.pos hVc, hleaf]
    · rcases hpos with rfl | ⟨hm', -⟩
      · exact .inl (hp (h.key hVc ▸ hm)).symm
      · exact absurd hm' hm
  · have hVc' := (hround child).kept hVc (by tauto)
    refine ⟨c, hVc', hlt, hup, ?_⟩
    by_cases hn : k ∈ o.cache ∧ nd.height = i + 1
    · have hcp := hcopy hn.1 hn.2
      by_cases hcc : child ∈ o.cache
      · exact .inl (hcp.hit hVc hcc fun e => hc ⟨hcc, e⟩)
      · rw [hcp.miss hcc]
        rcases hpos with rfl | ⟨hm, -⟩
        exacts [.inl rfl, absurd (htouched child hm) hcc]
    · rw [hkept (by tauto)]
      refine hpos.imp_right fun ⟨hm, h1, hleaf⟩ => ⟨hm, ?_, hleaf⟩
      have : nd.height ≠ i + 1 := fun e => hn ⟨htouched k (hup hm), e⟩
      omega

theorem LinksOk.step {V' : Bid n → Option (Node n)} {K : List (Bid n)} (h : Loaded E V o)
    (htouched : ∀ k ∈ o.modified, k ∈ o.cache) (hround : ∀ j, Round V o (i + 1) j (V' j))
    (hl : LinksOk o.depth o.modified K V i) : LinksOk o.depth o.modified K V' (i + 1) := by
  intro k hk nd' hV'
  cases hV : V k with
  | none =>
    rw [(hround k).gone hV] at hV'
    cases hV'
  | some nd =>
    obtain ⟨hleft, hright⟩ := hl k hk nd hV
    have hkey := h.key hV
    by_cases hn : k ∈ o.cache ∧ nd.height = i + 1
    · obtain ⟨nd'', hx, ⟨p, lp, rp, rfl⟩, -, hcl, hcr⟩ := (hround k).fresh hV hn.1 hn.2
      obtain rfl := Option.some.inj (hx.symm.trans hV')
      exact ⟨hleft.step h htouched hround hV rfl hkey (fun h => by tauto) fun _ _ => hcl,
        hright.step h htouched hround hV rfl hkey (fun h => by tauto) fun _ _ => hcr⟩
    · obtain rfl := Option.some.inj (((hround k).kept hV (by tauto)).symm.trans hV')
      exact ⟨hleft.step h htouched hround hV rfl hkey (fun _ => rfl) fun h1 h2 => absurd ⟨h1, h2⟩ hn,
        hright.step h htouched hround hV rfl hkey (fun _ => rfl) fun h1 h2 => absurd ⟨h1, h2⟩ hn⟩

/-- **The position updates** make the links right. -/
theorem refresh_spec {K : List (Bid n)} (h : Loaded E V o) (htape : ∀ i, Leaf o.depth (E.tape i))
    (htouched : ∀ k ∈ o.modified, k ∈ o.cache) (hl : LinksOk o.depth o.modified K V 0) :
    ∃ V', Loaded E V' (refresh E o) ∧ Steady o (refresh E o) ∧ Same V V' ∧
      LinksOk o.depth o.modified K V' o.maxHeightOfAVLTree := by
  have key : ∀ H, ∃ V', Loaded E V' ((List.range' 1 H).foldl (refreshHeight E) o) ∧
      Steady o ((List.range' 1 H).foldl (refreshHeight E) o) ∧ Same V V' ∧
      LinksOk o.depth o.modified K V' H := by
    intro H
    induction H with
    | zero => exact ⟨V, h, Steady.refl o, Same.refl V, hl⟩
    | succ H ih =>
      obtain ⟨V1, h1, hs1, hsame1, hl1⟩ := ih
      rw [List.range'_1_concat, List.foldl_append, Nat.add_comm 1 H]
      obtain ⟨V2, h2, hs2, hround⟩ := refreshHeight_spec h1 (hs1.depth ▸ htape) (H + 1)
      rw [← hs1.depth, ← hs1.modified] at hl1 ⊢
      refine ⟨V2, h2, hs1.trans hs2, hsame1.trans (Round.same hround), hl1.step h1 ?_ hround⟩
      intro k hk
      exact (hs1.cache k).mpr (htouched k (hs1.modified ▸ hk))
  exact key o.maxHeightOfAVLTree

/-! ## Trees and their links -/

section

variable {id : Bid n} {pos : Int} {t : Tree n} {D : List (Bid n)} {H depth : Nat}
  {V' : Bid n → Option (Node n)}

/-- The tree that the links from `id` lead to, wherever they say its nodes are. -/
def Shape (V : Bid n → Option (Node n)) : Bid n → Tree n → Prop
  | id, .nil => id.isZero = true
  | id, .node e l r => ∃ nd, V id = some nd ∧ e = ⟨id, nd.value, nd.height⟩ ∧
      Shape V nd.leftID l ∧ Shape V nd.rightID r

theorem Repr.shape (hr : Repr V id pos t) : Shape V id t := by
  induction t generalizing id pos with
  | nil => exact hr
  | node e l r ihl ihr =>
    obtain ⟨nd, hV, -, he, hl, hrr⟩ := hr
    exact ⟨nd, hV, he, ihl hl, ihr hrr⟩

theorem Repr.link (hr : Repr V id pos t)
    (hlt : AVL.height t < nd.height) (hup : ∀ k ∈ top t, k ∈ D → nd.key ∈ D) :
    LinkOk depth D V 0 nd id pos := by
  cases t with
  | nil => exact .inl hr
  | node e l r =>
    obtain ⟨c, hV, rfl, rfl, -⟩ := hr
    exact .inr ⟨c, hV, hlt, hup id (by simp), .inl rfl⟩

/-- The links of a tree whose touched nodes have touched parents. -/
theorem Repr.links (h : Loaded E V o) (hr : Repr V id pos t) (hok : AVL.Ok t) (hup : Upward D t) :
    LinksOk depth D (keys t) V 0 := by
  induction t generalizing id pos with
  | nil => exact fun k hk => by cases hk
  | node e l r ihl ihr =>
    obtain ⟨he, h1, h2, hokl, hokr⟩ := hok
    obtain ⟨hul, hur, hupl, hupr⟩ := hup
    obtain ⟨nd, hV, rfl, rfl, hl, hrr⟩ := hr
    replace he : nd.height = max (AVL.height l) (AVL.height r) + 1 := he
    intro k hk md hmd
    rw [keys_node, List.mem_append, List.mem_cons] at hk
    rcases hk with hk | rfl | hk
    · exact ihl hl hokl hupl k hk md hmd
    · obtain rfl : nd = md := Option.some.inj (hV.symm.trans hmd)
      have hkey : nd.key = k := h.key hV
      exact ⟨hl.link (by omega) (by rwa [hkey]), hrr.link (by omega) (by rwa [hkey])⟩
    · exact ihr hrr hokr hupr k hk md hmd

/-- A tree whose links are right is in the memory. -/
theorem Shape.repr (h : Loaded E V' o) (hs : Shape V id t) (hsame : Same V V')
    (hok : AVL.Ok t) (hl : LinksOk o.depth D (keys t) V' H)
    (hH : AVL.height t ≤ H ∨ o.depth = 0) {pos' : Int}
    (hpos : ∀ nd, V' id = some nd → nd.pos = pos') : Repr V' id pos' t := by
  induction t generalizing id pos' with
  | nil => exact hs
  | node e l r ihl ihr =>
    have ⟨he, _, _, hokl, hokr⟩ := hok
    obtain ⟨nd, hV, rfl, hll, hrr⟩ := hs
    obtain ⟨p, lp, rp, hV'⟩ := (hsame id).2 nd hV
    replace he : nd.height = max (AVL.height l) (AVL.height r) + 1 := he
    replace hH : nd.height ≤ H ∨ o.depth = 0 := hH
    have hlink : ∀ {child cpos}, LinkOk o.depth D V' H { nd with
        pos := p
        leftPos := lp
        rightPos := rp } child cpos → ∀ c, V' child = some c → c.pos = cpos := by
      rintro child cpos (hz | ⟨c, hc, hlt, -, hp⟩) c' hc'
      · rw [isZero_of_real (h.real hc')] at hz
        cases hz
      · obtain rfl : c = c' := Option.some.inj (hc.symm.trans hc')
        rcases hp with rfl | ⟨-, hlt', hleaf⟩
        · rfl
        · rcases hH with hH | hd
          · exact absurd hlt' (by simpa using hH)
          · have h0 := h.pos hc
            rw [hd] at h0 hleaf
            obtain ⟨ha, hb⟩ := h0
            obtain ⟨ha', hb'⟩ := hleaf
            rw [pow_zero] at hb hb'
            omega
    obtain ⟨hleft, hright⟩ := hl id (by simp) _ hV'
    have hsub : ∀ {t : Tree n}, AVL.height t ≤ max (AVL.height l) (AVL.height r) →
        AVL.height t ≤ H ∨ o.depth = 0 := fun ht => hH.imp_left fun hH => by omega
    exact ⟨_, hV', hpos _ hV', rfl,
      ihl hll hokl (fun k hk => hl k (by simp [hk])) (hsub (le_max_left _ _)) (hlink hleft),
      ihr hrr hokr (fun k hk => hl k (by simp [hk])) (hsub (le_max_right _ _)) (hlink hright)⟩

end

/-! ## Eviction -/

/-- Between operations: every node is in the cache or in a bucket on its path. -/
structure Rest (E : Env n) (V : Bid n → Option (Node n)) (o : ORAM n) : Prop where
  keeps : Stash.Holds Node.key (real E) (fun b i => OnPath o.depth b.pos i) V ∅ o.cache o.store
  leafs : o.leafList = []
  modified : o.modified = []
  pos : ∀ {k nd}, V k = some nd → Leaf o.depth nd.pos

/-- The nodes in buckets that the eviction writes and no access has read. -/
def Lost (E : Env n) (o : ORAM n) : Set (Bid n) :=
  Stash.unread Node.key (real E) {i | i ∈ o.readviewmap}
    {i | ∃ leaf ∈ o.leafList, OnPath o.depth leaf i} o.store

/-- **The eviction** gives up the nodes of the buckets it has not read. -/
theorem evict_loses (h : Loaded E V o) (hw : o.writeviewmap = []) :
    ∃ o', evict E o = some o' ∧ Rest E (Stash.drop V (Lost E o)) o' ∧ o'.depth = o.depth ∧
      o'.maxHeightOfAVLTree = o.maxHeightOfAVLTree ∧ o'.readCnt = o.readCnt := by
  have hset : {i | i ∈ o.readviewmap} ∪ {i | ∃ leaf ∈ o.leafList, OnPath o.depth leaf i} =
      {i | ∃ leaf ∈ o.leafList, OnPath o.depth leaf i} := Set.union_eq_right.mpr h.view
  obtain ⟨w, hw', hk, -⟩ := writePaths_spec (B := nodes E)
    (w := ⟨o.cache, o.store, o.writeviewmap, o.time⟩) h.leaves hw (hset ▸ h.keeps.lose _)
  exact ⟨{ o with
    cache := w.stash
    store := w.store
    writeviewmap := w.view
    time := w.time
    leafList := []
    modified := [] }, by simp [evict, hw'],
    ⟨hk, rfl, rfl, fun hV => h.pos (Stash.drop_eq_some.mp hV).1⟩, rfl, rfl, rfl⟩

theorem lost_eq_empty
    (hreads : ∀ leaf ∈ o.leafList, ∀ i, OnPath o.depth leaf i → i ∈ o.readviewmap) :
    Lost E o = ∅ := by
  refine Set.eq_empty_of_forall_notMem ?_
  rintro k ⟨i, ⟨leaf, hl, hi⟩, hd, -⟩
  exact hd (hreads leaf hl i hi)

/-- **The eviction**, when it gives up nothing. -/
theorem evict_spec (h : Loaded E V o) (hw : o.writeviewmap = []) (hlost : Lost E o = ∅) :
    ∃ o', evict E o = some o' ∧ Rest E V o' ∧ o'.depth = o.depth ∧
      o'.maxHeightOfAVLTree = o.maxHeightOfAVLTree ∧ o'.readCnt = o.readCnt := by
  have := evict_loses h hw
  rwa [hlost, Stash.drop_empty] at this

theorem Steady.lost (h : Steady o o') : Lost E o' = Lost E o := by
  unfold Lost
  rw [h.leafs, h.view, h.depth, h.store]

/-! ## Operations -/

/-- **The position updates and the eviction** on a tree whose root is cached. The links are
right if the updates go as high as the tree. -/
theorem settle_loaded {id : Bid n} {t : Tree n} (h : Loaded E V o)
    (htape : ∀ i, Leaf o.depth (E.tape i)) (htouched : ∀ k ∈ o.modified, k ∈ o.cache)
    (hlost : Lost E o = ∅) (hw : o.writeviewmap = []) (hs : Shape V id t)
    (hl : LinksOk o.depth o.modified (keys t) V 0) (hid : id ∈ o.cache) (hV : V id ≠ none)
    (hok : AVL.Ok t) :
    ∃ V' nd o', (refresh E o).cache.lookup id = some nd ∧ evict E (refresh E o) = some o' ∧
      Rest E V' o' ∧
      (AVL.height t ≤ o.maxHeightOfAVLTree ∨ o.depth = 0 → Repr V' id nd.pos t) ∧
      Same V V' ∧ o'.depth = o.depth ∧ o'.maxHeightOfAVLTree = o.maxHeightOfAVLTree ∧
      o'.readCnt = o.readCnt := by
  obtain ⟨V', h2, hs2, hsame, hl2⟩ := refresh_spec h htape htouched hl
  have hidc : id ∈ (refresh E o).cache := (hs2.cache id).mpr hid
  obtain ⟨nd, hV⟩ := Option.ne_none_iff_exists'.mp hV
  obtain ⟨p, lp, rp, hV'⟩ := (hsame id).2 nd hV
  obtain ⟨o3, ho3, hrest, hd3, hm3, hc3⟩ := evict_spec h2 (hs2.written.trans hw)
    (hs2.lost.trans hlost)
  refine ⟨V', _, o3, h2.lookup hV' hidc, ho3, hrest, fun hH => ?_, hsame, hd3.trans hs2.depth,
    hm3.trans hs2.maxHeight, hc3.trans hs2.count⟩
  rw [← hs2.depth] at hl2
  refine hs.repr h2 hsame hok hl2 (hs2.depth ▸ hH) fun md hmd => ?_
  rw [← Option.some.inj (hV'.symm.trans hmd)]

theorem settle_spec {id : Bid n} {pos : Int} {t : Tree n} (h : Loaded E V o)
    (htape : ∀ i, Leaf o.depth (E.tape i)) (htouched : ∀ k ∈ o.modified, k ∈ o.cache)
    (hb : o.batchWrite = false) (hw : o.writeviewmap = []) (hr : Repr V id pos t)
    (hid : id ∈ o.modified) (hV : V id ≠ none) (hup : Upward o.modified t) (hok : AVL.Ok t) :
    ∃ V' nd o', (refresh E o).cache.lookup id = some nd ∧ evict E (refresh E o) = some o' ∧
      Rest E V' o' ∧
      (AVL.height t ≤ o.maxHeightOfAVLTree ∨ o.depth = 0 → Repr V' id nd.pos t) ∧
      Same V V' ∧ o'.depth = o.depth ∧ o'.maxHeightOfAVLTree = o.maxHeightOfAVLTree ∧
      o'.readCnt = o.readCnt :=
  settle_loaded h htape htouched (lost_eq_empty (h.reads hb)) hw hr.shape (hr.links h hok hup)
    (htouched id hid) hV hok

/-- **The end of an operation.** -/
theorem finilize_loaded (find : Bool) {id : Bid n} {t : Tree n} (h : Loaded E V o)
    (htouched : ∀ k ∈ o.modified, k ∈ o.cache) (hb : o.batchWrite = false)
    (hw : o.writeviewmap = []) (htape : ∀ i, Leaf o.depth (E.tape i)) (hs : Shape V id t)
    (hl : LinksOk o.depth o.modified (keys t) V 0) (hid : id ∈ o.modified) (hV : V id ≠ none)
    (hok : AVL.Ok t) :
    ∃ V' pos' o', finilize E find id o = some (pos', o') ∧ Rest E V' o' ∧
      (AVL.height t ≤ o.maxHeightOfAVLTree ∨ o.depth = 0 → Repr V' id pos' t) ∧
      Same V V' ∧ o'.depth = o.depth ∧ o'.maxHeightOfAVLTree = o.maxHeightOfAVLTree ∧
      o'.readCnt = max (padTo find o.depth) o.readCnt := by
  obtain ⟨o1, ho1, h1, hg1, hmod1, hcnt1, -⟩ := pad_loaded find h hb htape
  obtain ⟨V', nd, o2, hroot, ho2, hrest, hrepr, hsame, hd2, hm2, hc2⟩ := settle_loaded h1
    (hg1.depth ▸ htape) (fun k hk => hg1.cache k (htouched k (hmod1 ▸ hk)))
    (lost_eq_empty (h1.reads (hg1.batch.trans hb))) (hg1.written.trans hw) hs
    (by rw [hg1.depth, hmod1]; exact hl) (hg1.cache id (htouched id hid)) hV hok
  rw [hg1.maxHeight, hg1.depth] at hrepr
  refine ⟨V', nd.pos, o2, ?_, hrest, hrepr, hsame, hd2.trans hg1.depth, hm2.trans hg1.maxHeight,
    hc2.trans hcnt1⟩
  simp only [finilize, ho1, hroot, ho2, Option.bind_eq_bind, Option.bind_some, Option.pure_def]

theorem finilize_spec (find : Bool) {id : Bid n} {t : Tree n} (h : Mid E P V o)
    (hb : o.batchWrite = false) (hw : o.writeviewmap = []) (htape : ∀ i, Leaf o.depth (E.tape i))
    (hr : Repr V id (P id) t) (hid : id ∈ o.modified) (hV : V id ≠ none)
    (hup : Upward o.modified t) (hok : AVL.Ok t) :
    ∃ V' pos' o', finilize E find id o = some (pos', o') ∧ Rest E V' o' ∧
      (AVL.height t ≤ o.maxHeightOfAVLTree ∨ o.depth = 0 → Repr V' id pos' t) ∧
      Same V V' ∧ o'.depth = o.depth ∧ o'.maxHeightOfAVLTree = o.maxHeightOfAVLTree ∧
      o'.readCnt = max (padTo find o.depth) o.readCnt :=
  finilize_loaded find h.toLoaded h.touched hb hw htape hr.shape (hr.links h.toLoaded hok hup) hid
    hV hok

/-- **The start of an operation.** -/
theorem start_spec (h : Rest E V o) (batch : Bool) (hP : ∀ {k nd}, V k = some nd → nd.pos = P k) :
    Mid E P V (start batch o) := by
  have hleafs : (start batch o).leafList = [] := h.leafs
  have hmod : (start batch o).modified = [] := h.modified
  have hview : {i | i ∈ (start batch o).readviewmap} = (∅ : Set Int) := by
    ext i
    simp [start]
  refine ⟨⟨?_, fun _ leaf hl => ?_, fun i hi => ?_, fun leaf hl => ?_, h.pos⟩, hP, fun k hk => ?_,
    fun k hk => ?_, ?_⟩
  · rw [hview]
    exact h.keeps
  · rw [hleafs] at hl
    cases hl
  · cases hi
  · rw [hleafs] at hl
    cases hl
  · rw [hmod] at hk
    cases hk
  · rw [hmod] at hk
    cases hk
  · rw [hleafs]
    exact List.nodup_nil

end

end SmallClientSSE.Omap
