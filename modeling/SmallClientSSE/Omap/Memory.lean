import SmallClientSSE.Omap.AVLTree
import SmallClientSSE.Omap.OMAP

/-!
# The nodes an operation works on

While an operation runs, the cache and the buckets it has not read hold the nodes
of `V`, each once (`Loaded`), at positions `P` that stay as they are (`Mid`).
Reading a node by its leaf finds it; a change goes to its object in the cache, and
to `V`. `Next` says what an access leaves, with the nodes it touches.
-/

namespace SmallClientSSE.Omap

open Lib ORAM

variable {n : Nat}

/-- The cache and the buckets hold `V`; the buckets read are the ones on the paths
of `leafList`. -/
structure Loaded (E : Env n) (V : Bid n → Option (Node n)) (o : ORAM n) : Prop where
  keeps : Stash.Holds Node.key (real E) (fun b i => OnPath o.depth b.pos i) V
    {i | i ∈ o.readviewmap} o.cache o.store
  reads : o.batchWrite = false →
    ∀ leaf ∈ o.leafList, ∀ i, OnPath o.depth leaf i → i ∈ o.readviewmap
  view : ∀ i ∈ o.readviewmap, ∃ leaf ∈ o.leafList, OnPath o.depth leaf i
  leaves : ∀ leaf ∈ o.leafList, Leaf o.depth leaf
  pos : ∀ {k nd}, V k = some nd → Leaf o.depth nd.pos

/-- In the middle of an operation: nodes are at `P`, and the nodes touched are in
the cache and their leaves recorded. -/
structure Mid (E : Env n) (P : Bid n → Int) (V : Bid n → Option (Node n)) (o : ORAM n) : Prop
    extends Loaded E V o where
  place : ∀ {k nd}, V k = some nd → nd.pos = P k
  touched : ∀ k ∈ o.modified, k ∈ o.cache
  seen : ∀ k ∈ o.modified, P k ∈ o.leafList
  nodup : o.leafList.Nodup

structure Grows (o o' : ORAM n) : Prop where
  depth : o'.depth = o.depth
  maxHeight : o'.maxHeightOfAVLTree = o.maxHeightOfAVLTree
  batch : o'.batchWrite = o.batchWrite
  store : o'.store = o.store
  written : o'.writeviewmap = o.writeviewmap
  cache : ∀ k ∈ o.cache, k ∈ o'.cache
  leafs : ∀ l ∈ o.leafList, l ∈ o'.leafList
  draws : o.draws ≤ o'.draws

/-- The leaves that an operation has recorded and the buckets that it has read. -/
@[ext] structure Footprint where
  leafs : Set Int
  buckets : Set Int

def footprint (o : ORAM n) : Footprint := ⟨{l | l ∈ o.leafList}, {i | i ∈ o.readviewmap}⟩

/-- The node is in a bucket that is not read. -/
def Hidden (E : Env n) (store : Int → List (Node n)) (f : Footprint) (k : Bid n) : Prop :=
  ∃ i ∉ f.buckets, ∃ nd ∈ store i, real E nd.key = true ∧ nd.key = k

open Classical in
/-- A node is looked at: its path is read, unless its leaf is recorded and it is in the cache. -/
noncomputable def look (E : Env n) (P : Bid n → Int) (depth : Nat) (store : Int → List (Node n))
    (f : Footprint) (k : Bid n) : Footprint :=
  if P k ∈ f.leafs ∧ ¬ Hidden E store f k then f
  else ⟨insert (P k) f.leafs, f.buckets ∪ {i | OnPath depth (P k) i}⟩

/-- Some accesses: the nodes of `T` are touched, their leaves are read, and every
leaf once, apart from `c` reads; `d` leaves are drawn. Of the nodes of `T` only one that was
not touched before leaves a footprint. -/
structure Does (E : Env n) (P : Bid n → Int) (V : Bid n → Option (Node n)) (o o' : ORAM n)
    (T : Set (Bid n)) (c d : Nat) : Prop where
  mid : Mid E P V o'
  grows : Grows o o'
  modified : ∀ j, j ∈ o'.modified ↔ j ∈ T ∨ j ∈ o.modified
  only : ∀ l ∈ o'.leafList, l ∈ o.leafList ∨ ∃ k ∈ T, P k = l
  count : o.batchWrite = false →
    o'.readCnt + o.leafList.length = o.readCnt + o'.leafList.length + c
  drawn : o'.draws = o.draws + d
  quiet : (∀ k ∈ T, k ∈ o.modified) → footprint o' = footprint o
  looks : ∀ j ∈ T, j ∈ o.cache ∨ Hidden E o.store (footprint o) j →
    (∀ k ∈ T, k = j ∨ k ∈ o.modified) → footprint o' = look E P o.depth o.store (footprint o) j

/-- Accesses that read a leaf once and draw none. -/
abbrev Next (E : Env n) (P : Bid n → Int) (V : Bid n → Option (Node n)) (o o' : ORAM n)
    (T : Set (Bid n)) : Prop := Does E P V o o' T 0 0

section

variable {E : Env n} {P : Bid n → Int} {V V' : Bid n → Option (Node n)} {o o' o'' : ORAM n}
  {k : Bid n} {nd : Node n} {leaf : Int} {S T : Set (Bid n)}

theorem Grows.refl (o : ORAM n) : Grows o o :=
  ⟨rfl, rfl, rfl, rfl, rfl, fun _ => id, fun _ => id, le_rfl⟩

theorem Grows.trans (h : Grows o o') (h' : Grows o' o'') : Grows o o'' :=
  ⟨h'.depth.trans h.depth, h'.maxHeight.trans h.maxHeight, h'.batch.trans h.batch,
    h'.store.trans h.store, h'.written.trans h.written, fun k hk => h'.cache k (h.cache k hk),
    fun l hl => h'.leafs l (h.leafs l hl), h.draws.trans h'.draws⟩

/-- A cached node whose leaf is recorded leaves no footprint. -/
theorem Loaded.look_eq (h : Loaded E V o) (hk : k ∈ o.cache) (hl : P k ∈ o.leafList) :
    look E P o.depth o.store (footprint o) k = footprint o :=
  if_pos ⟨hl, fun ⟨_, hi, _, hnd, hr, e⟩ => (h.keeps.stored hi hnd hr).2.2 (e ▸ hk)⟩

theorem Loaded.look_ne (h : Loaded E V o) (hV : V k = some nd)
    (hc : k ∉ o.cache ∨ P k ∉ o.leafList) :
    look E P o.depth o.store (footprint o) k =
      ⟨insert (P k) (footprint o).leafs, (footprint o).buckets ∪ {i | OnPath o.depth (P k) i}⟩ := by
  refine if_neg fun ⟨hl, hhid⟩ => hc.elim (fun hk => ?_) fun hl' => hl' hl
  rcases h.keeps.found hV with hlook | ⟨i, hi, hnd⟩
  · exact hk (AList.lookup_isSome.mp (hlook ▸ rfl))
  · obtain ⟨rfl, hr⟩ := h.keeps.proper hV
    exact hhid ⟨i, hi, nd, hnd, hr, rfl⟩

/-- A node is in the cache or in a bucket that is not read. -/
theorem Loaded.somewhere (h : Loaded E V o) (hV : V k = some nd) :
    k ∈ o.cache ∨ Hidden E o.store (footprint o) k := by
  rcases h.keeps.found hV with hlook | ⟨i, hi, hnd⟩
  · exact .inl (AList.lookup_isSome.mp (hlook ▸ rfl))
  · obtain ⟨rfl, hr⟩ := h.keeps.proper hV
    exact .inr ⟨i, hi, nd, hnd, hr, rfl⟩

theorem Next.refl (h : Mid E P V o) : Next E P V o o ∅ :=
  ⟨h, Grows.refl o, fun _ => ⟨.inr, fun hj => hj.elim False.elim id⟩, fun _ => .inl, fun _ => rfl,
    rfl, fun _ => rfl, fun _ hj => hj.elim⟩

theorem Does.trans {c c' d d' : Nat} (h : Does E P V o o' S c d) (h' : Does E P V' o' o'' T c' d') :
    Does E P V' o o'' (S ∪ T) (c + c') (d + d') := by
  refine ⟨h'.mid, h.grows.trans h'.grows, fun j => ?_, fun l hl => ?_, fun hb => ?_, ?_,
    fun hST => ?_, fun j hj hst hST => ?_⟩
  · rw [h'.modified, h.modified]
    show _ ↔ (j ∈ S ∨ j ∈ T) ∨ _
    tauto
  · rcases h'.only l hl with hl | ⟨k, hk, e⟩
    · exact (h.only l hl).imp_right fun ⟨k, hk, e⟩ => ⟨k, .inl hk, e⟩
    · exact .inr ⟨k, .inr hk, e⟩
  · have h1 := h.count hb
    have h2 := h'.count (h.grows.batch.trans hb)
    omega
  · rw [h'.drawn, h.drawn, Nat.add_assoc]
  · rw [h'.quiet fun k hk => (h.modified k).mpr (.inr (hST k (.inr hk))),
      h.quiet fun k hk => hST k (.inl hk)]
  · by_cases hjS : j ∈ S
    · rw [h'.quiet fun k hk => (h.modified k).mpr ((hST k (.inr hk)).imp (fun e : k = j => e ▸ hjS) id),
        h.looks j hjS hst fun k hk => hST k (.inl hk)]
    · have hquiet := h.quiet fun k hk =>
        (hST k (.inl hk)).resolve_left fun e => hjS (e ▸ hk)
      rw [h'.looks j (hj.resolve_left hjS) ?_ fun k hk =>
        (hST k (.inr hk)).imp_right fun hk => (h.modified k).mpr (.inr hk), hquiet, h.grows.depth,
        h.grows.store]
      rw [hquiet, h.grows.store]
      exact hst.imp_left (h.grows.cache j)

section

variable {c d : Nat}

theorem Does.of_eq (h : Does E P V o o' S c d) (e : S = T) : Does E P V o o' T c d := e ▸ h

theorem Does.as (h : Does E P V o o' S c d) (hm : Mid E P V' o)
    (e : ∀ k, k ∈ S ∨ k ∈ o.modified ↔ k ∈ T ∨ k ∈ o.modified) : Does E P V o o' T c d := by
  have hmod : ∀ {k}, k ∈ S → (k ∈ T → k ∈ o.modified) → k ∈ o.modified := fun hk hT =>
    ((e _).mp (.inl hk)).elim hT id
  refine ⟨h.mid, h.grows, fun j => (h.modified j).trans (e j), fun l hl => ?_, h.count, h.drawn,
    fun hT => h.quiet fun k hk => hmod hk (hT k), fun j hj hst hT => ?_⟩
  · rcases h.only l hl with hl | ⟨k, hk, rfl⟩
    · exact .inl hl
    · exact ((e k).mp (.inl hk)).elim (fun hk => .inr ⟨k, hk, rfl⟩) fun hk => .inl (hm.seen k hk)
  · rcases (e j).mpr (.inl hj) with hjS | hjm
    · exact h.looks j hjS hst fun k hk =>
        ((e k).mp (.inl hk)).elim (hT k) .inr
    · rw [hm.look_eq (hm.touched j hjm) (hm.seen j hjm)]
      exact h.quiet fun k hk => hmod hk fun hk => (hT k hk).elim (fun e => e ▸ hjm) id

theorem Does.mem (h : Does E P V o o' T c d) (hk : k ∈ T) : k ∈ o'.modified :=
  (h.modified k).mpr (.inl hk)

theorem Does.kept (h : Does E P V o o' T c d) (hk : k ∈ o.modified) : k ∈ o'.modified :=
  (h.modified k).mpr (.inr hk)

end

theorem Loaded.key (h : Loaded E V o) (hV : V k = some nd) : nd.key = k := (h.keeps.proper hV).1

theorem Loaded.real (h : Loaded E V o) (hV : V k = some nd) : real E k = true :=
  (h.keeps.proper hV).2

theorem isZero_of_real (h : ORAM.real E k = true) : k.isZero = false := by
  simp only [ORAM.real, Bool.and_eq_true, Bool.not_eq_true'] at h
  exact h.1

theorem Loaded.lookup (h : Loaded E V o) (hV : V k = some nd) (hk : k ∈ o.cache) :
    o.cache.lookup k = some nd := by
  obtain ⟨b, hb⟩ := Option.isSome_iff_exists.mp (AList.lookup_isSome.mpr hk)
  have := h.keeps.stashed hb (h.real hV)
  rw [hV] at this
  rw [hb, Option.some.inj this]

theorem Loaded.notMem (h : Loaded E V o) (hV : V k = none) (hr : ORAM.real E k = true) :
    k ∉ o.cache := by
  intro hk
  obtain ⟨b, hb⟩ := Option.isSome_iff_exists.mp (AList.lookup_isSome.mpr hk)
  have := h.keeps.stashed hb hr
  rw [hV] at this
  cases this

/-! ## Changing the cache -/

theorem Loaded.put (h : Loaded E V o) (hk : k ∈ o.cache ∨ V k = none)
    (hr : ORAM.real E k = true) (hkey : nd.key = k) (hpos : Leaf o.depth nd.pos) :
    Loaded E (Function.update V k (some nd)) { o with cache := o.cache.put k nd } := by
  refine ⟨h.keeps.put hr hkey hk, h.reads, h.view, h.leaves, fun {j md} hj => ?_⟩
  by_cases hjk : j = k
  · subst hjk
    rw [Function.update_self] at hj
    rwa [← Option.some.inj hj]
  · rw [Function.update_of_ne hjk] at hj
    exact h.pos hj

theorem Mid.put (h : Mid E P V o) (hk : k ∈ o.cache ∨ V k = none) (hr : ORAM.real E k = true)
    (hkey : nd.key = k) (hpos : nd.pos = P k) (hleaf : Leaf o.depth (P k)) :
    Mid E P (Function.update V k (some nd)) { o with cache := o.cache.put k nd } := by
  refine ⟨h.toLoaded.put hk hr hkey (hpos ▸ hleaf), fun {j md} hj => ?_, fun j hj => ?_, h.seen,
    h.nodup⟩
  · by_cases hjk : j = k
    · subst hjk
      rw [Function.update_self] at hj
      rw [← Option.some.inj hj, hpos]
    · rw [Function.update_of_ne hjk] at hj
      exact h.place hj
  · exact (AList.mem_insert o.cache).mpr (.inr (h.touched j hj))

theorem grows_put (o : ORAM n) (k : Bid n) (nd : Node n) :
    Grows o { o with cache := o.cache.put k nd } :=
  ⟨rfl, rfl, rfl, rfl, rfl, fun _ hj => (AList.mem_insert o.cache).mpr (.inr hj), fun _ => id,
    le_rfl⟩

theorem update_same (hV : V k = some nd) : Function.update V k (some nd) = V := by
  rw [← hV, Function.update_eq_self]

theorem Mid.recache (h : Mid E P V o) (hV : V k = some nd) (hk : k ∈ o.cache) :
    Mid E P V { o with cache := o.cache.put k nd } := by
  have := h.put (.inl hk) (h.real hV) (h.key hV) (h.place hV) (h.place hV ▸ h.pos hV)
  rwa [update_same hV] at this

theorem setNode_spec (h : Mid E P V o) (hV : V k = some nd) (hk : k ∈ o.cache)
    (f : Node n → Node n) (hkey : (f nd).key = nd.key) (hpos : (f nd).pos = nd.pos) :
    ∃ V' o', setNode k f o = some o' ∧ Next E P V' o o' ∅ ∧ V' k = some (f nd) ∧
      ∀ j, j ≠ k → V' j = V j := by
  refine ⟨Function.update V k (some (f nd)), { o with cache := o.cache.put k (f nd) }, ?_,
    ⟨?_, grows_put o k (f nd), fun j => ?_, fun _ => .inl, fun _ => rfl, rfl, fun _ => rfl,
      fun _ hj => hj.elim⟩, Function.update_self .., fun j hj => Function.update_of_ne hj _ _⟩
  · simp [setNode, h.lookup hV hk]
  · exact h.put (.inl hk) (h.real hV) (hkey.trans (h.key hV)) (hpos.trans (h.place hV))
      (h.place hV ▸ h.pos hV)
  · exact ⟨.inr, fun hj => hj.elim False.elim id⟩

theorem mem_modify {j : Bid n} : j ∈ (ORAM.modify k o).modified ↔ j = k ∨ j ∈ o.modified := by
  unfold ORAM.modify
  split
  · next hk =>
    constructor
    · exact .inr
    · rintro (rfl | h)
      exacts [hk, h]
  · exact List.mem_cons

theorem modify_eq (k : Bid n) (o : ORAM n) :
    ORAM.modify k o = { o with modified := (ORAM.modify k o).modified } := by
  unfold ORAM.modify
  split <;> rfl

theorem Mid.modify (h : Mid E P V o) (hk : k ∈ o.cache) (hl : P k ∈ o.leafList) :
    Next E P V o (ORAM.modify k o) {k} := by
  have hmem := fun j => mem_modify (o := o) (k := k) (j := j)
  rw [modify_eq] at hmem ⊢
  refine ⟨⟨⟨h.keeps, h.reads, h.view, h.leaves, h.pos⟩, h.place, fun j hj => ?_, fun j hj => ?_,
    h.nodup⟩, ⟨rfl, rfl, rfl, rfl, rfl, fun _ => id, fun _ => id, le_rfl⟩, hmem, fun _ => .inl,
    fun _ => rfl, rfl, fun _ => rfl, fun j hj _ _ => ?_⟩
  · rcases (hmem j).mp hj with rfl | hj
    exacts [hk, h.touched j hj]
  · rcases (hmem j).mp hj with rfl | hj
    exacts [hl, h.seen j hj]
  · obtain rfl : j = k := hj
    exact (h.look_eq hk hl).symm

/-! ## Reading paths -/

theorem mem_addLeaf {l : Int} : l ∈ (addLeaf leaf o).leafList ↔ l = leaf ∨ l ∈ o.leafList := by
  unfold addLeaf
  split
  · next h =>
    constructor
    · exact .inr
    · rintro (rfl | hl)
      exacts [h, hl]
  · rw [List.mem_append, List.mem_singleton, or_comm]

theorem addLeaf_eq (leaf : Int) (o : ORAM n) :
    addLeaf leaf o = { o with leafList := (addLeaf leaf o).leafList } := by
  unfold addLeaf
  split <;> rfl

theorem nodup_addLeaf (leaf : Int) (h : o.leafList.Nodup) : (addLeaf leaf o).leafList.Nodup := by
  unfold addLeaf
  split
  · exact h
  · next hl =>
    exact h.append (List.nodup_singleton leaf) (List.disjoint_singleton.mpr hl)

theorem length_addLeaf (leaf : Int) (o : ORAM n) : (addLeaf leaf o).leafList.length =
    o.leafList.length + if leaf ∈ o.leafList then 0 else 1 := by
  unfold addLeaf
  split <;> simp

theorem Mid.grow (h : Mid E P V o) (h' : Loaded E V o') (hg : Grows o o')
    (hmod : o'.modified = o.modified) (hnd : o'.leafList.Nodup) : Mid E P V o' :=
  ⟨h', h.place, fun j hj => hg.cache j (h.touched j (hmod ▸ hj)),
    fun j hj => hg.leafs _ (h.seen j (hmod ▸ hj)), hnd⟩

/-- **A path** is read and its leaf recorded. -/
theorem fetchPath_loaded (h : Loaded E V o) (hl : Leaf o.depth leaf) :
    ∃ o', ORAM.fetchPath E leaf o = some o' ∧ Loaded E V (addLeaf leaf o') ∧
      Grows o (addLeaf leaf o') ∧
      (∀ i, i ∈ o'.readviewmap ↔ i ∈ o.readviewmap ∨ OnPath o.depth leaf i) ∧
      o'.modified = o.modified ∧ o'.readCnt = o.readCnt + 1 ∧ o'.leafList = o.leafList ∧
      o'.draws = o.draws := by
  obtain ⟨w, hw, h1, h2, h3, h4, h5⟩ := Omap.fetchPath_spec (B := nodes E)
    (w := ⟨o.cache, o.store, o.readviewmap, o.time⟩) hl h.keeps
  have hcache : ∀ j ∈ o.cache, j ∈ w.stash := fun j hj => by
    obtain ⟨b, hb⟩ := Option.isSome_iff_exists.mp (AList.lookup_isSome.mpr hj)
    exact AList.lookup_isSome.mp (by rw [h5 hb]; rfl)
  refine ⟨{ o with
    cache := w.stash
    readviewmap := w.view
    readCnt := o.readCnt + 1 }, by simp [ORAM.fetchPath, hw], ?_, ?_,
    h4, rfl, rfl, rfl, rfl⟩
  · rw [addLeaf_eq]
    refine ⟨?_, fun hb l hl' i hi => ?_, fun i hi => ?_, fun l hl' => ?_, h.pos⟩
    · change Stash.Holds _ _ _ V {i | i ∈ w.view} w.stash w.store at h1
      rwa [h2] at h1
    · rcases mem_addLeaf.mp hl' with rfl | hl'
      · exact (h4 i).mpr (.inr hi)
      · exact (h4 i).mpr (.inl (h.reads hb l hl' i hi))
    · rcases (h4 i).mp hi with hi | hi
      · obtain ⟨l, hl', hi'⟩ := h.view i hi
        exact ⟨l, mem_addLeaf.mpr (.inr hl'), hi'⟩
      · exact ⟨leaf, mem_addLeaf.mpr (.inl rfl), hi⟩
    · rcases mem_addLeaf.mp hl' with rfl | hl'
      exacts [hl, h.leaves l hl']
  · rw [addLeaf_eq]
    exact ⟨rfl, rfl, rfl, rfl, rfl, hcache, fun l hl' => mem_addLeaf.mpr (.inr hl'), le_rfl⟩

theorem fetchPath_mid (h : Mid E P V o) (hl : Leaf o.depth leaf) :
    ∃ o', ORAM.fetchPath E leaf o = some o' ∧ Mid E P V (addLeaf leaf o') ∧
      Grows o (addLeaf leaf o') ∧
      (∀ i, i ∈ o'.readviewmap ↔ i ∈ o.readviewmap ∨ OnPath o.depth leaf i) ∧
      o'.modified = o.modified ∧ o'.readCnt = o.readCnt + 1 ∧ o'.leafList = o.leafList ∧
      o'.draws = o.draws := by
  obtain ⟨o', ho', h1, hg, hdead, hmod, hcnt, hlist, hdraws⟩ := fetchPath_loaded h.toLoaded hl
  refine ⟨o', ho', h.grow h1 hg ?_ (nodup_addLeaf leaf (hlist ▸ h.nodup)), hg, hdead, hmod, hcnt,
    hlist, hdraws⟩
  rw [addLeaf_eq]
  exact hmod

theorem Loaded.cached (h : Loaded E V o) (hV : V k = some nd)
    (hread : ∀ i, OnPath o.depth nd.pos i → i ∈ o.readviewmap) : o.cache.lookup k = some nd :=
  h.keeps.stash_of_fits hV hread

/-- **Reading a node** by its leaf. -/
theorem readNode_spec (h : Mid E P V o) (hV : V k = some nd) :
    ∃ o', readNode E k nd.pos nd.pos o = some (o', true) ∧ Next E P V o o' {k} := by
  have hz := isZero_of_real (h.real hV)
  have hpos := h.place hV
  by_cases hl : nd.pos ∈ o.leafList ∧ k ∈ o.cache
  · obtain ⟨hl, hk⟩ := hl
    have hlook := h.lookup hV hk
    have hmc : (ORAM.modify k o).cache = o.cache := by rw [modify_eq]
    have hnext := h.modify hk (hpos ▸ hl)
    refine ⟨{ ORAM.modify k o with cache := (ORAM.modify k o).cache.put k nd }, ?_, ?_⟩
    · simp only [readNode, hz, Bool.false_eq_true, if_false, hk, hl, not_true_eq_false, or_self,
        hlook, Option.bind_eq_bind, Option.bind_some, hmc]
      rfl
    · exact ⟨hnext.mid.recache hV (hmc ▸ hk), hnext.grows.trans (grows_put _ k nd), hnext.modified,
        hnext.only, hnext.count, hnext.drawn, hnext.quiet, hnext.looks⟩
  · have hc : k ∉ o.cache ∨ nd.pos ∉ o.leafList := by tauto
    obtain ⟨o1, h1, hm, hg, hdead, hmod, hcnt, hlist, hdraws⟩ := fetchPath_mid h (h.pos hV)
    have hlook : o1.cache.lookup k = some nd := by
      have := hm.cached hV (by rw [hg.depth, addLeaf_eq]; exact fun i hi => (hdead i).mpr (.inr hi))
      rwa [addLeaf_eq] at this
    have hput : (o1.cache.del k).put k { nd with pos := nd.pos } = o1.cache.put k nd :=
      Table.put_del _ _ _
    generalize ho2 : addLeaf nd.pos o1 = o2 at hm hg
    have ho2c : o2.cache = o1.cache := by rw [← ho2, addLeaf_eq]
    have hacc : accessRead E k nd.pos nd.pos o = some ({ o2 with cache := o2.cache.put k nd }, true) := by
      have : addLeaf nd.pos { o1 with cache := o1.cache.put k nd } =
          { o2 with cache := o2.cache.put k nd } := by
        rw [ho2c, ← ho2]
        unfold addLeaf
        split <;> rfl
      simp only [accessRead, h1, Option.bind_eq_bind, Option.bind_some, hlook, hput, this]
      rfl
    have hk2 : k ∈ o2.cache := AList.lookup_isSome.mp (by rw [ho2c, hlook]; rfl)
    have hl2 : P k ∈ o2.leafList := by
      rw [← ho2, ← hpos]
      exact mem_addLeaf.mpr (.inl rfl)
    have hnext := (hm.recache hV hk2).modify ((AList.mem_insert o2.cache).mpr (.inl rfl)) hl2
    have hfoot : footprint o2 =
        ⟨insert (P k) (footprint o).leafs, (footprint o).buckets ∪ {i | OnPath o.depth (P k) i}⟩ := by
      rw [← ho2, ← hpos]
      ext x
      · rw [footprint, Set.mem_ofPred_eq, mem_addLeaf, hlist]
        rfl
      · rw [addLeaf_eq]
        exact hdead x
    refine ⟨_, ?_, ⟨hnext.mid, (hg.trans (grows_put o2 k nd)).trans hnext.grows, fun j => ?_,
      fun l hl => ?_, fun hb => ?_, ?_, fun hk => ?_, fun j hj _ _ => ?_⟩⟩
    · simp only [readNode, hz, Bool.false_eq_true, if_false, hc, if_true, hacc,
        Option.bind_eq_bind, Option.bind_some]
      rfl
    · rw [hnext.modified]
      show _ ↔ _ ∨ j ∈ o.modified
      rw [← hmod, ← ho2, addLeaf_eq]
    · rcases hnext.only l hl with hl | hl
      · rw [← ho2] at hl
        rcases mem_addLeaf.mp hl with rfl | hl
        · exact .inr ⟨k, rfl, hpos.symm⟩
        · exact .inl (hlist ▸ hl)
      · exact .inr hl
    · have hnew : nd.pos ∉ o1.leafList := by
        rw [hlist]
        rcases hc with hk | hl
        · refine fun hl => hk (AList.lookup_isSome.mp ?_)
          rw [h.cached hV (h.reads hb _ hl)]
          rfl
        · exact hl
      have hlen := length_addLeaf nd.pos o1
      rw [if_neg hnew, hlist, ho2] at hlen
      rw [modify_eq]
      show o2.readCnt + _ = _ + o2.leafList.length
      rw [hlen, ← ho2, addLeaf_eq, hcnt]
      omega
    · rw [modify_eq, ← ho2, addLeaf_eq]
      exact hdraws
    · have hkm := hk k rfl
      exact (hc.elim (fun h' => h' (h.touched k hkm)) fun h' => h' (hpos ▸ h.seen k hkm)).elim
    · obtain rfl : j = k := hj
      rw [h.look_ne hV (hpos ▸ hc), ← hfoot, modify_eq]
      rfl

end

end SmallClientSSE.Omap
