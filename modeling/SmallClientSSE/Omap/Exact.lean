import SmallClientSSE.Omap.Capacity
import SmallClientSSE.Omap.Refine

/-!
# Runs of an OMAP

A fresh OMAP answers `insert` and `find` calls like a finite map (`run_refines`), as
long as its tree stays within the height that the position updates cover. Between
the calls its nodes are well placed: each sits once, on the path of its leaf, and
is where the link to it says (`WellPlaced`).
-/

namespace SmallClientSSE.Omap

open Lib ORAM BinaryTree

variable {n : Nat}

/-- No key is given up. -/
def plain (tape : Nat → Int) (order : HashOrder) : Env n := ⟨tape, order, fun _ => true⟩

/-! ## Placement -/

/-- A node is in the cache (`none`) or in a bucket. -/
def Sits (o : ORAM n) (nd : Node n) : Option Int → Prop
  | none => o.cache.lookup nd.key = some nd
  | some i => nd ∈ o.store i

/-- Where a link says, there is the node. -/
def Linked (E : Env n) (o : ORAM n) (id : Bid n) (pos : Int) : Prop :=
  real E id = true → ∃ nd p, Sits o nd p ∧ nd.key = id ∧ nd.pos = pos

/-- Every node sits once, in the cache or on the path of its leaf, and is where the
link to it says. -/
structure WellPlaced (E : Env n) (m : OMAP n) : Prop where
  once : ∀ {nd md p q}, real E nd.key = true → nd.key = md.key → Sits m.oram nd p →
    Sits m.oram md q → p = q ∧ nd = md
  nodup : ∀ i, (((m.oram.store i).map Node.key).filter (real E)).Nodup
  path : ∀ {nd i}, real E nd.key = true → nd ∈ m.oram.store i → OnPath m.oram.depth nd.pos i
  left : ∀ {nd p}, real E nd.key = true → Sits m.oram nd p →
    Linked E m.oram nd.leftID nd.leftPos
  right : ∀ {nd p}, real E nd.key = true → Sits m.oram nd p →
    Linked E m.oram nd.rightID nd.rightPos
  root : Linked E m.oram m.rootKey m.rootPos

section

variable {E : Env n} {V : Bid n → Option (Node n)} {t u : Tree n} {m : OMAP n} {o : ORAM n}
  {nd : Node n} {id key k : Bid n} {pos : Int} {p : Option Int} {value : Str}

theorem Rest.of_sits (h : Rest E V o) (hr : real E nd.key = true) (hs : Sits o nd p) :
    V nd.key = some nd := by
  cases p with
  | none => exact h.keeps.stashed hs hr
  | some i => exact (h.keeps.stored (fun h => h) hs hr).1

theorem Rest.sits (h : Rest E V o) (hV : V k = some nd) : ∃ p, Sits o nd p ∧ nd.key = k := by
  obtain ⟨rfl, -⟩ := h.keeps.proper hV
  rcases h.keeps.found hV with hs | ⟨i, -, hi⟩
  exacts [⟨none, hs, rfl⟩, ⟨some i, hi, rfl⟩]

theorem Rest.unique {V' : Bid n → Option (Node n)} (h : Rest E V o) (h' : Rest E V' o) :
    V = V' := by
  have hsub : ∀ {V V' : Bid n → Option (Node n)}, Rest E V o → Rest E V' o → ∀ k nd,
      V k = some nd → V' k = some nd := by
    intro V V' h h' k nd hV
    obtain ⟨p, hs, rfl⟩ := h.sits hV
    exact h'.of_sits (h.keeps.proper hV).2 hs
  funext k
  exact Option.ext fun nd => ⟨hsub h h' k nd, hsub h' h k nd⟩

theorem Repr.unique (hreal : ∀ {k nd}, V k = some nd → k.isZero = false) (h : Repr V id pos t)
    (h' : Repr V id pos u) : t = u := by
  induction t generalizing id pos u with
  | nil =>
    cases u with
    | nil => rfl
    | node =>
      obtain ⟨nd, hV, -⟩ := h'
      exact absurd (hreal hV) (by simpa using! h)
  | node e l r ihl ihr =>
    obtain ⟨nd, hV, -, rfl, hl, hr⟩ := h
    cases u with
    | nil => exact absurd (hreal hV) (by simpa using! h')
    | node =>
      obtain ⟨md, hVd, -, rfl, hl', hr'⟩ := h'
      obtain rfl : nd = md := Option.some.inj (hV.symm.trans hVd)
      rw [ihl hl hl', ihr hr hr']

theorem Stored.unique {V' : Bid n → Option (Node n)} (h : Stored E V t m)
    (h' : Stored E V' u m) : V = V' ∧ t = u := by
  obtain rfl := h.rest.unique h'.rest
  have hroot : ∀ {t : Tree n}, Repr V m.rootKey m.rootPos t → t ≠ .nil →
      real E m.rootKey = true := fun hr hne => by
    obtain ⟨nd, hV, -⟩ := hr.root_height hne
    exact (h.rest.keeps.proper hV).2
  refine ⟨rfl, ?_⟩
  rcases h.rooted, h'.rooted with ⟨⟨hr, hne⟩ | ⟨rfl, hnr⟩, ⟨hr', hne'⟩ | ⟨rfl, hnr'⟩⟩
  · exact hr.unique (fun hV => isZero_of_real (h.rest.keeps.proper hV).2) hr'
  · exact absurd (hroot hr hne) (by simp [hnr'])
  · exact absurd (hroot hr' hne') (by simp [hnr])
  · rfl

theorem Rest.linked (h : Rest E V o) (hr : Repr V id pos t) : Linked E o id pos := by
  intro hreal
  cases t with
  | nil =>
    have hz : id.isZero = true := hr
    rw [isZero_of_real hreal] at hz
    cases hz
  | node e l r =>
    obtain ⟨nd, hV, rfl, -⟩ := hr
    obtain ⟨p, hs, hk⟩ := h.sits hV
    exact ⟨nd, p, hs, hk, rfl⟩

theorem Repr.children (hr : Repr V id pos t) (hk : k ∈ keys t) (hV : V k = some nd) :
    ∃ l r, Repr V nd.leftID nd.leftPos l ∧ Repr V nd.rightID nd.rightPos r := by
  induction t generalizing id pos with
  | nil => cases hk
  | node e l r ihl ihr =>
    obtain ⟨md, hVd, -, rfl, hl, hrr⟩ := hr
    rw [keys_node, List.mem_append, List.mem_cons] at hk
    rcases hk with hk | rfl | hk
    · exact ihl hl hk
    · obtain rfl : md = nd := Option.some.inj (hVd.symm.trans hV)
      exact ⟨l, r, hl, hrr⟩
    · exact ihr hrr hk

theorem Stored.wellPlaced (h : Stored E V t m) : WellPlaced E m := by
  have hrest := h.rest
  have hout : ∀ i : Int, i ∉ (∅ : Set Int) := fun _ h => h
  have hlinks : ∀ {nd p}, real E nd.key = true → Sits m.oram nd p →
      ∃ l r, Repr V nd.leftID nd.leftPos l ∧ Repr V nd.rightID nd.rightPos r := by
    intro nd p hreal hs
    have hV := hrest.of_sits hreal hs
    have hk := h.dom nd.key (by simp [hV])
    rcases h.rooted with ⟨hr, -⟩ | ⟨rfl, -⟩
    · exact hr.children hk hV
    · cases hk
  refine ⟨fun {nd md p q} hreal hkey hp hq => ?_, fun i => hrest.keeps.nodup (hout i),
    fun {nd i} hreal hi => (hrest.keeps.stored (hout i) hi hreal).2.1, fun hreal hs => ?_,
    fun hreal hs => ?_, fun hreal => ?_⟩
  · have h1 := hrest.of_sits hreal hp
    have h2 := hrest.of_sits (hkey ▸ hreal) hq
    rw [hkey, h2] at h1
    obtain rfl := Option.some.inj h1
    refine ⟨?_, rfl⟩
    cases p with
    | none =>
      cases q with
      | none => rfl
      | some j =>
        exact absurd (AList.lookup_isSome.mp (Option.isSome_of_eq_some hp))
          (hrest.keeps.stored (hout j) hq hreal).2.2
    | some i =>
      cases q with
      | none =>
        exact absurd (AList.lookup_isSome.mp (Option.isSome_of_eq_some hq))
          (hrest.keeps.stored (hout i) hp hreal).2.2
      | some j => rw [hrest.keeps.once (hout i) (hout j) hp hq hreal rfl]
  · obtain ⟨l, r, hl, -⟩ := hlinks hreal hs
    exact hrest.linked hl
  · obtain ⟨l, r, -, hr⟩ := hlinks hreal hs
    exact hrest.linked hr
  · rcases h.rooted with ⟨hr, -⟩ | ⟨-, hnr⟩
    · exact hrest.linked hr hreal
    · rw [hreal] at hnr
      cases hnr

theorem init_stored (E : Env n) (depth maxHeight : Nat) :
    Stored E (fun _ => none) .nil (OMAP.init depth maxHeight) := by
  refine ⟨⟨?_, rfl, rfl, fun h => nomatch h⟩, .inr ⟨rfl, ?_⟩, fun _ h => absurd rfl h, trivial,
    List.Pairwise.nil⟩
  · refine Stash.Holds.load (l := []) (T := ∅) List.nodup_nil (by simp) (by simp [OMAP.init, init])
      (by simp [OMAP.init, init]) (by simp) fun i => ⟨List.replicate Z (Node.dummy n), rfl,
        fun b hb => ?_⟩
    rw [List.eq_of_mem_replicate hb]
    simp [real, Node.dummy, isZero_null]
  · simp [real, OMAP.init, isZero_null]

theorem contents_insert (hs : Ascending (AVL.pairs t))
    (hu : AVL.insert key (Buf.zero.copyStr value) t = some u) (hv : NulFree value)
    (hlen : value.length ≤ 16) : contents u = (contents t).insert key value := by
  funext k
  rw [FMap.insert_apply]
  unfold contents
  rw [AVL.insert_pairs hs hu, valueOf_assign hs]
  split
  · rw [Option.map_some, Buf.cstr_copyStr hv hlen]
  · rfl

end

/-! ## Calls -/

inductive Call (n : Nat) where
  | insert (key : Bid n) (value : Str)
  | find (key : Bid n)
  deriving DecidableEq

/-- A key that is not `0`, and a value that fits a node. -/
def Fits (key : Bid n) (value : Str) : Prop :=
  key.isZero = false ∧ NulFree value ∧ value.length ≤ 16

instance (key : Bid n) (value : Str) : Decidable (Fits key value) :=
  inferInstanceAs (Decidable (_ ∧ _))

def CallOk : Call n → Prop
  | .insert key value => Fits key value
  | .find _ => True

instance : (c : Call n) → Decidable (CallOk c)
  | .insert key value => inferInstanceAs (Decidable (Fits key value))
  | .find _ => inferInstanceAs (Decidable True)

def call (E : Env n) (fuel : Nat) (s : List Str × OMAP n) : Call n → Option (List Str × OMAP n)
  | .insert key value => (OMAP.insert E fuel key value s.2).map fun m => (s.1, m)
  | .find key => (OMAP.find E fuel key s.2).map fun r => (s.1 ++ [r.1], r.2)

def mapCall (s : List Str × FMap n) : Call n → List Str × FMap n
  | .insert key value => (s.1, s.2.insert key value)
  | .find key => (s.1 ++ [s.2.find key], s.2)

def mapRun (calls : List (Call n)) : List Str × FMap n := calls.foldl mapCall ([], fun _ => none)

def inserted (calls : List (Call n)) : List (Bid n × Buf 16) := calls.filterMap fun
  | .insert key value => some (key, Buf.zero.copyStr value)
  | .find _ => none

/-- The tree never gets higher than the position updates go. -/
def HeightOk (maxHeight : Nat) (calls : List (Call n)) : Prop :=
  ∀ pre, pre <+: calls → ∀ t, AVL.insertAll (inserted pre) = some t → t.height ≤ maxHeight

def treeCall (t : Tree n) : Call n → Option (Tree n)
  | .insert key value => AVL.insert key (Buf.zero.copyStr value) t
  | .find _ => some t

section

variable {E : Env n} {fuel : Nat} {calls pre : List (Call n)} {c : Call n} {s : List Str × OMAP n}
  {V : Bid n → Option (Node n)} {t u : Tree n} {m : OMAP n}

/-- An OMAP answers and holds what the finite map does. -/
structure Agrees (E : Env n) (V : Bid n → Option (Node n)) (t : Tree n) (s : List Str × OMAP n)
    (f : List Str × FMap n) : Prop where
  stored : Stored E V t s.2
  answers : s.1 = f.1
  contents : contents t = f.2

/-- **One call.** -/
theorem call_spec {f : List Str × FMap n} (hlive : ∀ k, E.live k = true)
    (htape : ∀ i, Leaf s.2.oram.depth (E.tape i)) (hc : CallOk c) (h : Agrees E V t s f)
    (hu : treeCall t c = some u) (hfuel : t.height < fuel)
    (hH : u.height ≤ s.2.oram.maxHeightOfAVLTree ∨ s.2.oram.depth = 0) :
    ∃ s' V', call E fuel s c = some s' ∧ Agrees E V' u s' (mapCall f c) ∧
      Settings s.2.oram s'.2.oram := by
  cases c with
  | insert key value =>
    obtain ⟨hkey, hv, hlen⟩ := hc
    obtain ⟨V', m', hm', -, -, hs', hset, -⟩ := insert_refines hlive htape key hlen hkey hfuel
      h.stored hu
    refine ⟨(s.1, m'), V', by simp [call, hm'], ⟨hs' hH, h.answers, ?_⟩, hset⟩
    rw [contents_insert h.stored.sorted hu hv hlen, h.contents]
    rfl
  | find key =>
    obtain rfl := Option.some.inj hu
    obtain ⟨V', m', hm', hs', -, hset, -⟩ := find_spec hlive htape key hfuel h.stored hH
    refine ⟨(s.1 ++ [(contents t).find key], m'), V', by simp [call, hm'], ⟨hs', ?_, h.contents⟩,
      hset⟩
    rw [h.answers, h.contents]
    rfl

theorem insertAll_snoc_call (h : AVL.insertAll (inserted pre) = some t)
    (hu : treeCall t c = some u) : AVL.insertAll (inserted (pre ++ [c])) = some u := by
  cases c with
  | insert key value =>
    rw [show inserted (pre ++ [.insert key value]) =
      inserted pre ++ [(key, Buf.zero.copyStr value)] by simp [inserted]]
    exact insertAll_snoc h hu
  | find key =>
    obtain rfl := Option.some.inj hu
    simpa [inserted] using h

theorem exists_treeCall (c : Call n) (h : AVL.Ok t) : ∃ u, treeCall t c = some u := by
  cases c with
  | insert key value =>
    obtain ⟨u, hu, -⟩ := AVL.insert_ok key (Buf.zero.copyStr value) h
    exact ⟨u, hu⟩
  | find key => exact ⟨t, rfl⟩

theorem mapRun_snoc (pre : List (Call n)) (c : Call n) :
    mapRun (pre ++ [c]) = mapCall (mapRun pre) c := by
  simp [mapRun]

end

/-- **A run of calls** agrees with the finite map's, and stores the tree of its insertions. -/
theorem run_agrees (maxSize : Nat) (tape : Nat → Int) (htape : ∀ i, Leaf (depthOf maxSize) (tape i))
    (order : HashOrder) (fuel : Nat) (hfuel : maxHeightOfAVLTree maxSize < fuel)
    (calls : List (Call n)) (hok : ∀ c ∈ calls, CallOk c)
    (hheight : HeightOk (maxHeightOfAVLTree maxSize) calls) :
    ∃ s, run (call (plain tape order) fuel)
        ([], OMAP.init (depthOf maxSize) (maxHeightOfAVLTree maxSize)) calls = some s ∧ ∃ V t,
      Agrees (plain tape order) V t s (mapRun calls) ∧ AVL.insertAll (inserted calls) = some t ∧
        s.2.oram.depth = depthOf maxSize ∧
        s.2.oram.maxHeightOfAVLTree = maxHeightOfAVLTree maxSize := by
  refine run_inv (f := call (plain tape order) fuel)
    (s := ([], OMAP.init (depthOf maxSize) (maxHeightOfAVLTree maxSize))) (l := calls)
    (fun pre s => ∃ V t, Agrees (plain tape order) V t s (mapRun pre) ∧
      AVL.insertAll (inserted pre) = some t ∧ s.2.oram.depth = depthOf maxSize ∧
      s.2.oram.maxHeightOfAVLTree = maxHeightOfAVLTree maxSize)
    ⟨fun _ => none, .nil, ⟨init_stored _ _ _, rfl, rfl⟩, rfl, rfl, rfl⟩
    fun pre c s hpre _ ⟨V, t, h, hbuilt, hd, hmh⟩ => ?_
  obtain ⟨u, hu⟩ := exists_treeCall c h.stored.ok
  have hbuilt' := insertAll_snoc_call hbuilt hu
  have ht := hheight pre ((List.prefix_append pre [c]).trans hpre) t hbuilt
  obtain ⟨s', V', hs', h', hset⟩ := call_spec (fun _ => rfl) (hd ▸ htape)
    (hok c (hpre.subset (by simp))) h hu (show t.height < fuel by omega)
    (.inl (hmh ▸ hheight _ hpre u hbuilt'))
  exact ⟨s', hs', V', u, (mapRun_snoc pre c).symm ▸ h', hbuilt', hset.1.trans hd,
    hset.2.trans hmh⟩

/-- **An OMAP is a finite map**, in every run whose trees stay within
`maxHeightOfAVLTree`; after it the nodes are well placed. Every prefix of the run is
such a run. -/
theorem run_refines (maxSize : Nat) (tape : Nat → Int) (htape : ∀ i, Leaf (depthOf maxSize) (tape i))
    (order : HashOrder) (fuel : Nat) (hfuel : maxHeightOfAVLTree maxSize < fuel)
    (calls : List (Call n)) (hok : ∀ c ∈ calls, CallOk c)
    (hheight : HeightOk (maxHeightOfAVLTree maxSize) calls) :
    ∃ m, run (call (plain tape order) fuel)
        ([], OMAP.init (depthOf maxSize) (maxHeightOfAVLTree maxSize)) calls =
          some ((mapRun calls).1, m) ∧ WellPlaced (plain tape order) m := by
  obtain ⟨s, hs, V, t, h, -⟩ := run_agrees maxSize tape htape order fuel hfuel calls hok hheight
  refine ⟨s.2, ?_, h.stored.wellPlaced⟩
  rw [hs, ← h.answers]

theorem heightOk_of_length {maxHeight : Nat} {calls : List (Call n)}
    (h : calls.length ≤ maxHeight) : HeightOk maxHeight calls := by
  intro pre hpre t ht
  obtain ⟨u, hu, -, hs, hkeys⟩ := insertAll_spec (inserted pre)
  obtain rfl : u = t := Option.some.inj (hu.symm.trans ht)
  have h1 := numNodes_le hs hkeys
  have h2 : (inserted pre).length ≤ pre.length := List.length_filterMap_le ..
  have h3 := hpre.length_le
  have h4 := u.height_le_numNodes
  rw [List.length_map] at h1
  omega

theorem leaf_eight (i : Nat) : Leaf (depthOf 32) (i % 8) :=
  ⟨Int.emod_nonneg _ (by decide), show (i : Int) % 8 < 8 from Int.emod_lt_of_pos _ (by decide)⟩

theorem heightOk_of_inits {maxHeight : Nat} {calls : List (Call n)}
    (h : ∀ pre ∈ calls.inits, ((AVL.insertAll (inserted pre)).all fun t =>
      decide (t.height ≤ maxHeight)) = true) : HeightOk maxHeight calls := by
  intro pre hpre t ht
  have := h pre ((List.mem_inits pre calls).mpr hpre)
  simpa [ht] using this

def sampleCalls : List (Call 16) :=
  [.insert (keyOf 1) [120], .insert (keyOf 2) [121], .find (keyOf 1), .insert (keyOf 1) [122],
    .find (keyOf 1)]

theorem run_refines_sample : ∃ m, run (call (plain (fun i => i % 8) HashOrder.stored) 7)
    ([], OMAP.init (depthOf 32) (maxHeightOfAVLTree 32)) sampleCalls = some ([[120], [122]], m) ∧
      WellPlaced (plain (fun i => i % 8) HashOrder.stored) m :=
  run_refines 32 (fun i => i % 8) leaf_eight HashOrder.stored 7 (by decide) sampleCalls (by decide)
    (heightOk_of_length (by decide))

/-! ## One insertion -/

/-- What an insertion over the cache returns: the root of a balanced search tree, with `key` bound
to `value` and the other bindings as they were. -/
def InsertsBalanced (E : Env n) (fuel : Nat) (isBatchWrite : Bool) (key : Bid n) (value : Str)
    (t : Tree n) (m : OMAP n) : Prop :=
  ∃ V' rootKey rootPos o' u, AVLTree.insert E fuel m.rootKey m.rootPos key value
      (ORAM.start isBatchWrite m.oram) = some (rootKey, rootPos, o') ∧
    Loaded E V' o' ∧ Repr V' rootKey rootPos u ∧ AVL.Ok u ∧
    Ascending (AVL.pairs u) ∧ (∀ k, k ∈ keys u ↔ k = key ∨ k ∈ keys t) ∧
    ∀ k, valueOf k (AVL.pairs u) =
      if k = key then some (Buf.zero.copyStr value) else valueOf k (AVL.pairs t)

/-- **An insertion over the cache** never misses it: from a stored balanced search tree
the recursion returns the root of another. -/
theorem insert_balanced (tape : Nat → Int) (order : HashOrder) (V : Bid n → Option (Node n))
    (t : Tree n) (m : OMAP n) (h : Stored (plain tape order) V t m)
    (htape : ∀ i, Leaf m.oram.depth (tape i)) (isBatchWrite : Bool) (key : Bid n)
    (hkey : key.isZero = false) (value : Str) (hv : value.length ≤ 16) (fuel : Nat)
    (hfuel : t.height < fuel) :
    InsertsBalanced (plain tape order) fuel isBatchWrite key value t m := by
  have hw := h.start isBatchWrite
  have hnew : key ∉ keys t → V key = none := fun hk => by
    by_contra hV
    exact hk (h.dom key hV)
  have hreal : real (plain tape order) key = true := by simp [real, plain, hkey]
  obtain ⟨V', o', id', u, hu, ho', hd, hi, -⟩ := insert_spec hv hreal hw.mid hw.rooted
    h.ok h.sorted hfuel (fun hk => by
      rw [places_of_none (hnew hk)]
      exact ⟨hnew hk, rfl, htape _⟩) hw.upward
  obtain ⟨u', hu', hok, -⟩ := AVL.insert_ok key (Buf.zero.copyStr value) h.ok
  obtain rfl : u = u' := Option.some.inj (hu.symm.trans hu')
  refine ⟨V', id', _, o', u, ho', hd.mid.toLoaded, hi.repr, hok, ?_,
    fun k => mem_keys_insert h.sorted hu, fun k => ?_⟩
  · rw [AVL.insert_pairs h.sorted hu]
    exact h.sorted.assign
  · rw [AVL.insert_pairs h.sorted hu, valueOf_assign h.sorted]
    split_ifs <;> rfl

/-- Four insertions, after which that of `3` makes a double rotation. -/
def bentCalls : List (Call 16) := [5, 2, 6, 4].map fun k => .insert (keyOf k) [120]

theorem insert_balanced_bent : ∃ s V t,
    run (call (plain (fun i => i % 8) HashOrder.stored) 7)
      ([], OMAP.init (depthOf 32) (maxHeightOfAVLTree 32)) bentCalls = some s ∧
    Stored (plain (fun i => i % 8) HashOrder.stored) V t s.2 ∧
    AVL.insertAll (inserted bentCalls) = some t ∧
    InsertsBalanced (plain (fun i => i % 8) HashOrder.stored) 7 false (keyOf 3) [121] t s.2 := by
  obtain ⟨s, hs, V, t, h, hbuilt, hd, -⟩ := run_agrees 32 (fun i => i % 8) leaf_eight
    HashOrder.stored 7 (by decide) bentCalls (by decide) (heightOk_of_length (by decide))
  have hheight : t.height < 7 :=
    Nat.lt_succ_of_le (heightOk_of_length (by decide) bentCalls (List.prefix_refl _) t hbuilt)
  exact ⟨s, V, t, hs, h.stored, hbuilt, insert_balanced (fun i => i % 8) HashOrder.stored V t s.2
    h.stored (hd ▸ leaf_eight) false (keyOf 3) (keyOf_isZero 3) [121] (by decide) 7 hheight⟩

/-- A value of seventeen bytes over a stored key runs into `pos`, and the node is not at the
leaf that is returned for it. -/
theorem insert_overruns : ∃ s V t,
    run (call (plain (fun i => i % 8) HashOrder.stored) 7)
      ([], OMAP.init (depthOf 32) (maxHeightOfAVLTree 32)) bentCalls = some s ∧
    Stored (plain (fun i => i % 8) HashOrder.stored) V t s.2 ∧ (∀ i : Nat, Leaf s.2.oram.depth (i % 8)) ∧
    t.height < 7 ∧
    ¬ InsertsBalanced (plain (fun i => i % 8) HashOrder.stored) 7 false (keyOf 5)
      (List.replicate 17 121) t s.2 := by
  obtain ⟨s, hs, V, t, h, hbuilt, hd, -⟩ := run_agrees 32 (fun i => i % 8) leaf_eight
    HashOrder.stored 7 (by decide) bentCalls (by decide) (heightOk_of_length (by decide))
  have hheight : t.height < 7 :=
    Nat.lt_succ_of_le (heightOk_of_length (by decide) bentCalls (List.prefix_refl _) t hbuilt)
  refine ⟨s, V, t, hs, h.stored, hd ▸ leaf_eight, hheight, ?_⟩
  rintro ⟨V', id, pos, o', u, ho', hl, hr, -, -, hkeys, -⟩
  have hrun : ((run (call (plain (fun i => i % 8) HashOrder.stored) 7)
      ([], OMAP.init (depthOf 32) (maxHeightOfAVLTree 32)) bentCalls).bind fun s =>
      (AVLTree.insert (plain (fun i => i % 8) HashOrder.stored) 7 s.2.rootKey s.2.rootPos (keyOf 5)
        (List.replicate 17 121) (ORAM.start false s.2.oram)).bind fun r =>
      (r.2.2.cache.lookup r.1).map fun nd => decide (nd.pos = r.2.1)) = some false := by
    decide +kernel
  rw [hs, Option.bind_some, ho', Option.bind_some, Option.map_eq_some_iff] at hrun
  obtain ⟨nd, hnd, hne⟩ := hrun
  cases u with
  | nil => exact absurd ((hkeys (keyOf 5)).mpr (.inl rfl)) (by simp)
  | node e l r =>
    obtain ⟨md, hV, hpos, -⟩ := hr
    have hmem : id ∈ o'.cache := AList.lookup_isSome.mp (hnd ▸ rfl)
    obtain rfl : md = nd := Option.some.inj ((hl.lookup hV hmem).symm.trans hnd)
    simp [hpos] at hne

end SmallClientSSE.Omap
