import SmallClientSSE.Omap.Increment

/-!
# Keys that an OMAP lacks

The operations move nodes and change their fields, but not their keys, and only
insertions make new nodes. So a key that was never inserted has no node anywhere
(`Lacks`), whatever happened to the other nodes, and its increment returns the empty
text (`Lacks.incrementSrcCnt`).
-/

namespace SmallClientSSE.Omap

open Lib ORAM BinaryTree

/-! ## Blocks -/

section

variable {κ β : Type} [DecidableEq κ] {B : Blocks κ β} {depth : Nat} {w w' : Work κ β} {Q : β → Prop}

/-- Every block has a property, in the stash or in a bucket. -/
structure Work.All (Q : β → Prop) (w : Work κ β) : Prop where
  stash : ∀ {j b}, w.stash.lookup j = some b → Q b
  store : ∀ {i b}, b ∈ w.store i → Q b

theorem fetchPath_all {useView : Bool} {leaf : Int} (h : w.All Q)
    (hr : fetchPath B depth useView leaf w = some w') : w'.All Q := by
  refine run_keeps (fun _ w => w.All Q) h hr fun _ d t u _ h hu => ?_
  rw [fetchLevel] at hu
  split at hu
  · obtain rfl := Option.some.inj hu
    exact h
  · simp only [Option.bind_eq_bind, Option.bind_eq_some_iff, readBucket, Option.ite_none_right_eq_some,
      Option.pure_def, Option.some.injEq] at hu
    obtain ⟨bucket, ⟨-, rfl⟩, rfl⟩ := hu
    exact ⟨fun hj => (Stash.mem_of_lookup_fetch hj).elim h.stash h.store, h.store⟩

theorem writePath_all {leaf : Int} {d : Nat} (hQ : Q B.dummy) (h : w.All Q)
    (hr : writePath B depth leaf d w = some w') : w'.All Q := by
  rw [writePath] at hr
  split at hr
  · obtain rfl := Option.some.inj hr
    exact h
  · simp only [Option.bind_eq_bind, Option.bind_eq_some_iff, writeBucket,
      Option.ite_none_right_eq_some, Option.pure_def, Option.some.injEq] at hr
    obtain ⟨store, ⟨-, rfl⟩, rfl⟩ := hr
    refine ⟨fun hj => h.stash ((Stash.lookup_spill _).mp hj).1, fun {i b} hb => ?_⟩
    dsimp only at hb
    by_cases hi : i = getNodeOnPath depth leaf d
    · subst hi
      rw [Function.update_self, List.mem_append] at hb
      rcases hb with hb | hb
      · obtain ⟨e, he, rfl⟩ := List.mem_map.mp hb
        have he := (B.perm _ _).subset (List.mem_of_mem_filter (List.mem_of_mem_take he))
        exact h.stash (Table.mem_pairs.mp he)
      · rwa [List.eq_of_mem_replicate hb]
    · rw [Function.update_of_ne hi] at hb
      exact h.store hb

theorem writePaths_all {leaves : List Int} (hQ : Q B.dummy) (h : w.All Q)
    (hr : writePaths B depth leaves w = some w') : w'.All Q :=
  run_keeps (fun _ w => w.All Q) h hr fun _ _ _ _ _ h hu =>
    run_keeps (fun _ w => w.All Q) h hu fun _ _ _ _ _ h hu => writePath_all hQ h hu

end

/-! ## The ORAM -/

variable {n : Nat} {E : Env n} {o o' : ORAM n} {k j key : Bid n} {nd : Node n} {pos leaf : Int}

/-- Neither the cache nor a bucket has a node of the key. -/
structure Lacks (k : Bid n) (o : ORAM n) : Prop where
  cache : ∀ {j nd}, o.cache.lookup j = some nd → nd.key ≠ k
  store : ∀ {i nd}, nd ∈ o.store i → nd.key ≠ k

theorem Lacks.all (h : Lacks k o) (view : List Int) :
    Work.All (fun nd => nd.key ≠ k) ⟨o.cache, o.store, view, o.time⟩ := ⟨h.cache, h.store⟩

theorem Lacks.put (h : Lacks k o) (hnd : nd.key ≠ k) :
    Lacks k { o with cache := o.cache.put j nd } := by
  refine ⟨fun {i md} hi => ?_, h.store⟩
  by_cases hij : i = j
  · subst hij
    rw [AList.lookup_insert] at hi
    exact Option.some.inj hi ▸ hnd
  · rw [AList.lookup_insert_ne hij] at hi
    exact h.cache hi

theorem Lacks.addLeaf (h : Lacks k o) (leaf : Int) : Lacks k (ORAM.addLeaf leaf o) := by
  rw [ORAM.addLeaf]
  split
  · exact h
  · exact ⟨h.cache, h.store⟩

theorem Lacks.modify (h : Lacks k o) (j : Bid n) : Lacks k (ORAM.modify j o) := by
  rw [ORAM.modify]
  split
  · exact h
  · exact ⟨h.cache, h.store⟩

theorem Lacks.randomPath (E : Env n) (h : Lacks k o) : Lacks k (ORAM.randomPath E o).2 :=
  ⟨h.cache, h.store⟩

theorem Lacks.start (h : Lacks k o) (isBatchWrite : Bool) : Lacks k (ORAM.start isBatchWrite o) :=
  ⟨h.cache, h.store⟩

theorem Lacks.fetchPath (h : Lacks k o) (hr : ORAM.fetchPath E leaf o = some o') : Lacks k o' := by
  obtain ⟨w, hw, rfl⟩ := Option.map_eq_some_iff.mp hr
  exact ⟨(fetchPath_all (h.all _) hw).stash, h.store⟩

theorem Lacks.setNode {f : Node n → Node n} (h : Lacks k o) (hr : ORAM.setNode j f o = some o')
    (hf : ∀ nd, (f nd).key = nd.key) : Lacks k o' := by
  obtain ⟨nd, hnd, hr⟩ := Option.bind_eq_some_iff.mp hr
  obtain rfl := Option.some.inj hr
  exact h.put (hf nd ▸ h.cache hnd)

theorem Lacks.accessRead {found : Bool} {lastLeaf newLeaf : Int} (h : Lacks k o)
    (hr : ORAM.accessRead E j lastLeaf newLeaf o = some (o', found)) : Lacks k o' := by
  obtain ⟨o1, ho1, hr⟩ := Option.bind_eq_some_iff.mp hr
  have h1 := h.fetchPath ho1
  cases hj : o1.cache.lookup j with
  | none =>
    simp only [hj, Option.pure_def, Option.some.injEq, Prod.mk.injEq] at hr
    exact hr.1 ▸ h1
  | some node =>
    simp only [hj, Option.pure_def, Option.some.injEq, Prod.mk.injEq, Table.put_del] at hr
    obtain ⟨rfl, -⟩ := hr
    have hkey := h1.cache hj
    exact (Lacks.put h1 (by exact hkey)).addLeaf _

theorem Lacks.accessWrite (h : Lacks k o) (hnd : nd.key ≠ k)
    (hr : ORAM.accessWrite E j nd o = some o') : Lacks k o' := by
  rw [ORAM.accessWrite] at hr
  split at hr
  · obtain rfl := Option.some.inj hr
    exact (h.put hnd).addLeaf _
  · obtain ⟨o1, ho1, hr⟩ := Option.bind_eq_some_iff.mp hr
    obtain rfl := Option.some.inj hr
    exact ((h.fetchPath ho1).put hnd).addLeaf _

theorem Lacks.readNode {found : Bool} {lastLeaf newLeaf : Int} (h : Lacks k o)
    (hr : ORAM.readNode E j lastLeaf newLeaf o = some (o', found)) : Lacks k o' := by
  unfold ORAM.readNode at hr
  split at hr
  · exact (Prod.mk.inj (Option.some.inj hr)).1 ▸ h
  · split at hr
    · obtain ⟨⟨o1, found1⟩, ho1, hr⟩ := Option.bind_eq_some_iff.mp hr
      obtain ⟨rfl, -⟩ := Prod.mk.inj (Option.some.inj hr)
      have h1 := h.accessRead ho1
      split
      exacts [h1.modify _, h1]
    · obtain ⟨node, hnode, hr⟩ := Option.bind_eq_some_iff.mp hr
      obtain ⟨rfl, -⟩ := Prod.mk.inj (Option.some.inj hr)
      have hkey := h.cache hnode
      exact (h.modify j).put (by exact hkey)

theorem Lacks.writeNode (h : Lacks k o) (hnd : nd.key ≠ k)
    (hr : ORAM.writeNode E j nd o = some (pos, o')) : Lacks k o' := by
  unfold ORAM.writeNode at hr
  split at hr
  · cases hr
  · split at hr
    · obtain ⟨o1, ho1, hr⟩ := Option.bind_eq_some_iff.mp hr
      obtain ⟨-, rfl⟩ := Prod.mk.inj (Option.some.inj hr)
      exact (h.modify j).accessWrite hnd ho1
    · obtain ⟨-, rfl⟩ := Prod.mk.inj (Option.some.inj hr)
      exact h.modify j

/-! ## The end of an operation -/

theorem Lacks.pad {find : Bool} (h : Lacks k o) (hr : ORAM.pad E find o = some o') : Lacks k o' := by
  rw [ORAM.pad] at hr
  split at hr
  · exact Option.some.inj hr ▸ h
  · exact run_keeps (fun _ o => Lacks k o) h hr fun _ _ _ _ _ h hu =>
      ((h.randomPath E).addLeaf _).fetchPath hu

theorem Lacks.refreshNode (h : Lacks k o) (i : Nat) (j : Bid n) : Lacks k (ORAM.refreshNode E i o j) := by
  unfold ORAM.refreshNode
  cases hj : o.cache.lookup j with
  | none => exact h
  | some tmp =>
    have htmp := h.cache hj
    dsimp only
    split
    · split
      · refine Lacks.put (Lacks.put (h.randomPath E) ?_) ?_
        all_goals exact htmp
      · refine Lacks.put (Lacks.put h ?_) ?_
        all_goals exact htmp
    · exact h

theorem Lacks.refresh (h : Lacks k o) : Lacks k (ORAM.refresh E o) := by
  have hnodes : ∀ (i : Nat) (l : List (Bid n)) {o : ORAM n}, Lacks k o →
      Lacks k (l.foldl (ORAM.refreshNode E i) o) := by
    intro i l
    induction l with
    | nil => exact id
    | cons j l ih => exact fun h => ih (h.refreshNode i j)
  rw [ORAM.refresh]
  generalize List.range' 1 o.maxHeightOfAVLTree = heights
  induction heights generalizing o with
  | nil => exact h
  | cons i heights ih => exact ih (hnodes i _ ⟨h.cache, h.store⟩)

theorem Lacks.evict (h : Lacks k o) (hk : k.isZero = false) (hr : ORAM.evict E o = some o') :
    Lacks k o' := by
  obtain ⟨w, hw, rfl⟩ := Option.map_eq_some_iff.mp hr
  have hnull : (Bid.null : Bid n) ≠ k := by
    rintro rfl
    rw [isZero_null] at hk
    cases hk
  have := writePaths_all (Q := fun nd => nd.key ≠ k) hnull (h.all _) hw
  exact ⟨this.stash, this.store⟩

theorem Lacks.finish {find : Bool} {m m' : OMAP n} (h : Lacks k m.oram) (hk : k.isZero = false)
    (hr : OMAP.finish E find m = some m') : Lacks k m'.oram := by
  simp only [OMAP.finish, finilize, Option.bind_eq_bind, Option.bind_eq_some_iff, Option.pure_def,
    Option.some.injEq] at hr
  obtain ⟨⟨rootPos, o'⟩, ⟨o1, ho1, root, -, o2, ho2, hr⟩, rfl⟩ := hr
  obtain ⟨-, rfl⟩ := Prod.mk.inj hr
  exact ((h.pad ho1).refresh).evict hk ho2

theorem Lacks.finishSearch {m m' : OMAP n} (h : Lacks k m.oram) (hk : k.isZero = false)
    (hr : OMAP.finishSearch E m = some m') : Lacks k m'.oram := by
  rw [OMAP.finishSearch] at hr
  split at hr
  · obtain ⟨o1, ho1, hr⟩ := Option.bind_eq_some_iff.mp hr
    obtain ⟨o2, ho2, hr⟩ := Option.bind_eq_some_iff.mp hr
    obtain rfl := Option.some.inj hr
    exact ((h.pad ho1).refresh).evict hk ho2
  · exact h.finish hk hr

/-! ## The tree -/

theorem Lacks.height {b : Bid n} {l : Nat} (h : Lacks k o)
    (hr : AVLTree.height E b leaf o = some (l, o')) : Lacks k o' := by
  unfold AVLTree.height at hr
  split at hr
  · obtain ⟨-, rfl⟩ := Prod.mk.inj (Option.some.inj hr)
    exact h
  · simp only [Option.bind_eq_bind, Option.bind_eq_some_iff, Option.pure_def, Option.some.injEq,
      Prod.mk.injEq] at hr
    obtain ⟨⟨o1, found⟩, ho1, -, -, node, -, -, rfl⟩ := hr
    exact h.readNode ho1

theorem Lacks.updateHeight (h : Lacks k o) (hr : AVLTree.updateHeight E j o = some o') :
    Lacks k o' := by
  simp only [AVLTree.updateHeight, Option.bind_eq_bind, Option.bind_eq_some_iff] at hr
  obtain ⟨node, -, ⟨l, o1⟩, ho1, node', -, ⟨r, o2⟩, ho2, hr⟩ := hr
  exact ((h.height ho1).height ho2).setNode hr fun _ => rfl

theorem Lacks.rewrite (h : Lacks k o) (hr : AVLTree.rewrite E j o = some o') : Lacks k o' := by
  simp only [AVLTree.rewrite, Option.bind_eq_bind, Option.bind_eq_some_iff, Option.pure_def,
    Option.some.injEq] at hr
  obtain ⟨node, hnode, ⟨p, o1⟩, ho1, rfl⟩ := hr
  exact h.writeNode (h.cache hnode) ho1

theorem Lacks.grandchild {b T : Bid n} {p : Int} (h : Lacks k o)
    (hr : AVLTree.grandchild E b o = some (T, p, o')) : Lacks k o' := by
  unfold AVLTree.grandchild at hr
  split at hr
  · obtain ⟨-, hr⟩ := Prod.mk.inj (Option.some.inj hr)
    obtain ⟨-, rfl⟩ := Prod.mk.inj hr
    exact h.randomPath E
  · obtain ⟨T2, -, hr⟩ := Option.bind_eq_some_iff.mp hr
    obtain ⟨-, hr⟩ := Prod.mk.inj (Option.some.inj hr)
    obtain ⟨-, rfl⟩ := Prod.mk.inj hr
    exact h

theorem Lacks.rightRotate {b : Bid n} (h : Lacks k o)
    (hr : AVLTree.rightRotate E j o = some (b, o')) : Lacks k o' := by
  simp only [AVLTree.rightRotate, Option.bind_eq_bind, Option.bind_eq_some_iff, Option.pure_def,
    Option.some.injEq, Prod.mk.injEq] at hr
  obtain ⟨ynode, -, xnode, -, ⟨T, p, o1⟩, ho1, o2, ho2, o3, ho3, o4, ho4, o5, ho5, o6, ho6, o7, ho7,
    -, rfl⟩ := hr
  have h3 := ((h.grandchild ho1).setNode ho2 fun _ => rfl).setNode ho3 fun _ => rfl
  exact (((h3.updateHeight ho4).rewrite ho5).updateHeight ho6).rewrite ho7

theorem Lacks.leftRotate {b : Bid n} (h : Lacks k o)
    (hr : AVLTree.leftRotate E j o = some (b, o')) : Lacks k o' := by
  simp only [AVLTree.leftRotate, Option.bind_eq_bind, Option.bind_eq_some_iff, Option.pure_def,
    Option.some.injEq, Prod.mk.injEq] at hr
  obtain ⟨xnode, -, ynode, -, ⟨T, p, o1⟩, ho1, o2, ho2, o3, ho3, o4, ho4, o5, ho5, o6, ho6, o7, ho7,
    -, rfl⟩ := hr
  have h3 := ((h.grandchild ho1).setNode ho2 fun _ => rfl).setNode ho3 fun _ => rfl
  exact (((h3.updateHeight ho4).rewrite ho5).updateHeight ho6).rewrite ho7

theorem Lacks.result {r : Bid n × Int × ORAM n} (h : Lacks k o)
    (hr : AVLTree.result j o = some r) : Lacks k r.2.2 := by
  obtain ⟨nd, -, hr⟩ := Option.bind_eq_some_iff.mp hr
  obtain rfl := Option.some.inj hr
  exact h

theorem Lacks.rebalance {r : Bid n × Int × ORAM n} (h : Lacks k o)
    (hr : AVLTree.rebalance E j pos key o = some r) : Lacks k r.2.2 := by
  simp only [AVLTree.rebalance, AVLTree.getBalance, Option.bind_eq_bind, Option.bind_eq_some_iff,
    Option.pure_def, Option.some.injEq] at hr
  obtain ⟨o1, ho1, ⟨balance, o3⟩, ⟨node, -, ⟨l, o2⟩, ho2, node', -, ⟨m, o3'⟩, ho3, hbal⟩, nd, -, hr⟩ :=
    hr
  obtain ⟨-, rfl⟩ := Prod.mk.inj hbal
  have h3 := ((h.updateHeight ho1).height ho2).height ho3
  split at hr
  · obtain ⟨left, -, hr⟩ := Option.bind_eq_some_iff.mp hr
    split at hr
    · obtain ⟨⟨res, o4⟩, ho4, hr⟩ := Option.bind_eq_some_iff.mp hr
      exact (h3.rightRotate ho4).result hr
    · split at hr
      · simp only [Option.bind_eq_some_iff] at hr
        obtain ⟨⟨res, o4⟩, ho4, resnode, -, o5, ho5, o6, ho6, ⟨res2, o7⟩, ho7, hr⟩ := hr
        have h5 := (h3.leftRotate ho4).setNode ho5 fun _ => rfl
        exact ((h5.rewrite ho6).rightRotate ho7).result hr
      · obtain ⟨o4, ho4, hr⟩ := Option.bind_eq_some_iff.mp hr
        obtain rfl := Option.some.inj hr
        exact h3.rewrite ho4
  · split at hr
    · obtain ⟨right, -, hr⟩ := Option.bind_eq_some_iff.mp hr
      split at hr
      · obtain ⟨⟨res, o4⟩, ho4, hr⟩ := Option.bind_eq_some_iff.mp hr
        exact (h3.leftRotate ho4).result hr
      · split at hr
        · simp only [Option.bind_eq_some_iff] at hr
          obtain ⟨⟨res, o4⟩, ho4, resnode, -, o5, ho5, o6, ho6, ⟨res2, o7⟩, ho7, hr⟩ := hr
          have h5 := (h3.rightRotate ho4).setNode ho5 fun _ => rfl
          exact ((h5.rewrite ho6).leftRotate ho7).result hr
        · obtain ⟨o4, ho4, hr⟩ := Option.bind_eq_some_iff.mp hr
          obtain rfl := Option.some.inj hr
          exact h3.rewrite ho4
    · obtain ⟨o4, ho4, hr⟩ := Option.bind_eq_some_iff.mp hr
      obtain rfl := Option.some.inj hr
      exact h3.rewrite ho4

/-- **An insertion of another key.** -/
theorem Lacks.insertNode {value : Str} (hkey : key ≠ k) (fuel : Nat) : ∀ {rootKey : Bid n} {pos : Int}
    {o : ORAM n} {r : Bid n × Int × ORAM n}, Lacks k o →
    AVLTree.insert E fuel rootKey pos key value o = some r → Lacks k r.2.2 := by
  induction fuel with
  | zero => exact fun _ hr => by cases hr
  | succ fuel ih =>
    intro rootKey pos o r h hr
    unfold AVLTree.insert at hr
    split at hr
    · simp only [Option.bind_eq_bind, Option.bind_eq_some_iff, Option.pure_def] at hr
      obtain ⟨⟨o1, found⟩, ho1, -, -, node, -, hr⟩ := hr
      have h1 := h.readNode ho1
      split at hr
      · simp only [Option.bind_eq_some_iff] at hr
        obtain ⟨⟨id, p, o2⟩, ho2, o3, ho3, hr⟩ := hr
        exact ((ih h1 ho2).setNode ho3 fun _ => rfl).rebalance hr
      · split at hr
        · simp only [Option.bind_eq_some_iff] at hr
          obtain ⟨⟨id, p, o2⟩, ho2, o3, ho3, hr⟩ := hr
          exact ((ih h1 ho2).setNode ho3 fun _ => rfl).rebalance hr
        · simp only [Option.bind_eq_some_iff, Option.some.injEq] at hr
          obtain ⟨o2, ho2, o3, ho3, rfl⟩ := hr
          exact (h1.setNode ho2 fun _ => rfl).rewrite ho3
    · simp only [AVLTree.newNode, Option.bind_eq_bind, Option.bind_eq_some_iff, Option.pure_def,
        Option.some.injEq] at hr
      obtain ⟨⟨p, o1⟩, ho1, rfl⟩ := hr
      exact (h.randomPath E).writeNode hkey ho1

theorem Lacks.search (fuel : Nat) : ∀ {head : Bid n} {pos : Int} {o : ORAM n}
    {r : Option (Bid n) × ORAM n}, Lacks k o → AVLTree.search E fuel head pos key o = some r →
    Lacks k r.2 := by
  induction fuel with
  | zero => exact fun _ hr => by cases hr
  | succ fuel ih =>
    intro head pos o r h hr
    unfold AVLTree.search at hr
    split at hr
    · simp only [Option.bind_eq_bind, Option.bind_eq_some_iff, Option.pure_def] at hr
      obtain ⟨⟨o1, found⟩, ho1, -, -, node, -, hr⟩ := hr
      have h1 := h.readNode ho1
      split at hr
      · obtain ⟨⟨o2, found2⟩, ho2, hr⟩ := Option.bind_eq_some_iff.mp hr
        split at hr
        · obtain ⟨child, -, hr⟩ := Option.bind_eq_some_iff.mp hr
          exact ih (h1.readNode ho2) hr
        · exact Option.some.inj hr ▸ h1.readNode ho2
      · split at hr
        · obtain ⟨⟨o2, found2⟩, ho2, hr⟩ := Option.bind_eq_some_iff.mp hr
          split at hr
          · obtain ⟨child, -, hr⟩ := Option.bind_eq_some_iff.mp hr
            exact ih (h1.readNode ho2) hr
          · exact Option.some.inj hr ▸ h1.readNode ho2
        · exact Option.some.inj hr ▸ h1
    · exact Option.some.inj hr ▸ h

/-- An increment changes the key of no node. -/
def KeepsKey (f : Increment n) : Prop := ∀ nd res newval nd', f nd = some (res, newval, nd') →
  nd'.key = nd.key

theorem incrementFirst_keepsKey : KeepsKey (incrementFirst (n := n)) := by
  intro nd res newval nd' h
  simp only [incrementFirst, Option.bind_eq_bind, Option.bind_eq_some_iff, Option.pure_def,
    Option.some.injEq, Prod.mk.injEq] at h
  obtain ⟨_, -, _, -, -, -, -, -, rfl⟩ := h
  rfl

theorem incrementAwCnt_keepsKey : KeepsKey (Omap.incrementAwCnt (n := n)) := by
  intro nd res newval nd' h
  simp only [Omap.incrementAwCnt, Option.bind_eq_bind, Option.bind_eq_some_iff, Option.pure_def,
    Option.some.injEq, Prod.mk.injEq] at h
  obtain ⟨_, -, _, -, -, -, -, -, rfl⟩ := h
  rfl

theorem Lacks.bump {f : Increment n} {r : Str × ORAM n} (hf : KeepsKey f) (h : Lacks k o)
    (hr : bump E f key j o = some r) : Lacks k r.2 := by
  simp only [Omap.bump, Option.bind_eq_bind, Option.bind_eq_some_iff, Option.pure_def,
    Option.some.injEq] at hr
  obtain ⟨head, hhead, ⟨res, newval, nd⟩, hnd, o1, ho1, ⟨p, o2⟩, ho2, rfl⟩ := hr
  have hkey : nd.key ≠ k := hf _ _ _ _ hnd ▸ h.cache hhead
  obtain ⟨node, -, ho1⟩ := Option.bind_eq_some_iff.mp ho1
  obtain rfl := Option.some.inj ho1
  exact (h.put hkey).writeNode hkey ho2

/-- **An increment** keeps what is lacking, and finds nothing under such a key. -/
theorem Lacks.increment {below : Increment n} (hbelow : KeepsKey below) (fuel : Nat) :
    ∀ {f : Increment n} {head : Bid n} {pos : Int} {o : ORAM n} {r : Str × ORAM n}, KeepsKey f →
    Lacks k o → AVLTree.increment E below f fuel head pos key o = some r →
    Lacks k r.2 ∧ (key = k → r.1 = []) := by
  induction fuel with
  | zero => exact fun _ _ hr => by cases hr
  | succ fuel ih =>
    intro f head pos o r hf h hr
    unfold AVLTree.increment at hr
    split at hr
    · simp only [Option.bind_eq_bind, Option.bind_eq_some_iff, Option.pure_def] at hr
      obtain ⟨⟨o1, found⟩, ho1, -, -, node, hnode, hr⟩ := hr
      have h1 := h.readNode ho1
      split at hr
      · obtain ⟨⟨o2, found2⟩, ho2, hr⟩ := Option.bind_eq_some_iff.mp hr
        split at hr
        · obtain ⟨child, -, hr⟩ := Option.bind_eq_some_iff.mp hr
          exact ih hbelow (h1.readNode ho2) hr
        · obtain rfl := Option.some.inj hr
          exact ⟨h1.readNode ho2, fun _ => rfl⟩
      · split at hr
        · obtain ⟨⟨o2, found2⟩, ho2, hr⟩ := Option.bind_eq_some_iff.mp hr
          split at hr
          · obtain ⟨child, -, hr⟩ := Option.bind_eq_some_iff.mp hr
            exact ih hbelow (h1.readNode ho2) hr
          · obtain rfl := Option.some.inj hr
            exact ⟨h1.readNode ho2, fun _ => rfl⟩
        · next hlt hgt =>
          refine ⟨h1.bump hf hr, fun hk => ?_⟩
          exact absurd ((le_antisymm (not_lt.mp hlt) (not_lt.mp hgt)).trans hk) (h1.cache hnode)
    · obtain rfl := Option.some.inj hr
      exact ⟨h, fun _ => rfl⟩

/-! ## The OMAP -/

variable {m m' : OMAP n} {value res : Str} {fuel : Nat}

theorem Lacks.insert (h : Lacks k m.oram) (hk : k.isZero = false) (hkey : key ≠ k)
    (hr : OMAP.insert E fuel key value m = some m') : Lacks k m'.oram := by
  simp only [OMAP.insert, OMAP.insertOne, Option.bind_eq_bind, Option.bind_eq_some_iff,
    Option.pure_def, Option.some.injEq] at hr
  obtain ⟨m1, ⟨⟨id, p, o⟩, ho, rfl⟩, hr⟩ := hr
  exact Lacks.finish ((h.start false).insertNode hkey fuel ho) hk hr

theorem Lacks.find (h : Lacks k m.oram) (hk : k.isZero = false)
    (hr : OMAP.find E fuel key m = some (res, m')) : Lacks k m'.oram := by
  rw [OMAP.find] at hr
  split at hr
  · obtain ⟨-, rfl⟩ := Prod.mk.inj (Option.some.inj hr)
    exact h
  · obtain ⟨⟨resNode, o⟩, ho, hr⟩ := Option.bind_eq_some_iff.mp hr
    have hdone : OMAP.finish E true ⟨m.rootKey, m.rootPos, o⟩ = some m' := by
      cases resNode with
      | none =>
        obtain ⟨_, -, hr⟩ := Option.bind_eq_some_iff.mp hr
        obtain ⟨⟨p, o'⟩, hfin, hr⟩ := Option.bind_eq_some_iff.mp hr
        obtain ⟨-, rfl⟩ := Prod.mk.inj (Option.some.inj hr)
        rw [OMAP.finish, hfin]
        rfl
      | some id =>
        obtain ⟨_, -, hr⟩ := Option.bind_eq_some_iff.mp hr
        obtain ⟨⟨p, o'⟩, hfin, hr⟩ := Option.bind_eq_some_iff.mp hr
        obtain ⟨-, rfl⟩ := Prod.mk.inj (Option.some.inj hr)
        rw [OMAP.finish, hfin]
        rfl
    exact Lacks.finish ((h.start false).search fuel ho) hk hdone

theorem Lacks.incrementSrcCnt (h : Lacks k m.oram) (hk : k.isZero = false)
    (hr : OMAP.incrementSrcCnt E fuel key m = some (res, m')) :
    Lacks k m'.oram ∧ (key = k → res = []) := by
  simp only [OMAP.incrementSrcCnt, Option.bind_eq_bind, Option.bind_eq_some_iff, Option.pure_def,
    Option.some.injEq, Prod.mk.injEq] at hr
  obtain ⟨⟨res', o⟩, ho, m1, hm1, rfl, rfl⟩ := hr
  obtain ⟨h1, h2⟩ := (h.start false).increment incrementFirst_keepsKey fuel incrementFirst_keepsKey ho
  exact ⟨Lacks.finishSearch (m := ⟨m.rootKey, m.rootPos, o⟩) h1 hk hm1, h2⟩

theorem Lacks.incrementAwCnt (h : Lacks k m.oram) (hk : k.isZero = false) (hkey : key ≠ k)
    (hr : OMAP.incrementAwCnt E fuel key m = some (res, m')) : Lacks k m'.oram := by
  obtain ⟨⟨res', o⟩, ho, hr⟩ := Option.bind_eq_some_iff.mp hr
  obtain ⟨h1, -⟩ := (h.start false).increment incrementFirst_keepsKey fuel incrementAwCnt_keepsKey ho
  dsimp only at hr
  split at hr
  · obtain ⟨⟨id, p, o1⟩, ho1, hr⟩ := Option.bind_eq_some_iff.mp hr
    simp only [Option.pure_def, Option.bind_eq_bind, Option.bind_some] at hr
    obtain ⟨m1, hm1, hr⟩ := Option.bind_eq_some_iff.mp hr
    obtain ⟨-, rfl⟩ := Prod.mk.inj (Option.some.inj hr)
    exact Lacks.finish (h1.insertNode hkey fuel ho1) hk hm1
  · simp only [Option.pure_def, Option.bind_eq_bind, Option.bind_some] at hr
    obtain ⟨m1, hm1, hr⟩ := Option.bind_eq_some_iff.mp hr
    obtain ⟨-, rfl⟩ := Prod.mk.inj (Option.some.inj hr)
    exact Lacks.finish h1 hk hm1

theorem Stored.lacks {V : Bid n → Option (Node n)} {t : Tree n} (h : Stored E V t m)
    (hk : real E k = true) (hnot : k ∉ keys t) : Lacks k m.oram := by
  have hV : ∀ {nd}, nd.key = k → V nd.key ≠ some nd := fun e hV => by
    exact hnot (e ▸ h.dom _ (by simp [hV]))
  refine ⟨fun {j nd} hj e => ?_, fun {i nd} hi e => ?_⟩
  · obtain rfl := h.rest.keeps.keyed hj
    exact hV e (h.rest.keeps.stashed hj (e ▸ hk))
  · exact hV e (h.rest.keeps.stored (fun h => h) hi (e ▸ hk)).1

theorem lacks_init (hk : k.isZero = false) (depth maxHeight : Nat) :
    Lacks k (OMAP.init (n := n) depth maxHeight).oram := by
  refine ⟨fun {j nd} hj => ?_, fun {i nd} hnd e => ?_⟩
  · rw [show (OMAP.init (n := n) depth maxHeight).oram.cache = ∅ from rfl, AList.lookup_empty] at hj
    cases hj
  · obtain rfl := List.eq_of_mem_replicate hnd
    rw [← e, show (Node.dummy n).key.isZero = true from isZero_null] at hk
    cases hk

end SmallClientSSE.Omap
