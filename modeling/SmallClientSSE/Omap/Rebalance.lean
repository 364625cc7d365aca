import SmallClientSSE.Omap.Links

/-!
# Rebalancing in the memory

What `insert` does after the recursive call, against `AVL.rebalance`. A rotation
needs nodes that the call below has touched (`Warm`), so the only new nodes are
the children of the root. `Upward` says that the nodes touched form paths from the
root, which the position updates at the end of an operation rely on.
-/

namespace SmallClientSSE.Omap

open Lib ORAM BinaryTree

variable {n : Nat}

/-- Along the way to a key, both children of every node are in `D`. -/
def Warm (D : List (Bid n)) (key : Bid n) : Tree n → Prop
  | .nil => True
  | .node e l r => (∀ k ∈ top l, k ∈ D) ∧ (∀ k ∈ top r, k ∈ D) ∧
      (key < e.key → Warm D key l) ∧ (e.key < key → Warm D key r)

/-- The parent of a node of `D` is in `D`. -/
def Upward (D : List (Bid n)) : Tree n → Prop
  | .nil => True
  | .node e l r => (∀ k ∈ top l, k ∈ D → e.key ∈ D) ∧ (∀ k ∈ top r, k ∈ D → e.key ∈ D) ∧
      Upward D l ∧ Upward D r

/-- The leaves drawn for `T2` in both rotations of a double one. -/
def spares : Tree n → Nat
  | .nil => 0
  | .node _ a b => spare a + spare b

/-- The leaves drawn by `rebalance`. -/
def turnDraws (key : Bid n) (l r : Tree n) : Nat :=
  let balance : Int := (AVL.height l : Int) - AVL.height r
  if balance > 1 then match l with
    | .nil => 0
    | .node e _ b => if key < e.key then spare b else if e.key < key then spares b else 0
  else if balance < -1 then match r with
    | .nil => 0
    | .node e a _ => if e.key < key then spare a else if key < e.key then spares a else 0
  else 0

section

variable {D D' : List (Bid n)} {key : Bid n} {e : AVL.Entry (Bid n) (Buf 16)} {l r t : Tree n}

theorem Warm.mono (hD : ∀ k ∈ D, k ∈ D') : ∀ {t : Tree n}, Warm D key t → Warm D' key t
  | .nil, _ => trivial
  | .node _ _ _, ⟨h1, h2, h3, h4⟩ => ⟨fun k hk => hD k (h1 k hk), fun k hk => hD k (h2 k hk),
      fun h => (h3 h).mono hD, fun h => (h4 h).mono hD⟩

theorem Upward.node (he : e.key ∈ D) (hl : Upward D l) (hr : Upward D r) :
    Upward D (.node e l r) := ⟨fun _ _ _ => he, fun _ _ _ => he, hl, hr⟩

theorem Upward.grow (hD : ∀ k ∈ D, k ∈ D') : ∀ {t : Tree n}, (keys t).Nodup → Upward D t →
    (∀ k ∈ keys t, k ∈ D' → k ∈ D ∨ k ∈ top t) → Upward D' t
  | .nil, _, _, _ => trivial
  | .node e l r, hnd, ⟨h1, h2, h3, h4⟩, hnew => by
    obtain ⟨hndl, hndr, hel, her, -⟩ := nodup_node hnd
    have hl : ∀ k ∈ keys l, k ∈ D' → k ∈ D := fun k hk hk' =>
      (hnew k (by simp [hk]) hk').resolve_right fun h => hel (mem_top_node.mp h ▸ hk)
    have hr : ∀ k ∈ keys r, k ∈ D' → k ∈ D := fun k hk hk' =>
      (hnew k (by simp [hk]) hk').resolve_right fun h => her (mem_top_node.mp h ▸ hk)
    exact ⟨fun k hk hk' => hD _ (h1 k hk (hl k (mem_keys_of_top hk) hk')),
      fun k hk hk' => hD _ (h2 k hk (hr k (mem_keys_of_top hk) hk')),
      h3.grow hD hndl fun k hk hk' => .inl (hl k hk hk'),
      h4.grow hD hndr fun k hk hk' => .inl (hr k hk hk')⟩

end

section

variable {E : Env n} {P : Bid n → Int} {V : Bid n → Option (Node n)} {o o' : ORAM n}
  {id key : Bid n} {pos : Int} {e ex ey : AVL.Entry (Bid n) (Buf 16)} {a b l r t u : Tree n}

theorem result_eq (h : Mid E P V o) (hr : Repr V id pos (.node e l r)) (hk : id ∈ o.modified) :
    AVLTree.result id o = some (id, pos, o) := by
  obtain ⟨nd, hV, rfl, -⟩ := hr
  simp [AVLTree.result, lookup_cached h hV hk, h.key hV]

theorem Upward.next {V' : Bid n → Option (Node n)} {c d : Nat} (h : Does E P V' o o' ∅ c d)
    (hnd : (keys t).Nodup) (ht : Upward o.modified t) : Upward o'.modified t :=
  ht.grow (fun _ hk => h.kept hk) hnd fun k _ hk =>
    .inl (((h.modified k).mp hk).resolve_left (fun h => h))

/-- What rebalancing the node `id` to `u` establishes. -/
structure Rebalanced (E : Env n) (P : Bid n → Int) (V : Bid n → Option (Node n)) (o : ORAM n)
    (l : List (Bid n)) (u : Tree n) (id' : Bid n) (V' : Bid n → Option (Node n)) (o' : ORAM n)
    (d : Nat) : Prop where
  does : Does E P V' o o' ∅ 0 d
  frame : ∀ k, k ∉ l → V' k = V k
  repr : Repr V' id' (P id') u
  top : ∀ k ∈ top u, k ∈ o'.modified
  upward : Upward o'.modified u

theorem turnRight_spec (h : Mid E P V o) (hr : Repr V id pos (.node e (.node ex a b) r))
    (hnd : (keys (.node e (.node ex a b) r)).Nodup) (hid : id ∈ o.modified)
    (hx : ex.key ∈ o.modified) (ha : ∀ k ∈ top a, k ∈ o.modified)
    (hb : ∀ k ∈ top b, k ∈ o.modified) (hrt : ∀ k ∈ top r, k ∈ o.modified)
    (hua : Upward o.modified a) (hub : Upward o.modified b) (hur : Upward o.modified r) :
    ∃ V' o', (AVLTree.rightRotate E id o).bind (fun p => AVLTree.result p.1 p.2) =
        some (ex.key, P ex.key, o') ∧
      Rebalanced E P V o (keys (.node e (.node ex a b) r)) (AVL.update ex a (AVL.update e b r))
        ex.key V' o' (spare b) := by
  obtain ⟨V', o', ho, hn, hV', hr'⟩ := rightRotate_spec h hr hnd hid hx hb
  replace hn : Does E P V' o o' ∅ 0 (spare b) := hn.as h fun k => by
    have h1 := ha k
    have h2 := hrt k
    simp only [Set.mem_union, Set.mem_empty_iff_false]
    tauto
  obtain ⟨hndl, hndr, -, -, -⟩ := nodup_node hnd
  obtain ⟨hnda, hndb, -, -, -⟩ := nodup_node hndl
  have hide : e.key = id := by
    obtain ⟨nd, -, -, rfl, -⟩ := hr
    rfl
  refine ⟨V', o', ?_, hn, fun k hk => hV' k ?_ ?_, hr', fun k hk => ?_, ?_⟩
  · simp only [ho, Option.bind_some, result_eq hn.mid hr' (hn.kept hx)]
  · rintro rfl
    simp [hide] at hk
  · rintro rfl
    simp at hk
  · rw [mem_top_update.mp hk]
    exact hn.kept hx
  · exact .node (hn.kept hx) (hua.next hn hnda)
      (.node (hn.kept (hide ▸ hid)) (hub.next hn hndb) (hur.next hn hndr))

theorem turnLeft_spec (h : Mid E P V o) (hr : Repr V id pos (.node e l (.node ey a b)))
    (hnd : (keys (.node e l (.node ey a b))).Nodup) (hid : id ∈ o.modified)
    (hy : ey.key ∈ o.modified) (ha : ∀ k ∈ top a, k ∈ o.modified)
    (hb : ∀ k ∈ top b, k ∈ o.modified) (hlt : ∀ k ∈ top l, k ∈ o.modified)
    (hua : Upward o.modified a) (hub : Upward o.modified b) (hul : Upward o.modified l) :
    ∃ V' o', (AVLTree.leftRotate E id o).bind (fun p => AVLTree.result p.1 p.2) =
        some (ey.key, P ey.key, o') ∧
      Rebalanced E P V o (keys (.node e l (.node ey a b))) (AVL.update ey (AVL.update e l a) b)
        ey.key V' o' (spare a) := by
  obtain ⟨V', o', ho, hn, hV', hr'⟩ := leftRotate_spec h hr hnd hid hy ha
  replace hn : Does E P V' o o' ∅ 0 (spare a) := hn.as h fun k => by
    have h1 := hb k
    have h2 := hlt k
    simp only [Set.mem_union, Set.mem_empty_iff_false]
    tauto
  obtain ⟨hndl, hndr, -, -, -⟩ := nodup_node hnd
  obtain ⟨hnda, hndb, -, -, -⟩ := nodup_node hndr
  have hide : e.key = id := by
    obtain ⟨nd, -, -, rfl, -⟩ := hr
    rfl
  refine ⟨V', o', ?_, hn, fun k hk => hV' k ?_ ?_, hr', fun k hk => ?_, ?_⟩
  · simp only [ho, Option.bind_some, result_eq hn.mid hr' (hn.kept hy)]
  · rintro rfl
    simp [hide] at hk
  · rintro rfl
    simp at hk
  · rw [mem_top_update.mp hk]
    exact hn.kept hy
  · exact .node (hn.kept hy)
      (.node (hn.kept (hide ▸ hid)) (hul.next hn hndl) (hua.next hn hnda)) (hub.next hn hndb)

/-- A left rotation of the left child, then a right rotation. -/
theorem turnLeftRight_spec (h : Mid E P V o)
    (hr : Repr V id pos (.node e (.node ex a (.node ey b c)) r))
    (hnd : (keys (.node e (.node ex a (.node ey b c)) r)).Nodup) (hid : id ∈ o.modified)
    (hx : ex.key ∈ o.modified) (hy : ey.key ∈ o.modified) (ha : ∀ k ∈ top a, k ∈ o.modified)
    (hb : ∀ k ∈ top b, k ∈ o.modified) (hc : ∀ k ∈ top c, k ∈ o.modified)
    (hrt : ∀ k ∈ top r, k ∈ o.modified) (hua : Upward o.modified a) (hub : Upward o.modified b)
    (huc : Upward o.modified c) (hur : Upward o.modified r) :
    ∃ V' o', (do
        let (res, o) ← AVLTree.leftRotate E ex.key o
        let resnode ← o.cache.lookup res
        let o ← setNode id (fun node => { node with
          leftID := resnode.key
          leftPos := resnode.pos }) o
        let o ← AVLTree.rewrite E id o
        let (res2, o) ← AVLTree.rightRotate E id o
        AVLTree.result res2 o) = some (ey.key, P ey.key, o') ∧
      Rebalanced E P V o (keys (.node e (.node ex a (.node ey b c)) r))
        (AVL.update ey (AVL.update ex a b) (AVL.update e c r)) ey.key V' o' (spare b + spare c) := by
  obtain ⟨hndl, hndr, hel, her, hlr⟩ := nodup_node hnd
  obtain ⟨nd, hV, rfl, rfl, hl, hrr⟩ := hr
  dsimp only at hel her
  have hx' : nd.leftID = ex.key := by
    obtain ⟨xnd, -, -, rfl, -⟩ := hl
    rfl
  obtain ⟨V1, o1, ho1, hn1, hV1, hr1⟩ := leftRotate_spec h hl hndl (hx' ▸ hx) hy hb
  replace hn1 : Does E P V1 o o1 ∅ 0 (spare b) := hn1.as h fun k => by
    have h1 := ha k
    have h2 := hc k
    simp only [Set.mem_union, Set.mem_empty_iff_false]
    tauto
  have hkeys : keys (AVL.update ey (AVL.update ex a b) c) = keys (.node ex a (.node ey b c)) := by
    simp
  have hout : ∀ {j}, j ∉ keys (.node ex a (.node ey b c)) → V1 j = V j := fun {j} hj =>
    hV1 j (fun e => hj (by simp [e, hx'])) fun e => hj (by simp [e])
  have ⟨ynd, hVy, hpy, _⟩ := hr1
  obtain ⟨V2, o2, ho2, hn2, hid2, hV2⟩ := setNode_spec hn1.mid ((hout hel).trans hV)
    (hn1.mid.touched id (hn1.kept hid))
    (fun node => { node with leftID := ynd.key, leftPos := ynd.pos }) rfl rfl
  have hn12 := hn1.trans hn2
  rw [Set.union_empty] at hn12
  have hr2 : Repr V2 id nd.pos (.node ⟨id, nd.value, nd.height⟩
      (AVL.update ey (AVL.update ex a b) c) r) := by
    refine ⟨_, hid2, rfl, rfl, ?_, ?_⟩
    · rw [hn1.mid.key hVy, hpy]
      exact hr1.congr fun j hj => hV2 j fun e => hel (by rw [← hkeys, ← e]; exact hj)
    · exact hrr.congr fun j hj => (hV2 j fun e => her (e ▸ hj)).trans
        (hout fun hj' => hlr j hj' hj)
  have hnd2 : keys (.node ⟨id, nd.value, nd.height⟩ (AVL.update ey (AVL.update ex a b) c) r) =
      keys (.node ⟨id, nd.value, nd.height⟩ (.node ex a (.node ey b c)) r) := by
    simp
  obtain ⟨hnda, hndyc, -, -, -⟩ := nodup_node hndl
  obtain ⟨hndb, hndc, -, -, -⟩ := nodup_node hndyc
  obtain ⟨V3, o3, ho3, hd⟩ := turnRight_spec hn2.mid hr2 (hnd2 ▸ hnd) (hn12.kept hid)
    (hn12.kept hy) (fun k hk => by rw [mem_top_update.mp hk]; exact hn12.kept hx)
    (fun k hk => hn12.kept (hc k hk)) (fun k hk => hn12.kept (hrt k hk))
    (.node (hn12.kept hx) (hua.next hn12 hnda) (hub.next hn12 hndb)) (huc.next hn12 hndc)
    (hur.next hn12 hndr)
  have hn := hn12.trans hd.does
  rw [Set.union_empty] at hn
  refine ⟨V3, o3, ?_, hn, fun k hk => ?_, hd.repr, hd.top, hd.upward⟩
  · simp only [← hx', ho1, lookup_cached hn1.mid hVy (hn1.kept hy), ho2,
      rewrite_eq hn2.mid hid2 (hn12.kept hid), Option.bind_eq_bind, Option.bind_some]
    exact ho3
  · have hk2 := hd.frame k fun hk' => hk (by rw [← hnd2]; exact hk')
    rw [hk2, hV2 k fun e => hk (by simp [e])]
    refine hout fun hj => hk ?_
    rw [keys_node]
    exact List.mem_append_left _ hj

/-- A right rotation of the right child, then a left rotation. -/
theorem turnRightLeft_spec (h : Mid E P V o)
    (hr : Repr V id pos (.node e l (.node ey (.node ex a b) c)))
    (hnd : (keys (.node e l (.node ey (.node ex a b) c))).Nodup) (hid : id ∈ o.modified)
    (hy : ey.key ∈ o.modified) (hx : ex.key ∈ o.modified) (ha : ∀ k ∈ top a, k ∈ o.modified)
    (hb : ∀ k ∈ top b, k ∈ o.modified) (hc : ∀ k ∈ top c, k ∈ o.modified)
    (hlt : ∀ k ∈ top l, k ∈ o.modified) (hua : Upward o.modified a) (hub : Upward o.modified b)
    (huc : Upward o.modified c) (hul : Upward o.modified l) :
    ∃ V' o', (do
        let (res, o) ← AVLTree.rightRotate E ey.key o
        let resnode ← o.cache.lookup res
        let o ← setNode id (fun node => { node with
          rightID := resnode.key
          rightPos := resnode.pos }) o
        let o ← AVLTree.rewrite E id o
        let (res2, o) ← AVLTree.leftRotate E id o
        AVLTree.result res2 o) = some (ex.key, P ex.key, o') ∧
      Rebalanced E P V o (keys (.node e l (.node ey (.node ex a b) c)))
        (AVL.update ex (AVL.update e l a) (AVL.update ey b c)) ex.key V' o' (spare b + spare a) := by
  obtain ⟨hndl, hndr, hel, her, hlr⟩ := nodup_node hnd
  obtain ⟨nd, hV, rfl, rfl, hll, hr⟩ := hr
  dsimp only at hel her
  have hy' : nd.rightID = ey.key := by
    obtain ⟨ynd, -, -, rfl, -⟩ := hr
    rfl
  obtain ⟨V1, o1, ho1, hn1, hV1, hr1⟩ := rightRotate_spec h hr hndr (hy' ▸ hy) hx hb
  replace hn1 : Does E P V1 o o1 ∅ 0 (spare b) := hn1.as h fun k => by
    have h1 := ha k
    have h2 := hc k
    simp only [Set.mem_union, Set.mem_empty_iff_false]
    tauto
  have hkeys : keys (AVL.update ex a (AVL.update ey b c)) = keys (.node ey (.node ex a b) c) := by
    simp
  have hout : ∀ {j}, j ∉ keys (.node ey (.node ex a b) c) → V1 j = V j := fun {j} hj =>
    hV1 j (fun e => hj (by simp [e, hy'])) fun e => hj (by simp [e])
  have ⟨xnd, hVx, hpx, _⟩ := hr1
  obtain ⟨V2, o2, ho2, hn2, hid2, hV2⟩ := setNode_spec hn1.mid ((hout her).trans hV)
    (hn1.mid.touched id (hn1.kept hid))
    (fun node => { node with rightID := xnd.key, rightPos := xnd.pos }) rfl rfl
  have hn12 := hn1.trans hn2
  rw [Set.union_empty] at hn12
  have hr2 : Repr V2 id nd.pos (.node ⟨id, nd.value, nd.height⟩ l
      (AVL.update ex a (AVL.update ey b c))) := by
    refine ⟨_, hid2, rfl, rfl, ?_, ?_⟩
    · exact hll.congr fun j hj => (hV2 j fun e => hel (e ▸ hj)).trans (hout fun hj' => hlr j hj hj')
    · rw [hn1.mid.key hVx, hpx]
      exact hr1.congr fun j hj => hV2 j fun e => her (by rw [← hkeys, ← e]; exact hj)
  have hnd2 : keys (.node ⟨id, nd.value, nd.height⟩ l (AVL.update ex a (AVL.update ey b c))) =
      keys (.node ⟨id, nd.value, nd.height⟩ l (.node ey (.node ex a b) c)) := by
    simp
  obtain ⟨hndx, hndc, -, -, -⟩ := nodup_node hndr
  obtain ⟨hnda, hndb, -, -, -⟩ := nodup_node hndx
  obtain ⟨V3, o3, ho3, hd⟩ := turnLeft_spec hn2.mid hr2 (hnd2 ▸ hnd) (hn12.kept hid)
    (hn12.kept hx) (fun k hk => hn12.kept (ha k hk))
    (fun k hk => by rw [mem_top_update.mp hk]; exact hn12.kept hy)
    (fun k hk => hn12.kept (hlt k hk)) (hua.next hn12 hnda)
    (.node (hn12.kept hy) (hub.next hn12 hndb) (huc.next hn12 hndc)) (hul.next hn12 hndl)
  have hn := hn12.trans hd.does
  rw [Set.union_empty] at hn
  refine ⟨V3, o3, ?_, hn, fun k hk => ?_, hd.repr, hd.top, hd.upward⟩
  · simp only [← hy', ho1, lookup_cached hn1.mid hVx (hn1.kept hx), ho2,
      rewrite_eq hn2.mid hid2 (hn12.kept hid), Option.bind_eq_bind, Option.bind_some]
    exact ho3
  · have hk2 := hd.frame k fun hk' => hk (by rw [← hnd2]; exact hk')
    rw [hk2, hV2 k fun e => hk (by simp [e])]
    refine hout fun hj => hk ?_
    rw [keys_node]
    exact List.mem_append_right _ (List.mem_cons_of_mem _ hj)

/-- **Rebalancing** a cached node. -/
theorem rebalance_spec (h : Mid E P V o) (hr : Repr V id pos (.node e l r))
    (hnd : (keys (.node e l r)).Nodup) (hid : id ∈ o.modified)
    (hwl : AVL.height r + 1 < AVL.height l → Warm o.modified key l)
    (hwr : AVL.height l + 1 < AVL.height r → Warm o.modified key r)
    (hul : Upward o.modified l) (hur : Upward o.modified r)
    (hu : AVL.rebalance key e l r = some u) :
    ∃ V' o' id', AVLTree.rebalance E id pos key o = some (id', P id', o') ∧
      Does E P V' o o' (top l ∪ top r) 0 (turnDraws key l r) ∧
      (∀ k, k ∉ keys (.node e l r) → V' k = V k) ∧
      Repr V' id' (P id') u ∧ (∀ k ∈ top u, k ∈ o'.modified) ∧ Upward o'.modified u := by
  obtain ⟨hndl, hndr, hel, her, hlr⟩ := nodup_node hnd
  obtain ⟨nd, hV, rfl, rfl, hl, hr⟩ := hr
  dsimp only at hel her
  obtain ⟨V1, o1, ho1, hw1, hn1, hV1, hr1⟩ := updateHeight_spec h hV hid hl hr hel her
  have hrepr := hr1
  obtain ⟨nd1, hV1', hp1, he1, hl1, hrr1⟩ := hrepr
  obtain ⟨o2, ho2, hn2⟩ := getBalance_spec hn1.mid hV1' (hn1.kept hid) hl1 hrr1
  have hn : Next E P V1 o o2 (top l ∪ top r) := (hn1.trans hn2).as h fun k => by simp
  have hm := hn.mid
  have hid2 := hn.kept hid
  have hlook := lookup_cached hm hV1' hid2
  have htl : ∀ k ∈ top l, k ∈ o2.modified := fun k hk => hn.mem (.inl hk)
  have htr : ∀ k ∈ top r, k ∈ o2.modified := fun k hk => hn.mem (.inr hk)
  -- the children are new, and what is below them is not
  have hul2 : Upward o2.modified l := hul.grow (fun _ => hn.kept) hndl fun k hk hk' => by
    rcases (hn.modified k).mp hk' with (hk' | hk') | hk'
    exacts [.inr hk', absurd (mem_keys_of_top hk') (hlr k hk), .inl hk']
  have hur2 : Upward o2.modified r := hur.grow (fun _ => hn.kept) hndr fun k hk hk' => by
    rcases (hn.modified k).mp hk' with (hk' | hk') | hk'
    exacts [absurd hk (hlr k (mem_keys_of_top hk')), .inr hk', .inl hk']
  have hdone : ∀ {l' id' V' o' d}, l' = keys (.node ⟨id, nd.value, nd.height⟩ l r) →
      turnDraws key l r = d → Rebalanced E P V1 o2 l' u id' V' o' d →
      Does E P V' o o' (top l ∪ top r) 0 (turnDraws key l r) ∧
        (∀ k, k ∉ keys (.node ⟨id, nd.value, nd.height⟩ l r) → V' k = V k) ∧
        Repr V' id' (P id') u ∧ (∀ k ∈ top u, k ∈ o'.modified) ∧ Upward o'.modified u := by
    rintro l' id' V' o' d rfl rfl hd
    have hall := (hn.trans hd.does).of_eq (Set.union_empty _)
    rw [Nat.zero_add, Nat.zero_add] at hall
    refine ⟨hall, fun k hk => ?_, hd.repr, hd.top, hd.upward⟩
    rw [hd.frame k hk, hV1 k fun e => hk (by simp [e])]
  have hlevel : u = AVL.update ⟨id, nd.value, nd.height⟩ l r →
      Rebalanced E P V1 o2 (keys (.node ⟨id, nd.value, nd.height⟩ l r)) u id V1 o2 0 := by
    rintro rfl
    refine ⟨Next.refl hm, fun _ _ => rfl, h.place hV ▸ hr1, fun k hk => ?_, .node hid2 hul2 hur2⟩
    rw [mem_top_update.mp hk]
    exact hid2
  have hkeys : keys (AVL.update ⟨id, nd.value, nd.height⟩ l r) =
      keys (.node ⟨id, nd.value, nd.height⟩ l r) := by simp
  have hnd' := hkeys ▸ hnd
  have hpos : nd.pos = P id := h.place hV
  have hkey : nd1.key = id := hm.key hV1'
  unfold AVL.rebalance at hu
  simp only at hu
  simp only [AVLTree.rebalance, ho1, ho2, hlook, Option.bind_eq_bind, Option.bind_some]
  split at hu
  · next hbal =>
    rw [if_pos hbal]
    cases l with
    | nil => exact absurd hbal (by simp [AVL.height])
    | node ex a b =>
      obtain ⟨wa, wb, wl, wr⟩ := hwl (by omega)
      have hleft := hl1
      obtain ⟨lnd, hVl, -, hex, -⟩ := hleft
      have hx : nd1.leftID = ex.key := by rw [hex]
      have hxm : ex.key ∈ o2.modified := htl ex.key (by simp)
      rw [hx] at hVl
      simp only [hx, readNodeFromCache_eq hm hVl hxm, Option.bind_some, hm.key hVl]
      simp only [AVL.rootKey, Option.bind_eq_bind, Option.bind_some] at hu
      split at hu
      · next hk =>
        rw [if_pos hk]
        obtain rfl := Option.some.inj hu
        obtain ⟨V', o', ho', hd⟩ := turnRight_spec hm hr1 hnd' hid2 hxm
          (fun k hk => hn.kept (wa k hk)) (fun k hk => hn.kept (wb k hk)) htr hul2.2.2.1 hul2.2.2.2
          hur2
        exact ⟨V', o', ex.key, ho', hdone hkeys (by simp [turnDraws, hbal, hk]) hd⟩
      · next hk =>
        rw [if_neg hk]
        split at hu
        · next hk' =>
          rw [if_pos hk']
          cases b with
          | nil => cases hu
          | node ey c d =>
            obtain ⟨wc, wd, -, -⟩ := wr hk'
            obtain rfl := Option.some.inj hu
            obtain ⟨-, -, hua, -, -, huc, hud⟩ := hul2
            obtain ⟨V', o', ho', hd⟩ := turnLeftRight_spec hm hr1 hnd' hid2 hxm
              (hn.kept (wb _ (by simp))) (fun k hk => hn.kept (wa k hk))
              (fun k hk => hn.kept (wc k hk)) (fun k hk => hn.kept (wd k hk)) htr hua huc hud hur2
            exact ⟨V', o', ey.key, ho', hdone hkeys (by simp [turnDraws, hbal, hk, hk', spares]) hd⟩
        · next hk' =>
          rw [if_neg hk']
          simp only [rewrite_eq hm hV1' hid2, Option.bind_some, hkey, hpos, Option.pure_def]
          exact ⟨V1, o2, id, rfl, hdone rfl (by simp [turnDraws, hbal, hk, hk'])
            (hlevel (Option.some.inj hu).symm)⟩
  · next hbal =>
    rw [if_neg hbal]
    split at hu
    · next hbal' =>
      rw [if_pos hbal']
      cases r with
      | nil => exact absurd hbal' (by simp [AVL.height])
      | node ey a b =>
        obtain ⟨wa, wb, wl, wr⟩ := hwr (by omega)
        have hright := hrr1
        obtain ⟨rnd, hVr, -, hey, -⟩ := hright
        have hy : nd1.rightID = ey.key := by rw [hey]
        have hym : ey.key ∈ o2.modified := htr ey.key (by simp)
        rw [hy] at hVr
        simp only [hy, readNodeFromCache_eq hm hVr hym, Option.bind_some, hm.key hVr]
        simp only [AVL.rootKey, Option.bind_eq_bind, Option.bind_some] at hu
        split at hu
        · next hk =>
          rw [if_pos hk]
          obtain rfl := Option.some.inj hu
          obtain ⟨V', o', ho', hd⟩ := turnLeft_spec hm hr1 hnd' hid2 hym
            (fun k hk => hn.kept (wa k hk)) (fun k hk => hn.kept (wb k hk)) htl hur2.2.2.1
            hur2.2.2.2 hul2
          exact ⟨V', o', ey.key, ho', hdone hkeys (by simp [turnDraws, hbal, hbal', hk]) hd⟩
        · next hk =>
          rw [if_neg hk]
          split at hu
          · next hk' =>
            rw [if_pos hk']
            cases a with
            | nil => cases hu
            | node ex c d =>
              obtain ⟨wc, wd, -, -⟩ := wl hk'
              obtain rfl := Option.some.inj hu
              obtain ⟨-, -, ⟨-, -, huc, hud⟩, hub⟩ := hur2
              obtain ⟨V', o', ho', hd⟩ := turnRightLeft_spec hm hr1 hnd' hid2 hym
                (hn.kept (wa _ (by simp))) (fun k hk => hn.kept (wc k hk))
                (fun k hk => hn.kept (wd k hk)) (fun k hk => hn.kept (wb k hk)) htl huc hud hub hul2
              exact ⟨V', o', ex.key, ho', hdone hkeys
                (by simp [turnDraws, hbal, hbal', hk, hk', spares, Nat.add_comm]) hd⟩
          · next hk' =>
            rw [if_neg hk']
            simp only [rewrite_eq hm hV1' hid2, Option.bind_some, hkey, hpos, Option.pure_def]
            exact ⟨V1, o2, id, rfl, hdone rfl (by simp [turnDraws, hbal, hbal', hk, hk'])
              (hlevel (Option.some.inj hu).symm)⟩
    · next hbal' =>
      rw [if_neg hbal']
      simp only [rewrite_eq hm hV1' hid2, Option.bind_some, hkey, hpos, Option.pure_def]
      exact ⟨V1, o2, id, rfl, hdone rfl (by simp [turnDraws, hbal, hbal'])
        (hlevel (Option.some.inj hu).symm)⟩

end

end SmallClientSSE.Omap
