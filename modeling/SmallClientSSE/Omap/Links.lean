import SmallClientSSE.Omap.Memory

/-!
# Trees in the memory

`Repr V id pos t`: following the links from the node `id` at `pos`, the memory `V`
holds the tree `t`. The heights and the rotations of `AVLTree.cpp` do to the tree
what their counterparts on trees do, and touch the roots of the subtrees they look
at.
-/

namespace SmallClientSSE.Omap

open Lib ORAM BinaryTree

variable {n : Nat}

abbrev Tree (n : Nat) := AVL.AVLTree (Bid n) (Buf 16)

def keys (t : Tree n) : List (Bid n) := (AVL.pairs t).map Prod.fst

/-- The key of the root, if there is one. -/
def top (t : Tree n) : Set (Bid n) := {k | AVL.rootKey t = some k}

/-- The tree that the links from `id` lead to. -/
def Repr (V : Bid n → Option (Node n)) : Bid n → Int → Tree n → Prop
  | id, _, .nil => id.isZero = true
  | id, pos, .node e l r => ∃ nd, V id = some nd ∧ nd.pos = pos ∧
      e = ⟨id, nd.value, nd.height⟩ ∧ Repr V nd.leftID nd.leftPos l ∧
      Repr V nd.rightID nd.rightPos r

section

variable {e : AVL.Entry (Bid n) (Buf 16)} {l r t : Tree n} {k : Bid n}

@[simp] theorem keys_nil : keys (.nil : Tree n) = [] := rfl

@[simp] theorem keys_node : keys (.node e l r) = keys l ++ e.key :: keys r := by simp [keys]

@[simp] theorem keys_update : keys (AVL.update e l r) = keys l ++ e.key :: keys r := by simp [keys]

@[simp] theorem mem_top_nil : k ∈ top (.nil : Tree n) ↔ False := by simp [top, AVL.rootKey]

@[simp] theorem mem_top_node : k ∈ top (.node e l r) ↔ k = e.key := by
  simp [top, AVL.rootKey, eq_comm]

@[simp] theorem mem_top_update : k ∈ top (AVL.update e l r) ↔ k = e.key := mem_top_node

theorem mem_keys_of_top (h : k ∈ top t) : k ∈ keys t := by
  cases t with
  | nil => exact (mem_top_nil.mp h).elim
  | node e l r =>
    rw [mem_top_node.mp h, keys_node]
    simp

theorem nodup_node (h : (keys (.node e l r)).Nodup) : (keys l).Nodup ∧ (keys r).Nodup ∧
    e.key ∉ keys l ∧ e.key ∉ keys r ∧ ∀ j ∈ keys l, j ∉ keys r := by
  rw [keys_node, List.nodup_append, List.nodup_cons] at h
  obtain ⟨h1, ⟨h2, h3⟩, h4⟩ := h
  exact ⟨h1, h3, fun hk => h4 _ hk _ List.mem_cons_self rfl, h2,
    fun j hj hj' => h4 j hj j (List.mem_cons_of_mem _ hj') rfl⟩

end

section

variable {E : Env n} {P : Bid n → Int} {V V' : Bid n → Option (Node n)} {o o' : ORAM n}
  {id k x y : Bid n} {pos : Int} {nd : Node n} {e ex ey : AVL.Entry (Bid n) (Buf 16)}
  {a b l r t : Tree n}

/-- A memory that agrees on the keys of the tree. -/
theorem Repr.congr (h : Repr V id pos t) (hV : ∀ k ∈ keys t, V' k = V k) : Repr V' id pos t := by
  induction t generalizing id pos with
  | nil => exact h
  | node e l r ihl ihr =>
    obtain ⟨nd, h1, h2, h3, h4, h5⟩ := h
    have hid : id ∈ keys (.node e l r) := by simp [h3]
    exact ⟨nd, (hV id hid).trans h1, h2, h3, ihl h4 fun k hk => hV k (by simp [hk]),
      ihr h5 fun k hk => hV k (by simp [hk])⟩

theorem Repr.mem (h : Repr V id pos t) (hk : k ∈ keys t) : ∃ nd, V k = some nd := by
  induction t generalizing id pos with
  | nil => cases hk
  | node e l r ihl ihr =>
    obtain ⟨nd, h1, h2, h3, h4, h5⟩ := h
    rw [keys_node, List.mem_append, List.mem_cons] at hk
    rcases hk with hk | rfl | hk
    exacts [ihl h4 hk, ⟨nd, h3 ▸ h1⟩, ihr h5 hk]

theorem lookup_cached (h : Mid E P V o) (hV : V k = some nd) (hk : k ∈ o.modified) :
    o.cache.lookup k = some nd := h.lookup hV (h.touched k hk)

/-! ## Heights -/

theorem height_spec (h : Mid E P V o) (hr : Repr V id pos t) :
    ∃ o', AVLTree.height E id pos o = some (AVL.height t, o') ∧ Next E P V o o' (top t) := by
  cases t with
  | nil =>
    have hz : id.isZero = true := hr
    refine ⟨o, by simp [AVLTree.height, hz, AVL.height], (Next.refl h).as h fun k => by simp⟩
  | node e l r =>
    obtain ⟨nd, hV, rfl, rfl, -, -⟩ := hr
    obtain ⟨o', ho, hn⟩ := readNode_spec h hV
    have hz := isZero_of_real (h.real hV)
    refine ⟨o', ?_, hn.as h fun k => by simp⟩
    simp only [AVLTree.height, hz, Bool.false_eq_true, if_false, ho, Option.bind_eq_bind,
      Option.bind_some, guard_true, lookup_cached hn.mid hV (hn.mem rfl), Option.pure_def]
    rfl

theorem rewrite_eq (h : Mid E P V o) (hV : V k = some nd) (hk : k ∈ o.modified) :
    AVLTree.rewrite E k o = some o := by
  have hc := h.touched k hk
  simp [AVLTree.rewrite, lookup_cached h hV hk, h.key hV, writeNode, isZero_of_real (h.real hV), hc,
    ORAM.modify, hk]

/-- The height of a node is computed from its children, and the node written. -/
theorem updateHeight_spec (h : Mid E P V o) (hV : V k = some nd) (hk : k ∈ o.modified)
    (hl : Repr V nd.leftID nd.leftPos l) (hr : Repr V nd.rightID nd.rightPos r)
    (hkl : k ∉ keys l) (hkr : k ∉ keys r) :
    ∃ V' o', AVLTree.updateHeight E k o = some o' ∧ AVLTree.rewrite E k o' = some o' ∧
      Next E P V' o o' (top l ∪ top r) ∧ (∀ j, j ≠ k → V' j = V j) ∧
      Repr V' k nd.pos (AVL.update ⟨k, nd.value, nd.height⟩ l r) := by
  obtain ⟨o1, ho1, hn1⟩ := height_spec h hl
  obtain ⟨o2, ho2, hn2⟩ := height_spec hn1.mid hr
  obtain ⟨V', o3, ho3, hn3, hself, hother⟩ := setNode_spec hn2.mid hV
    (hn2.mid.touched k (hn2.kept (hn1.kept hk)))
    (fun node => { node with height := max (AVL.height l) (AVL.height r) + 1 }) rfl rfl
  have hn := (hn1.trans hn2).trans hn3
  have hout : ∀ {t : Tree n}, k ∉ keys t → ∀ j ∈ keys t, V' j = V j := fun ht j hj =>
    hother j fun e => ht (e ▸ hj)
  refine ⟨V', o3, ?_, rewrite_eq hn3.mid hself (hn.kept hk), hn.as h fun j => by simp, hother,
    _, hself, rfl, rfl, hl.congr (hout hkl), hr.congr (hout hkr)⟩
  simp only [AVLTree.updateHeight, lookup_cached h hV hk, Option.bind_eq_bind, Option.bind_some, ho1,
    lookup_cached hn1.mid hV (hn1.kept hk), ho2, ho3]

theorem getBalance_spec (h : Mid E P V o) (hV : V k = some nd) (hk : k ∈ o.modified)
    (hl : Repr V nd.leftID nd.leftPos l) (hr : Repr V nd.rightID nd.rightPos r) :
    ∃ o', AVLTree.getBalance E k o = some ((AVL.height l : Int) - AVL.height r, o') ∧
      Next E P V o o' (top l ∪ top r) := by
  obtain ⟨o1, ho1, hn1⟩ := height_spec h hl
  obtain ⟨o2, ho2, hn2⟩ := height_spec hn1.mid hr
  refine ⟨o2, ?_, hn1.trans hn2⟩
  simp only [AVLTree.getBalance, lookup_cached h hV hk, Option.bind_eq_bind, Option.bind_some, ho1,
    lookup_cached hn1.mid hV (hn1.kept hk), ho2, Option.pure_def]

/-! ## Rotations -/

theorem readNodeFromCache_eq (h : Mid E P V o) (hV : V k = some nd) (hk : k ∈ o.modified) :
    readNodeFromCache k o = some nd := by
  simp [readNodeFromCache, isZero_of_real (h.real hV), lookup_cached h hV hk]

theorem Mid.draw (h : Mid E P V o) : Does E P V o { o with draws := o.draws + 1 } ∅ 0 1 :=
  ⟨⟨⟨h.keeps, h.reads, h.view, h.leaves, h.pos⟩, h.place, h.touched, h.seen, h.nodup⟩,
    ⟨rfl, rfl, rfl, rfl, rfl, fun _ => id, fun _ => id, Nat.le_succ _⟩,
    fun _ => ⟨.inr, fun hj => hj.elim False.elim id⟩, fun _ => .inl, fun _ => rfl, rfl,
    fun _ => rfl, fun _ hj => hj.elim⟩

/-- The leaves drawn for `T2`. -/
def spare : Tree n → Nat
  | .nil => 1
  | .node _ _ _ => 0

theorem grandchild_spec (h : Mid E P V o) (hr : Repr V id pos t)
    (ht : ∀ k ∈ top t, k ∈ o.modified) :
    ∃ id' pos' o', AVLTree.grandchild E id o = some (id', pos', o') ∧ Repr V id' pos' t ∧
      Does E P V o o' ∅ 0 (spare t) := by
  cases t with
  | nil =>
    have hz : id.isZero = true := hr
    exact ⟨Bid.null, E.tape o.draws, _, by simp [AVLTree.grandchild, hz, AVLTree.newNode, randomPath],
      isZero_null, h.draw⟩
  | node e l r =>
    obtain ⟨nd, hV, hpos, rfl, hl, hr⟩ := hr
    have hk := ht id (by simp)
    refine ⟨nd.key, nd.pos, o, ?_, ?_, Next.refl h⟩
    · simp [AVLTree.grandchild, isZero_of_real (h.real hV), readNodeFromCache_eq h hV hk]
    · rw [h.key hV]
      exact ⟨nd, hV, rfl, rfl, hl, hr⟩

/-- **A right rotation** of cached nodes. -/
theorem rightRotate_spec (h : Mid E P V o) (hr : Repr V y pos (.node ey (.node ex a b) r))
    (hnd : (keys (.node ey (.node ex a b) r)).Nodup) (hy : y ∈ o.modified)
    (hx : ex.key ∈ o.modified) (hb : ∀ k ∈ top b, k ∈ o.modified) :
    ∃ V' o', AVLTree.rightRotate E y o = some (ex.key, o') ∧
      Does E P V' o o' (top a ∪ top r) 0 (spare b) ∧ (∀ k, k ≠ y → k ≠ ex.key → V' k = V k) ∧
      Repr V' ex.key (P ex.key) (AVL.update ex a (AVL.update ey b r)) := by
  obtain ⟨hndl, -, hyl, hyr, hlr⟩ := nodup_node hnd
  obtain ⟨ynd, hVy, -, rfl, ⟨xnd, hVx, hxpos, rfl, hra, hrb⟩, hrr⟩ := hr
  obtain ⟨-, -, hxa, hxb, -⟩ := nodup_node hndl
  dsimp only at hyl hyr hlr hxa hxb hx ⊢
  generalize hxid : ynd.leftID = x at *
  simp only [keys_node, List.mem_append, List.mem_cons, not_or] at hyl hlr
  obtain ⟨hya, hyx, hyb⟩ := hyl
  have hxr : x ∉ keys r := hlr x (.inr (.inl rfl))
  -- the grandchild changes its parent
  obtain ⟨T2key, T2pos, o1, ho1, hrT, hn1⟩ := grandchild_spec h hrb hb
  obtain ⟨V2, o2, ho2, hn2, hx2, hV2⟩ := setNode_spec hn1.mid hVx (hn1.mid.touched x (hn1.kept hx))
    (fun node => { node with rightID := ynd.key, rightPos := ynd.pos }) rfl rfl
  have hVy2 : V2 y = some ynd := (hV2 y hyx).trans hVy
  obtain ⟨V3, o3, ho3, hn3, hy3, hV3⟩ := setNode_spec hn2.mid hVy2
    (hn2.mid.touched y (hn2.kept (hn1.kept hy)))
    (fun node => { node with leftID := T2key, leftPos := T2pos }) rfl rfl
  have hn123 := (hn1.trans hn2).trans hn3
  have hout : ∀ {t : Tree n}, x ∉ keys t → y ∉ keys t → ∀ j ∈ keys t, V3 j = V j := by
    intro t htx hty j hj
    rw [hV3 j fun e => hty (e ▸ hj), hV2 j fun e => htx (e ▸ hj)]
  obtain ⟨V4, o4, ho4, ho4', hn4, hV4, hry⟩ := updateHeight_spec hn3.mid hy3 (hn123.kept hy)
    (hrT.congr (hout hxb hyb)) (hrr.congr (hout hxr hyr)) hyb hyr
  have hx4 : V4 x = some { xnd with rightID := ynd.key, rightPos := ynd.pos } := by
    rw [hV4 x (Ne.symm hyx), hV3 x (Ne.symm hyx), hx2]
  have hn1234 := hn123.trans hn4
  obtain ⟨V5, o5, ho5, ho5', hn5, hV5, hrx⟩ := updateHeight_spec hn4.mid hx4 (hn1234.kept hx)
    (hra.congr fun j hj => (hV4 j fun e => hya (e ▸ hj)).trans (hout hxa hya j hj))
    (r := AVL.update ⟨y, ynd.value, ynd.height⟩ b r) (by rw [h.key hVy]; exact hry)
    hxa (by simp [hxb, hxr, Ne.symm hyx])
  refine ⟨V5, o5, ?_, (hn1234.trans hn5).as h fun j => ?_, fun j hjy hjx => ?_, ?_⟩
  · simp only [AVLTree.rightRotate, lookup_cached h hVy hy, hxid, readNodeFromCache_eq h hVx hx, ho1,
      ho2, ho3, ho4, ho4', ho5, ho5', Option.bind_eq_bind, Option.bind_some, Option.pure_def]
  · have hjb := hb j
    have hjy : j = y → j ∈ o.modified := fun e => e ▸ hy
    simp only [Set.mem_union, Set.mem_empty_iff_false, mem_top_update]
    tauto
  · rw [hV5 j hjx, hV4 j hjy, hV3 j hjy, hV2 j hjx]
  · rw [← h.place hVx]
    exact hrx

/-- **A left rotation** of cached nodes. -/
theorem leftRotate_spec (h : Mid E P V o) (hr : Repr V x pos (.node ex l (.node ey a b)))
    (hnd : (keys (.node ex l (.node ey a b))).Nodup) (hx : x ∈ o.modified)
    (hy : ey.key ∈ o.modified) (ha : ∀ k ∈ top a, k ∈ o.modified) :
    ∃ V' o', AVLTree.leftRotate E x o = some (ey.key, o') ∧
      Does E P V' o o' (top l ∪ top b) 0 (spare a) ∧ (∀ k, k ≠ x → k ≠ ey.key → V' k = V k) ∧
      Repr V' ey.key (P ey.key) (AVL.update ey (AVL.update ex l a) b) := by
  obtain ⟨-, hndr, hxl, hxr, hlr⟩ := nodup_node hnd
  obtain ⟨xnd, hVx, -, rfl, hrl, ⟨ynd, hVy, hypos, rfl, hra, hrb⟩⟩ := hr
  obtain ⟨-, -, hya, hyb, -⟩ := nodup_node hndr
  dsimp only at hxl hxr hlr hya hyb hy ⊢
  generalize hyid : xnd.rightID = y at *
  simp only [keys_node, List.mem_append, List.mem_cons, not_or] at hxr hlr
  obtain ⟨hxa, hxy, hxb⟩ := hxr
  have hyl : y ∉ keys l := fun hy => (hlr y hy).2.1 rfl
  -- the grandchild changes its parent
  obtain ⟨T2key, T2pos, o1, ho1, hrT, hn1⟩ := grandchild_spec h hra ha
  obtain ⟨V2, o2, ho2, hn2, hy2, hV2⟩ := setNode_spec hn1.mid hVy (hn1.mid.touched y (hn1.kept hy))
    (fun node => { node with leftID := xnd.key, leftPos := xnd.pos }) rfl rfl
  have hVx2 : V2 x = some xnd := (hV2 x hxy).trans hVx
  obtain ⟨V3, o3, ho3, hn3, hx3, hV3⟩ := setNode_spec hn2.mid hVx2
    (hn2.mid.touched x (hn2.kept (hn1.kept hx)))
    (fun node => { node with rightID := T2key, rightPos := T2pos }) rfl rfl
  have hn123 := (hn1.trans hn2).trans hn3
  have hout : ∀ {t : Tree n}, y ∉ keys t → x ∉ keys t → ∀ j ∈ keys t, V3 j = V j := by
    intro t hty htx j hj
    rw [hV3 j fun e => htx (e ▸ hj), hV2 j fun e => hty (e ▸ hj)]
  obtain ⟨V4, o4, ho4, ho4', hn4, hV4, hrx⟩ := updateHeight_spec hn3.mid hx3 (hn123.kept hx)
    (hrl.congr (hout hyl hxl)) (hrT.congr (hout hya hxa)) hxl hxa
  have hy4 : V4 y = some { ynd with leftID := xnd.key, leftPos := xnd.pos } := by
    rw [hV4 y (Ne.symm hxy), hV3 y (Ne.symm hxy), hy2]
  have hn1234 := hn123.trans hn4
  obtain ⟨V5, o5, ho5, ho5', hn5, hV5, hry⟩ := updateHeight_spec hn4.mid hy4 (hn1234.kept hy)
    (l := AVL.update ⟨x, xnd.value, xnd.height⟩ l a) (by rw [h.key hVx]; exact hrx)
    (hrb.congr fun j hj => (hV4 j fun e => hxb (e ▸ hj)).trans (hout hyb hxb j hj))
    (by simp [hyl, hya, Ne.symm hxy]) hyb
  refine ⟨V5, o5, ?_, (hn1234.trans hn5).as h fun j => ?_, fun j hjx hjy => ?_, ?_⟩
  · simp only [AVLTree.leftRotate, lookup_cached h hVx hx, hyid, readNodeFromCache_eq h hVy hy, ho1,
      ho2, ho3, ho4, ho4', ho5, ho5', Option.bind_eq_bind, Option.bind_some, Option.pure_def]
  · have hja := ha j
    have hjx : j = x → j ∈ o.modified := fun e => e ▸ hx
    simp only [Set.mem_union, Set.mem_empty_iff_false, mem_top_update]
    tauto
  · rw [hV5 j hjy, hV4 j hjx, hV3 j hjx, hV2 j hjy]
  · rw [← h.place hVy]
    exact hry

end

end SmallClientSSE.Omap
