import SmallClientSSE.Omap.Rebalance

/-!
# Insertion and search in the memory

`AVLTree::insert` does to the tree in the memory what `AVL.insert` does to the tree
(`insert_spec`), and `AVLTree::search` finds what the tree holds (`search_spec`).
Both say which nodes they touch: the way to the key, and the other children along
it for an insertion.
-/

namespace SmallClientSSE.Omap

open Lib ORAM BinaryTree

variable {n : Nat}

def searched (key : Bid n) : Tree n → List (Bid n)
  | .nil => []
  | .node e l r => e.key ::
      if key < e.key then searched key l else if e.key < key then searched key r else []

/-- The nodes that an insertion looks at. -/
def visited (key : Bid n) : Tree n → List (Bid n)
  | .nil => []
  | .node e l r => e.key ::
      if key < e.key then (AVL.rootKey r).toList ++ visited key l
      else if e.key < key then (AVL.rootKey l).toList ++ visited key r
      else []

/-- A new node whose leaf has been read already reads it again. -/
def reread (P : Bid n → Int) (leafs : List Int) (key : Bid n) (t : Tree n) : Nat :=
  if key ∉ keys t ∧ (P key ∈ leafs ∨ ∃ k ∈ searched key t, P k = P key) then 1 else 0

/-- The leaves drawn by an insertion. -/
def insertDraws (key : Bid n) (value : Buf 16) : Tree n → Nat
  | .nil => 1
  | .node e l r =>
    if key < e.key then
      insertDraws key value l + (AVL.insert key value l).elim 0 fun l => turnDraws key l r
    else if e.key < key then
      insertDraws key value r + (AVL.insert key value r).elim 0 fun r => turnDraws key l r
    else 0

/-- The root of a tree is looked at. -/
noncomputable def lookTop (E : Env n) (P : Bid n → Int) (depth : Nat) (store : Int → List (Node n))
    (t : Tree n) (f : Footprint) : Footprint :=
  (AVL.rootKey t).elim f (look E P depth store f)

/-- The footprint of an insertion of a batch: it looks at the nodes on the way to the key, records
the leaf of a new node without reading its path, and looks at the other children on the way
back. -/
noncomputable def trace (E : Env n) (P : Bid n → Int) (depth : Nat) (store : Int → List (Node n))
    (key : Bid n) : Tree n → Footprint → Footprint
  | .nil, f => { f with leafs := insert (P key) f.leafs }
  | .node e l r, f =>
    if key < e.key then
      lookTop E P depth store r (trace E P depth store key l (look E P depth store f e.key))
    else if e.key < key then
      lookTop E P depth store l (trace E P depth store key r (look E P depth store f e.key))
    else look E P depth store f e.key

/-- The tree below a root; a root that is not real is no root. -/
def Rooted (E : Env n) (V : Bid n → Option (Node n)) (id : Bid n) (pos : Int) (t : Tree n) : Prop :=
  Repr V id pos t ∧ t ≠ .nil ∨ t = .nil ∧ real E id = false

section

variable {E : Env n} {P : Bid n → Int} {V : Bid n → Option (Node n)} {o o' : ORAM n}
  {id key k : Bid n} {pos leaf : Int} {value : Str} {nd : Node n}
  {e : AVL.Entry (Bid n) (Buf 16)} {l r t u : Tree n}

theorem Repr.rooted (h : Repr V id pos t) : Rooted E V id pos t := by
  cases t with
  | nil =>
    refine .inr ⟨rfl, ?_⟩
    have hz : id.isZero = true := h
    simp [real, hz]
  | node e l r => exact .inl ⟨h, fun h => by cases h⟩

/-! ## The keys of a search tree -/

theorem ascending_node (h : Ascending (AVL.pairs (.node e l r))) : Ascending (AVL.pairs l) ∧
    Ascending (AVL.pairs r) ∧ (∀ k ∈ keys l, k < e.key) ∧ ∀ k ∈ keys r, e.key < k := by
  rw [AVL.pairs_node] at h
  obtain ⟨h1, h2, h3, h4⟩ := ascending_append.mp h
  refine ⟨h1, h2, fun k hk => ?_, fun k hk => ?_⟩
  · obtain ⟨b, hb, rfl⟩ := List.mem_map.mp hk
    exact h3 b hb
  · obtain ⟨b, hb, rfl⟩ := List.mem_map.mp hk
    exact h4 b hb

theorem mem_keys_left (h : Ascending (AVL.pairs (.node e l r))) (hk : k < e.key) :
    k ∈ keys (.node e l r) ↔ k ∈ keys l := by
  obtain ⟨-, -, -, h4⟩ := ascending_node h
  rw [keys_node, List.mem_append, List.mem_cons]
  constructor
  · rintro (h | rfl | h)
    exacts [h, absurd hk (lt_irrefl _), absurd (h4 k h) hk.not_gt]
  · exact .inl

theorem mem_keys_right (h : Ascending (AVL.pairs (.node e l r))) (hk : e.key < k) :
    k ∈ keys (.node e l r) ↔ k ∈ keys r := by
  obtain ⟨-, -, h3, -⟩ := ascending_node h
  rw [keys_node, List.mem_append, List.mem_cons]
  constructor
  · rintro (h | rfl | h)
    exacts [absurd (h3 k h) hk.not_gt, absurd hk (lt_irrefl _), h]
  · exact fun h => .inr (.inr h)

theorem mem_keys_insert {v : Buf 16} (hs : Ascending (AVL.pairs t))
    (h : AVL.insert key v t = some u) : k ∈ keys u ↔ k = key ∨ k ∈ keys t := by
  unfold keys
  rw [AVL.insert_pairs hs h]
  exact mem_keys_assign

/-! ## A new node -/

theorem fetchPath_with (leaf : Int) (o : ORAM n) (m : List (Bid n)) (ls : List Int) :
    ORAM.fetchPath E leaf { o with
      modified := m
      leafList := ls } =
    (ORAM.fetchPath E leaf o).map fun o' => { o' with
      modified := m
      leafList := ls } := by
  simp only [ORAM.fetchPath, Option.map_map]
  rfl

/-- In a batch the leaf of a new node is recorded without reading its path. -/
theorem Mid.addLeaf (h : Mid E P V o) (hb : o.batchWrite = true) (hl : Leaf o.depth leaf) :
    Mid E P V (addLeaf leaf o) ∧ Grows o (addLeaf leaf o) := by
  have hnd := nodup_addLeaf leaf h.nodup
  have hmem : ∀ l, l ∈ (ORAM.addLeaf leaf o).leafList ↔ l = leaf ∨ l ∈ o.leafList := fun _ => mem_addLeaf
  rw [addLeaf_eq] at hnd hmem ⊢
  refine ⟨⟨⟨h.keeps, fun hb' => ?_, fun i hi => ?_, fun l hl' => ?_, h.pos⟩, h.place, h.touched,
    fun j hj => (hmem _).mpr (.inr (h.seen j hj)), hnd⟩,
    ⟨rfl, rfl, rfl, rfl, rfl, fun _ => id, fun l hl' => (hmem l).mpr (.inr hl'), le_rfl⟩⟩
  · rw [hb] at hb'
    cases hb'
  · obtain ⟨l, hl', hi'⟩ := h.view i hi
    exact ⟨l, (hmem l).mpr (.inr hl'), hi'⟩
  · rcases (hmem l).mp hl' with rfl | hl'
    exacts [hl, h.leaves l hl']

theorem accessWrite_eq (bid : Bid n) (node : Node n) (o : ORAM n) : accessWrite E bid node o =
    (if o.batchWrite then some o else ORAM.fetchPath E node.pos o).bind fun o =>
      some (addLeaf node.pos { o with cache := o.cache.put bid node }) := by
  unfold accessWrite
  split <;> rfl

/-- **A new node** is written to the cache. -/
theorem writeNode_spec (nd : Node n) (h : Mid E P V o) (hV : V key = none) (hr : real E key = true)
    (hkey : nd.key = key) (hpos : nd.pos = P key) (hleaf : Leaf o.depth (P key)) :
    ∃ o', writeNode E key nd o = some (P key, o') ∧
      Does E P (Function.update V key (some nd)) o o' {key}
        (if P key ∈ o.leafList then 1 else 0) 0 ∧
      (o.batchWrite = true → footprint o' =
        { footprint o with leafs := insert (P key) (footprint o).leafs }) := by
  have hz := isZero_of_real hr
  have hnew : key ∉ o.cache := h.notMem hV hr
  obtain ⟨o1, h1, hm, hg, hmod, hcnt, hlist, hdraws, hview⟩ : ∃ o1,
      (if o.batchWrite then some o else ORAM.fetchPath E nd.pos o) = some o1 ∧
      Mid E P V (addLeaf nd.pos o1) ∧ Grows o (addLeaf nd.pos o1) ∧ o1.modified = o.modified ∧
      (o.batchWrite = false → o1.readCnt = o.readCnt + 1) ∧ o1.leafList = o.leafList ∧
      o1.draws = o.draws ∧ (o.batchWrite = true → o1.readviewmap = o.readviewmap) := by
    cases hb : o.batchWrite
    · obtain ⟨o1, h1, hm, hg, -, hmod, hcnt, hlist, hdraws⟩ := fetchPath_mid h (hpos ▸ hleaf)
      exact ⟨o1, h1, hm, hg, hmod, fun _ => hcnt, hlist, hdraws, by simp⟩
    · obtain ⟨hm, hg⟩ := h.addLeaf hb (hpos ▸ hleaf)
      exact ⟨o, rfl, hm, hg, rfl, by simp, rfl, rfl, fun _ => rfl⟩
  have hput := hm.put (.inr hV) hr hkey hpos (hg.depth ▸ hleaf)
  have hnext := hput.modify ((AList.mem_insert _).mpr (.inl rfl)) (mem_addLeaf.mpr (.inl hpos.symm))
  have heq : accessWrite E key nd (ORAM.modify key o) = some (ORAM.modify key
      { addLeaf nd.pos o1 with cache := (addLeaf nd.pos o1).cache.put key nd }) := by
    have hfetch : (if (ORAM.modify key o).batchWrite then some (ORAM.modify key o)
        else ORAM.fetchPath E nd.pos (ORAM.modify key o)) =
        some { o1 with modified := (ORAM.modify key o).modified } := by
      rw [modify_eq]
      generalize (ORAM.modify key o).modified = m
      by_cases hb : o.batchWrite = true
      · rw [if_pos hb] at h1
        obtain rfl := Option.some.inj h1
        exact if_pos hb
      · rw [if_neg hb] at h1
        have := fetchPath_with (E := E) nd.pos o m o.leafList
        rw [if_neg hb, this, h1, Option.map_some, ← hlist]
    rw [accessWrite_eq, hfetch, Option.bind_some]
    congr 1
    by_cases hl : nd.pos ∈ o1.leafList <;> by_cases hk : key ∈ o.modified <;>
      simp only [addLeaf, ORAM.modify, hmod, hl, hk, if_true, if_false]
  refine ⟨_, ?_, ⟨hnext.mid, (hg.trans (grows_put _ key nd)).trans hnext.grows, fun j => ?_,
    fun l hl => ?_, fun hb => ?_, ?_, fun hk => ?_, fun j hj hst _ => ?_⟩, fun hb => ?_⟩
  · simp only [writeNode, hz, Bool.false_eq_true, if_false, hnew, not_false_eq_true, if_true, heq,
      Option.bind_eq_bind, Option.bind_some, hpos, Option.pure_def]
  · rw [hnext.modified]
    show _ ↔ _ ∨ j ∈ o.modified
    rw [← hmod, addLeaf_eq]
  · rcases hnext.only l hl with hl | hl
    · rcases mem_addLeaf.mp hl with rfl | hl
      · exact .inr ⟨key, rfl, hpos.symm⟩
      · exact .inl (hlist ▸ hl)
    · exact .inr hl
  · have hlen := length_addLeaf nd.pos o1
    rw [hlist, hpos] at hlen
    rw [modify_eq, hpos]
    show (addLeaf (P key) o1).readCnt + _ = _ + (addLeaf (P key) o1).leafList.length + _
    rw [hlen, addLeaf_eq, hcnt hb]
    split_ifs <;> omega
  · rw [modify_eq, addLeaf_eq]
    exact hdraws
  · exact absurd (h.touched key (hk key rfl)) hnew
  · obtain rfl : j = key := hj
    rcases hst with hst | ⟨i, hi, md, hmd, hrm, rfl⟩
    · exact absurd hst hnew
    · rw [(h.keeps.stored hi hmd hrm).1] at hV
      cases hV
  · rw [modify_eq]
    ext x
    · show x ∈ (addLeaf nd.pos o1).leafList ↔ _
      rw [mem_addLeaf, hpos, hlist]
      rfl
    · show x ∈ (addLeaf nd.pos o1).readviewmap ↔ _
      rw [addLeaf_eq, hview hb]
      rfl

/-! ## Insertion -/

/-- What inserting `key` into the tree `t` establishes. -/
structure Inserted (P : Bid n → Int) (V : Bid n → Option (Node n)) (key : Bid n) (t u : Tree n)
    (id' : Bid n) (V' : Bid n → Option (Node n)) (o' : ORAM n) : Prop where
  frame : ∀ k, k ≠ key → k ∉ keys t → V' k = V k
  repr : Repr V' id' (P id') u
  top : ∀ k ∈ top u, k ∈ o'.modified
  upward : Upward o'.modified u
  warm : AVL.height u = AVL.height t + 1 → Warm o'.modified key u

theorem mem_keys_of_visited : ∀ {t : Tree n}, k ∈ visited key t → k ∈ keys t
  | .nil, h => h
  | .node e l r, h => by
    have htop : ∀ {t : Tree n}, k ∈ (AVL.rootKey t).toList → k ∈ keys t := fun h =>
      mem_keys_of_top (Option.mem_toList.mp h)
    rw [keys_node, List.mem_append, List.mem_cons]
    rcases List.mem_cons.mp h with rfl | h
    · exact .inr (.inl rfl)
    · split_ifs at h
      · rcases List.mem_append.mp h with h | h
        exacts [.inr (.inr (htop h)), .inl (mem_keys_of_visited h)]
      · rcases List.mem_append.mp h with h | h
        exacts [.inl (htop h), .inr (.inr (mem_keys_of_visited h))]
      · cases h

theorem visited_left (hk : key < e.key) :
    {e.key} ∪ ({k | k = key ∨ k ∈ visited key l} ∪ top r) =
      {k | k = key ∨ k ∈ visited key (.node e l r)} := by
  ext k
  simp only [visited, hk, if_true, Set.mem_union, Set.mem_singleton_iff, Set.mem_ofPred_eq,
    List.mem_cons, List.mem_append, Option.mem_toList, top]
  tauto

theorem visited_right (hk : e.key < key) :
    {e.key} ∪ ({k | k = key ∨ k ∈ visited key r} ∪ top l) =
      {k | k = key ∨ k ∈ visited key (.node e l r)} := by
  ext k
  simp only [visited, hk, hk.not_gt, if_true, if_false, Set.mem_union, Set.mem_singleton_iff,
    Set.mem_ofPred_eq, List.mem_cons, List.mem_append, Option.mem_toList, top]
  tauto

theorem Does.mem_leafList {c d : Nat} (h : Does E P V o o' {k} c d) :
    leaf ∈ o'.leafList ↔ leaf ∈ o.leafList ∨ P k = leaf := by
  constructor
  · exact fun hl => (h.only leaf hl).imp_right fun ⟨j, hj, e⟩ => by rwa [← Set.mem_singleton_iff.mp hj]
  · rintro (hl | rfl)
    exacts [h.grows.leafs leaf hl, h.mid.seen k (h.mem rfl)]

theorem insert_nil (pos : Int) (value : Str) (fuel : Nat) (h : Mid E P V o) (hr : real E key = true)
    (hid : real E id = false) (hV : V key = none) (hP : P key = E.tape o.draws)
    (hleaf : Leaf o.depth (P key)) :
    ∃ V' o', AVLTree.insert E (fuel + 1) id pos key value o = some (key, P key, o') ∧
      Does E P V' o o' {k | k = key ∨ k ∈ visited key .nil} (reread P o.leafList key .nil) 1 ∧
      Inserted P V key .nil (.node ⟨key, Buf.zero.copyStr value, 1⟩ .nil .nil) key V' o' ∧
      (o.batchWrite = true → footprint o' =
        { footprint o with leafs := insert (P key) (footprint o).leafs }) := by
  obtain ⟨o', ho', hd, hfoot⟩ := writeNode_spec
    ⟨key, Buf.zero.copyStr value, E.tape o.draws, Bid.null, -1, Bid.null, -1, 1⟩ h.draw.mid hV hr
    rfl hP.symm hleaf
  have hall : Does E P _ o o' _ _ _ := Does.trans h.draw hd
  have hmem : key ∈ o'.modified := hd.mem rfl
  refine ⟨Function.update V key (some ⟨key, Buf.zero.copyStr value, E.tape o.draws, Bid.null, -1,
    Bid.null, -1, 1⟩), o', ?_, ?_, ⟨fun k hk _ => Function.update_of_ne hk _ _, ?_, fun k hk => ?_,
    ?_, fun _ => ?_⟩, hfoot⟩
  · simp only [AVLTree.insert, hid, Bool.false_eq_true, if_false, AVLTree.newNode, randomPath, ho',
      Option.bind_eq_bind, Option.bind_some, Option.pure_def]
  · rw [Set.empty_union, Nat.zero_add, Nat.add_zero] at hall
    have hset : {k | k = key ∨ k ∈ visited key .nil} = {key} := by
      ext k
      simp [visited]
    simpa only [hset, reread, keys_nil, List.not_mem_nil, not_false_eq_true, true_and, searched,
      false_and, exists_false, or_false] using hall
  · exact ⟨_, Function.update_self .., hP.symm, rfl, isZero_null, isZero_null⟩
  · rw [mem_top_node.mp hk]
    exact hmem
  · exact .node hmem trivial trivial
  · exact ⟨fun k hk => (mem_top_nil.mp hk).elim, fun k hk => (mem_top_nil.mp hk).elim,
      fun _ => trivial, fun _ => trivial⟩

theorem or_absorb {a t r m : Prop} (h : a → t ∨ m) : (t ∨ False ∨ a ∨ r) ∨ m ↔ (t ∨ r) ∨ m := by
  tauto

theorem insertDraws_pos {value : Buf 16} (hk : key ∉ keys t) : 0 < insertDraws key value t := by
  induction t with
  | nil => exact Nat.one_pos
  | node e l r ihl ihr =>
    simp only [keys_node, List.mem_append, List.mem_cons, not_or] at hk
    obtain ⟨hl, hne, hr⟩ := hk
    rw [insertDraws]
    split_ifs with h1 h2
    · exact Nat.add_pos_left (ihl hl) _
    · exact Nat.add_pos_left (ihr hr) _
    · exact absurd (le_antisymm (not_lt.mp h2) (not_lt.mp h1)) hne

/-- Of the nodes touched only the root of `t` leaves a footprint. -/
theorem Does.lookTop {T : Set (Bid n)} {c d : Nat} {V' : Bid n → Option (Node n)}
    (h : Does E P V' o o' T c d) (hm : Mid E P V o) (ht : ∀ k ∈ top t, k ∈ T)
    (hT : ∀ k ∈ T, k ∈ top t ∨ k ∈ o.modified) (hmem : ∀ k ∈ top t, V k ≠ none) :
    footprint o' = Omap.lookTop E P o.depth o.store t (footprint o) := by
  cases t with
  | nil => exact h.quiet fun k hk => (hT k hk).resolve_left fun hk => mem_top_nil.mp hk
  | node e l r =>
    have htop : e.key ∈ top (.node e l r) := mem_top_node.mpr rfl
    obtain ⟨nd, hV⟩ := Option.ne_none_iff_exists'.mp (hmem e.key htop)
    exact h.looks e.key (ht e.key htop) (hm.somewhere hV) fun k hk =>
      (hT k hk).imp_left mem_top_node.mp

theorem insertLeft_spec {l' : Tree n} {lid : Bid n} {V2 : Bid n → Option (Node n)} {o2 : ORAM n}
    {T : Set (Bid n)} {c d : Nat} {v : Buf 16} (h : Mid E P V o)
    (hr : Repr V id pos (.node e l r)) (hok : AVL.Ok (.node e l r)) (hs : Ascending (AVL.pairs (.node e l r))) (hk : key < e.key)
    (hid : id ∈ o.modified) (hur : Upward o.modified r) (hl' : AVL.insert key v l = some l')
    (hu : AVL.insert key v (.node e l r) = some u)
    (hd : Does E P V2 o o2 T c d) (hT : ∀ k ∈ T, k = key ∨ k ∈ keys l)
    (hi : Inserted P V key l l' lid V2 o2) :
    ∃ V' o' id', (setNode id (fun node => { node with
        leftID := lid
        leftPos := P lid }) o2).bind (AVLTree.rebalance E id pos key) = some (id', P id', o') ∧
      Does E P V' o o' (T ∪ top r) c (d + turnDraws key l' r) ∧
      Inserted P V key (.node e l r) u id' V' o' ∧
      footprint o' = lookTop E P o.depth o.store r (footprint o2) := by
  obtain ⟨hsl, hsr, hle, hre⟩ := ascending_node hs
  obtain ⟨hndl, hndr, hel, her, hlr⟩ := nodup_node hs.nodup
  have ⟨_, hb1, hb2, hokl, _⟩ := hok
  obtain ⟨l'', hl'', hokl', hge, hle', -⟩ := AVL.insert_ok key v hokl
  obtain rfl : l'' = l' := Option.some.inj (hl''.symm.trans hl')
  have hmem : ∀ {k}, k ∈ keys l'' ↔ k = key ∨ k ∈ keys l := mem_keys_insert hsl hl'
  have hreb : AVL.rebalance key e l'' r = some u := by simpa [AVL.insert, hk, hl'] using hu
  have hkr : key ∉ keys r := fun h => (hre key h).not_gt hk
  obtain ⟨nd, hV, rfl, rfl, hl, hrr⟩ := hr
  dsimp only at hel her hk hle hre
  obtain ⟨V3, o3, ho3, hn3, hid3, hV3⟩ := setNode_spec hd.mid ((hi.frame id hk.ne' hel).trans hV)
    (hd.mid.touched id (hd.kept hid)) (fun node => { node with leftID := lid, leftPos := P lid })
    rfl rfl
  have hidl : id ∉ keys l'' := fun h => (hmem.mp h).elim (fun e => hk.ne' e) hel
  have hr3 : Repr V3 id nd.pos (.node ⟨id, nd.value, nd.height⟩ l'' r) := by
    refine ⟨_, hid3, rfl, rfl, hi.repr.congr fun j hj => hV3 j fun e => hidl (e ▸ hj),
      hrr.congr fun j hj => ?_⟩
    rw [hV3 j fun e => her (e ▸ hj), hi.frame j (fun e => hkr (e ▸ hj)) fun h => hlr j h hj]
  have hpairs : AVL.pairs (.node ⟨id, nd.value, nd.height⟩ l'' r) =
      assign key v (AVL.pairs (.node ⟨id, nd.value, nd.height⟩ l r)) := by
    rw [AVL.pairs_node, AVL.pairs_node, AVL.insert_pairs hsl hl', assign_lt hk]
  have hnd' : (keys (.node ⟨id, nd.value, nd.height⟩ l'' r)).Nodup := by
    unfold keys
    rw [hpairs]
    exact hs.assign.nodup
  have hndl' := (nodup_node hnd').1
  have hur3 : Upward o3.modified r := hur.grow (fun k hk => hn3.kept (hd.kept hk)) hndr
    fun k hkt hk' => .inl <| by
      rcases (hd.modified k).mp (((hn3.modified k).mp hk').resolve_left fun h => h) with hk' | hk'
      · rcases hT k hk' with rfl | hk'
        exacts [absurd hkt hkr, absurd hkt (hlr k hk')]
      · exact hk'
  obtain ⟨V4, o4, id', ho4, hn4, hfr, hrep, htop, hupw⟩ := rebalance_spec hn3.mid hr3 hnd'
    (hn3.kept (hd.kept hid)) (fun h => (hi.warm (by omega)).mono fun k => hn3.kept)
    (fun h => by omega) (hi.upward.next hn3 hndl') hur3 hreb
  refine ⟨V4, o4, id', by rw [ho3]; exact ho4, ?_, ⟨fun k hkk hkt => ?_, hrep, htop, hupw,
    fun hgrow => ?_⟩, ?_⟩
  · have hall := Does.trans hd (Does.trans hn3 hn4)
    rw [Nat.zero_add, Nat.zero_add] at hall
    refine Does.as hall h fun k => ?_
    have htop : k ∈ top l'' → k ∈ T ∨ k ∈ o.modified := fun hk => (hd.modified k).mp (hi.top k hk)
    simp only [Set.mem_union, Set.mem_empty_iff_false]
    exact or_absorb htop
  · rw [keys_node, List.mem_append, List.mem_cons, not_or, not_or] at hkt
    obtain ⟨h1, h2, h3⟩ := hkt
    rw [hfr k (by simp [hmem, hkk, h1, h2, h3]), hV3 k h2, hi.frame k hkk h1]
  · obtain ⟨rfl, hgl⟩ := AVL.insert_left hok hl' hreb hgrow
    refine ⟨fun k hk => hn4.mem (.inl hk), fun k hk => hn4.mem (.inr hk), fun _ => ?_,
      fun h => absurd h hk.not_gt⟩
    exact (hi.warm hgl).mono fun k hk => hn4.kept (hn3.kept hk)
  · rw [← hd.grows.depth, ← hd.grows.store]
    refine (Does.trans hn3 hn4).lookTop hd.mid (fun k hk => .inr (.inr hk)) (fun k hk => ?_)
      fun k hk => ?_
    · rcases hk with hk | hk | hk
      exacts [hk.elim, .inr (hi.top k hk), .inl hk]
    · have hkr' := mem_keys_of_top hk
      obtain ⟨md, hVk⟩ := hrr.mem hkr'
      rw [hi.frame k (fun e => hkr (e ▸ hkr')) fun h => hlr k h hkr', hVk]
      exact Option.some_ne_none md

theorem insertRight_spec {r' : Tree n} {rid : Bid n} {V2 : Bid n → Option (Node n)} {o2 : ORAM n}
    {T : Set (Bid n)} {c d : Nat} {v : Buf 16} (h : Mid E P V o)
    (hr : Repr V id pos (.node e l r)) (hok : AVL.Ok (.node e l r))
    (hs : Ascending (AVL.pairs (.node e l r))) (hk : e.key < key)
    (hid : id ∈ o.modified) (hul : Upward o.modified l) (hr' : AVL.insert key v r = some r')
    (hu : AVL.insert key v (.node e l r) = some u)
    (hd : Does E P V2 o o2 T c d) (hT : ∀ k ∈ T, k = key ∨ k ∈ keys r)
    (hi : Inserted P V key r r' rid V2 o2) :
    ∃ V' o' id', (setNode id (fun node => { node with
        rightID := rid
        rightPos := P rid }) o2).bind (AVLTree.rebalance E id pos key) = some (id', P id', o') ∧
      Does E P V' o o' (T ∪ top l) c (d + turnDraws key l r') ∧
      Inserted P V key (.node e l r) u id' V' o' ∧
      footprint o' = lookTop E P o.depth o.store l (footprint o2) := by
  obtain ⟨hsl, hsr, hle, hre⟩ := ascending_node hs
  obtain ⟨hndl, hndr, hel, her, hlr⟩ := nodup_node hs.nodup
  have ⟨_, hb1, hb2, _, hokr⟩ := hok
  obtain ⟨r'', hr'', hokr', hge, hle', -⟩ := AVL.insert_ok key v hokr
  obtain rfl : r'' = r' := Option.some.inj (hr''.symm.trans hr')
  have hmem : ∀ {k}, k ∈ keys r'' ↔ k = key ∨ k ∈ keys r := mem_keys_insert hsr hr'
  have hreb : AVL.rebalance key e l r'' = some u := by
    simpa [AVL.insert, hk, hk.not_gt, hr'] using hu
  have hkl : key ∉ keys l := fun h => (hle key h).not_gt hk
  obtain ⟨nd, hV, rfl, rfl, hll, hr⟩ := hr
  dsimp only at hel her hk hle hre
  obtain ⟨V3, o3, ho3, hn3, hid3, hV3⟩ := setNode_spec hd.mid ((hi.frame id hk.ne her).trans hV)
    (hd.mid.touched id (hd.kept hid)) (fun node => { node with rightID := rid, rightPos := P rid })
    rfl rfl
  have hidr : id ∉ keys r'' := fun h => (hmem.mp h).elim (fun e => hk.ne e) her
  have hr3 : Repr V3 id nd.pos (.node ⟨id, nd.value, nd.height⟩ l r'') := by
    refine ⟨_, hid3, rfl, rfl, hll.congr fun j hj => ?_,
      hi.repr.congr fun j hj => hV3 j fun e => hidr (e ▸ hj)⟩
    rw [hV3 j fun e => hel (e ▸ hj), hi.frame j (fun e => hkl (e ▸ hj)) fun h => hlr j hj h]
  have hpairs : AVL.pairs (.node ⟨id, nd.value, nd.height⟩ l r'') =
      assign key v (AVL.pairs (.node ⟨id, nd.value, nd.height⟩ l r)) := by
    rw [AVL.pairs_node, AVL.pairs_node, AVL.insert_pairs hsr hr',
      assign_gt (fun b hb => (hle _ (List.mem_map_of_mem hb)).trans hk) hk]
  have hnd' : (keys (.node ⟨id, nd.value, nd.height⟩ l r'')).Nodup := by
    unfold keys
    rw [hpairs]
    exact hs.assign.nodup
  have hndr' := (nodup_node hnd').2.1
  have hul3 : Upward o3.modified l := hul.grow (fun k hk => hn3.kept (hd.kept hk)) hndl
    fun k hkt hk' => .inl <| by
      rcases (hd.modified k).mp (((hn3.modified k).mp hk').resolve_left fun h => h) with hk' | hk'
      · rcases hT k hk' with rfl | hk'
        exacts [absurd hkt hkl, absurd hk' (hlr k hkt)]
      · exact hk'
  obtain ⟨V4, o4, id', ho4, hn4, hfr, hrep, htop, hupw⟩ := rebalance_spec hn3.mid hr3 hnd'
    (hn3.kept (hd.kept hid)) (fun h => by omega)
    (fun h => (hi.warm (by omega)).mono fun k => hn3.kept) hul3 (hi.upward.next hn3 hndr') hreb
  refine ⟨V4, o4, id', by rw [ho3]; exact ho4, ?_, ⟨fun k hkk hkt => ?_, hrep, htop, hupw,
    fun hgrow => ?_⟩, ?_⟩
  · have hall := Does.trans hd (Does.trans hn3 hn4)
    rw [Nat.zero_add, Nat.zero_add] at hall
    refine Does.as hall h fun k => ?_
    have htop : k ∈ top r'' → k ∈ T ∨ k ∈ o.modified := fun hk => (hd.modified k).mp (hi.top k hk)
    simp only [Set.mem_union, Set.mem_empty_iff_false]
    rw [@or_comm (k ∈ top l)]
    exact or_absorb htop
  · rw [keys_node, List.mem_append, List.mem_cons, not_or, not_or] at hkt
    obtain ⟨h1, h2, h3⟩ := hkt
    rw [hfr k (by simp [hmem, hkk, h1, h2, h3]), hV3 k h2, hi.frame k hkk h3]
  · obtain ⟨rfl, hgr⟩ := AVL.insert_right hok hr' hreb hgrow
    refine ⟨fun k hk => hn4.mem (.inl hk), fun k hk => hn4.mem (.inr hk),
      fun h => absurd h hk.not_gt, fun _ => ?_⟩
    exact (hi.warm hgr).mono fun k hk => hn4.kept (hn3.kept hk)
  · rw [← hd.grows.depth, ← hd.grows.store]
    refine (Does.trans hn3 hn4).lookTop hd.mid (fun k hk => .inr (.inl hk)) (fun k hk => ?_)
      fun k hk => ?_
    · rcases hk with hk | hk | hk
      exacts [hk.elim, .inl hk, .inr (hi.top k hk)]
    · have hkl' := mem_keys_of_top hk
      obtain ⟨md, hVk⟩ := hll.mem hkl'
      rw [hi.frame k (fun e => hkl (e ▸ hkl')) fun h => hlr k hkl' h, hVk]
      exact Option.some_ne_none md

/-- **An insertion**, with its footprint in a batch. -/
theorem insert_spec (hv : value.length ≤ 16) (hkey : real E key = true) {fuel : Nat} (h : Mid E P V o)
    (hr : Rooted E V id pos t) (hok : AVL.Ok t) (hs : Ascending (AVL.pairs t))
    (hfuel : t.height < fuel)
    (hnew : key ∉ keys t → V key = none ∧ P key = E.tape o.draws ∧ Leaf o.depth (P key))
    (hup : Upward o.modified t) :
    ∃ V' o' id' u, AVL.insert key (Buf.zero.copyStr value) t = some u ∧
      AVLTree.insert E fuel id pos key value o = some (id', P id', o') ∧
      Does E P V' o o' {k | k = key ∨ k ∈ visited key t} (reread P o.leafList key t)
        (insertDraws key (Buf.zero.copyStr value) t) ∧ Inserted P V key t u id' V' o' ∧
      (o.batchWrite = true → footprint o' = trace E P o.depth o.store key t (footprint o)) := by
  induction t generalizing fuel id pos V o with
  | nil =>
    obtain ⟨hV, hP, hleaf⟩ := hnew (by simp)
    obtain ⟨-, hid⟩ := hr.resolve_left fun h => h.2 rfl
    obtain ⟨fuel, rfl⟩ := Nat.exists_eq_succ_of_ne_zero (Nat.pos_iff_ne_zero.mp hfuel)
    obtain ⟨V', o', ho', hd, hi, hfoot⟩ := insert_nil pos value fuel h hkey hid hV hP hleaf
    exact ⟨V', o', key, _, rfl, ho', hd, hi, hfoot⟩
  | node e l r ihl ihr =>
    obtain ⟨hr, -⟩ := hr.resolve_right fun h => by cases h.1
    obtain ⟨hsl, hsr, hle, hre⟩ := ascending_node hs
    have hnd : (keys (.node e l r)).Nodup := hs.nodup
    obtain ⟨hndl, hndr, hel, her, hlr⟩ := nodup_node hnd
    obtain ⟨-, -, hul, hur⟩ := hup
    have hok' := hok
    obtain ⟨-, hb1, hb2, hokl, hokr⟩ := hok'
    obtain ⟨u, hu, -⟩ := AVL.insert_ok key (Buf.zero.copyStr value) hok
    obtain ⟨nd, hV, rfl, rfl, hl, hrr⟩ := hr
    dsimp only at hel her hle hre
    obtain ⟨fuel, rfl⟩ := Nat.exists_eq_succ_of_ne_zero (Nat.ne_of_gt (Nat.zero_lt_of_lt hfuel))
    replace hfuel : max l.height r.height + 1 < fuel + 1 := hfuel
    obtain ⟨o1, ho1, hn1⟩ := readNode_spec h hV
    have hdr : o1.draws = o.draws := hn1.drawn
    have hfoot1 : footprint o1 = look E P o1.depth o1.store (footprint o) id := by
      rw [hn1.grows.depth, hn1.grows.store]
      exact hn1.looks id rfl (h.somewhere hV) fun _ => .inl
    have hlook := lookup_cached hn1.mid hV (hn1.mem rfl)
    have hid1 : id ∈ o1.modified := hn1.mem rfl
    have hgrow : ∀ {t : Tree n}, id ∉ keys t → (keys t).Nodup → Upward o.modified t →
        Upward o1.modified t := fun hid hnd hup =>
      hup.grow (fun _ => hn1.kept) hnd fun k hk hk' => .inl <| by
        rcases (hn1.modified k).mp hk' with rfl | hk'
        exacts [absurd hk hid, hk']
    have hleafs : ∀ {leaf}, leaf ∈ o1.leafList ↔ leaf ∈ o.leafList ∨ P id = leaf := hn1.mem_leafList
    have hreal := h.real hV
    have hkey1 := h.key hV
    have hT : ∀ {t : Tree n}, ∀ k ∈ {k | k = key ∨ k ∈ visited key t}, k = key ∨ k ∈ keys t :=
      fun k hk => hk.imp_right mem_keys_of_visited
    rcases lt_trichotomy key id with hk | rfl | hk
    · have hin := mem_keys_left hs hk
      obtain ⟨V2, o2, lid, l', hl', ho2, hd, hi, hf2⟩ := ihl hn1.mid hl.rooted hokl hsl
        (show l.height < fuel by omega) (fun hkl => by
          rw [hdr, hn1.grows.depth]
          exact hnew (hin.not.mpr hkl)) (hgrow hel hndl hul)
      obtain ⟨V', o', id', ho', hd', hi', hf⟩ := insertLeft_spec hn1.mid
        ⟨nd, hV, rfl, rfl, hl, hrr⟩ hok hs hk hid1 (hgrow her hndr hur) hl' hu hd hT hi
      have hcount : reread P o1.leafList key l = reread P o.leafList key
          (.node ⟨id, nd.value, nd.height⟩ l r) := by
        simp only [reread, hin, hleafs, searched, hk, if_true, List.exists_mem_cons_iff, or_assoc]
      refine ⟨V', o', id', u, hu, ?_, ?_, hi', fun hb => ?_⟩
      · simp only [AVLTree.insert, hreal, if_true, ho1, guard_true, hlook, hkey1, hk, ho2,
          Option.bind_eq_bind, Option.bind_some]
        exact ho'
      · have hall := (Does.trans hn1 hd').of_eq (visited_left (e := ⟨id, nd.value, nd.height⟩) hk)
        rw [Nat.zero_add, Nat.zero_add, hcount] at hall
        simpa only [insertDraws, hk, if_true, hl', Option.elim_some] using hall
      · rw [hf, hf2 (hn1.grows.batch.trans hb), hfoot1, hn1.grows.depth, hn1.grows.store]
        simp only [trace, hk, if_true]
    · have hpos : nd.pos = P key := h.place hV
      obtain rfl : u = .node ⟨key, Buf.zero.copyStr value, nd.height⟩ l r := by
        simpa [AVL.insert] using hu.symm
      obtain ⟨V2, o2, ho2, hn2, hkey2, hV2⟩ := setNode_spec hn1.mid hV (hn1.mid.touched _ hid1)
        (Node.copyValue value) (by rw [copyValue_padded hv]) (by rw [copyValue_padded hv])
      rw [copyValue_padded hv] at hkey2
      have hout : ∀ {t : Tree n}, key ∉ keys t → ∀ j ∈ keys t, V2 j = V j := fun ht j hj =>
        hV2 j fun e => ht (e ▸ hj)
      refine ⟨V2, o2, key, _, hu, ?_, ?_, ⟨fun k hk _ => hV2 k hk, ?_, fun k hk => ?_, ?_,
        fun h => absurd h (Nat.succ_ne_self _).symm⟩, fun hb => ?_⟩
      · simp only [AVLTree.insert, hreal, if_true, ho1, guard_true, hlook, hkey1, lt_irrefl,
          if_false, ho2, rewrite_eq hn2.mid hkey2 (hn2.kept hid1), Option.bind_eq_bind,
          Option.bind_some, Option.pure_def]
        rw [hpos]
      · have hcount : reread P o.leafList key (.node ⟨key, nd.value, nd.height⟩ l r) = 0 :=
          if_neg fun h => h.1 (by simp)
        rw [hcount, show insertDraws key _ (.node ⟨key, nd.value, nd.height⟩ l r) = 0 by
          simp [insertDraws]]
        refine (Does.trans hn1 hn2).of_eq ?_
        ext k
        simp [visited]
      · exact ⟨_, hkey2, hpos, rfl, hl.congr (hout hel), hrr.congr (hout her)⟩
      · rw [mem_top_node.mp hk]
        exact hn2.kept hid1
      · exact .node (hn2.kept hid1) ((hgrow hel hndl hul).next hn2 hndl)
          ((hgrow her hndr hur).next hn2 hndr)
      · rw [hn2.quiet fun k hk => hk.elim, hfoot1, hn1.grows.depth, hn1.grows.store]
        simp only [trace, lt_irrefl, if_false]
    · have hin := mem_keys_right hs hk
      obtain ⟨V2, o2, rid, r', hr', ho2, hd, hi, hf2⟩ := ihr hn1.mid hrr.rooted hokr hsr
        (show r.height < fuel by omega) (fun hkr => by
          rw [hdr, hn1.grows.depth]
          exact hnew (hin.not.mpr hkr)) (hgrow her hndr hur)
      obtain ⟨V', o', id', ho', hd', hi', hf⟩ := insertRight_spec hn1.mid
        ⟨nd, hV, rfl, rfl, hl, hrr⟩ hok hs hk hid1 (hgrow hel hndl hul) hr' hu hd hT hi
      have hcount : reread P o1.leafList key r = reread P o.leafList key
          (.node ⟨id, nd.value, nd.height⟩ l r) := by
        simp only [reread, hin, hleafs, searched, hk, hk.not_gt, if_true, if_false,
          List.exists_mem_cons_iff, or_assoc]
      refine ⟨V', o', id', u, hu, ?_, ?_, hi', fun hb => ?_⟩
      · simp only [AVLTree.insert, hreal, if_true, ho1, guard_true, hlook, hkey1, hk, hk.not_gt,
          if_false, ho2, Option.bind_eq_bind, Option.bind_some]
        exact ho'
      · have hall := (Does.trans hn1 hd').of_eq (visited_right (e := ⟨id, nd.value, nd.height⟩) hk)
        rw [Nat.zero_add, Nat.zero_add, hcount] at hall
        simpa only [insertDraws, hk, hk.not_gt, if_true, if_false, hr', Option.elim_some] using hall
      · rw [hf, hf2 (hn1.grows.batch.trans hb), hfoot1, hn1.grows.depth, hn1.grows.store]
        simp only [trace, hk, hk.not_gt, if_true, if_false]

/-! ## Search -/

theorem mem_keys_of_searched : ∀ {t : Tree n}, k ∈ searched key t → k ∈ keys t
  | .nil, h => h
  | .node e l r, h => by
    rw [keys_node, List.mem_append, List.mem_cons]
    rcases List.mem_cons.mp h with rfl | h
    · exact .inr (.inl rfl)
    · split_ifs at h
      exacts [.inl (mem_keys_of_searched h), .inr (.inr (mem_keys_of_searched h)), by cases h]

theorem mem_searched_of_top (h : k ∈ top t) : k ∈ searched key t := by
  cases t with
  | nil => exact (mem_top_nil.mp h).elim
  | node e l r => exact List.mem_cons.mpr (.inl (mem_top_node.mp h))

/-- A key of the tree is on the way to itself. -/
theorem mem_searched_self : ∀ {t : Tree n}, Ascending (AVL.pairs t) → key ∈ keys t →
    key ∈ searched key t
  | .nil, _, h => h
  | .node e l r, hs, h => by
    obtain ⟨hsl, hsr, -, -⟩ := ascending_node hs
    rcases lt_trichotomy key e.key with hk | hk | hk
    · simp [searched, hk, mem_searched_self hsl ((mem_keys_left hs hk).mp h)]
    · simp [searched, hk]
    · simp [searched, hk, hk.not_gt, mem_searched_self hsr ((mem_keys_right hs hk).mp h)]

theorem readNode_zero (hz : id.isZero = true) : readNode E id pos pos o = some (o, false) := by
  simp [readNode, hz]

def searchChild (E : Env n) (fuel : Nat) (id : Bid n) (pos : Int) (key : Bid n) (o : ORAM n) :
    Option (Option (Bid n) × ORAM n) := do
  let (o, found) ← readNode E id pos pos o
  if found then
    let child ← o.cache.lookup id
    AVLTree.search E fuel child.key child.pos key o
  else pure (none, o)

theorem searchChild_spec (key : Bid n) (fuel : Nat) (h : Mid E P V o) (hr : Repr V id pos t)
    (hnd : (keys t).Nodup) (hup : Upward o.modified t)
    (ih : ∀ {o}, Mid E P V o → Upward o.modified t →
      ∃ o', AVLTree.search E fuel id pos key o =
          some (if key ∈ keys t then some key else none, o') ∧
        Next E P V o o' {k | k ∈ searched key t} ∧ Upward o'.modified t) :
    ∃ o', searchChild E fuel id pos key o = some (if key ∈ keys t then some key else none, o') ∧
      Next E P V o o' {k | k ∈ searched key t} ∧ Upward o'.modified t := by
  cases t with
  | nil =>
    exact ⟨o, by simp [searchChild, readNode_zero (show id.isZero = true from hr)],
      (Next.refl h).of_eq (by ext; simp [searched]), trivial⟩
  | node e l r =>
    obtain ⟨nd, hV, rfl, rfl, -⟩ := hr
    obtain ⟨o1, ho1, hn1⟩ := readNode_spec h hV
    have hup1 := hup.grow (fun _ => hn1.kept) hnd fun k _ hk' => by
      rw [mem_top_node]
      exact ((hn1.modified k).mp hk').symm
    obtain ⟨o2, ho2, hn2, hup2⟩ := ih hn1.mid hup1
    refine ⟨o2, ?_, (Does.trans hn1 hn2).of_eq ?_, hup2⟩
    · simp only [searchChild, ho1, Option.bind_eq_bind, Option.bind_some, if_true,
        lookup_cached hn1.mid hV (hn1.mem rfl), h.key hV, ho2]
    · exact Set.insert_eq_of_mem (mem_searched_of_top (by simp))

/-- **A search** finds the key if the tree has it. -/
theorem search_spec (key : Bid n) {fuel : Nat} (h : Mid E P V o) (hr : Rooted E V id pos t)
    (hs : Ascending (AVL.pairs t)) (hfuel : t.height < fuel) (hup : Upward o.modified t) :
    ∃ o', AVLTree.search E fuel id pos key o =
        some (if key ∈ keys t then some key else none, o') ∧
      Next E P V o o' {k | k ∈ searched key t} ∧ Upward o'.modified t := by
  induction t generalizing fuel id pos o with
  | nil =>
    obtain ⟨-, hid⟩ := hr.resolve_left fun h => h.2 rfl
    obtain ⟨fuel, rfl⟩ := Nat.exists_eq_succ_of_ne_zero (Nat.pos_iff_ne_zero.mp hfuel)
    exact ⟨o, by simp [AVLTree.search, hid], (Next.refl h).of_eq (by ext; simp [searched]), trivial⟩
  | node e l r ihl ihr =>
    obtain ⟨hr, -⟩ := hr.resolve_right fun h => by cases h.1
    obtain ⟨hsl, hsr, hle, hre⟩ := ascending_node hs
    have hnd : (keys (.node e l r)).Nodup := hs.nodup
    obtain ⟨hndl, hndr, hel, her, hlr⟩ := nodup_node hnd
    obtain ⟨-, -, hul, hur⟩ := hup
    obtain ⟨nd, hV, rfl, rfl, hl, hrr⟩ := hr
    dsimp only at hel her hle hre
    obtain ⟨fuel, rfl⟩ := Nat.exists_eq_succ_of_ne_zero (Nat.ne_of_gt (Nat.zero_lt_of_lt hfuel))
    replace hfuel : max l.height r.height + 1 < fuel + 1 := hfuel
    obtain ⟨o1, ho1, hn1⟩ := readNode_spec h hV
    have hlook := lookup_cached hn1.mid hV (hn1.mem rfl)
    have hreal := h.real hV
    have hkey1 := h.key hV
    have hgrow : ∀ {t : Tree n}, id ∉ keys t → (keys t).Nodup → Upward o.modified t →
        Upward o1.modified t := fun hid hnd hup =>
      hup.grow (fun _ => hn1.kept) hnd fun k hk hk' => .inl <| by
        rcases (hn1.modified k).mp hk' with rfl | hk'
        exacts [absurd hk hid, hk']
    rcases lt_trichotomy key id with hk | rfl | hk
    · obtain ⟨o2, ho2, hn2, hup2⟩ := searchChild_spec key fuel hn1.mid hl hndl
        (hgrow hel hndl hul) fun h hup => ihl h hl.rooted hsl (by omega) hup
      refine ⟨o2, ?_, (Does.trans hn1 hn2).of_eq ?_, .node (hn2.kept (hn1.mem rfl)) hup2 ?_⟩
      · simp only [AVLTree.search, hreal, if_true, ho1, guard_true, hlook, hkey1, hk,
          Option.bind_eq_bind, Option.bind_some, mem_keys_left hs hk]
        exact ho2
      · ext k
        simp [searched, hk]
      · refine (hgrow her hndr hur).grow (fun _ => hn2.kept) hndr fun k hkr hk' => .inl ?_
        exact ((hn2.modified k).mp hk').resolve_left fun h => hlr k (mem_keys_of_searched h) hkr
    · refine ⟨o1, ?_, hn1.of_eq ?_, .node (hn1.mem rfl) (hgrow hel hndl hul) (hgrow her hndr hur)⟩
      · simp only [AVLTree.search, hreal, if_true, ho1, guard_true, hlook, hkey1, lt_irrefl,
          if_false, Option.bind_eq_bind, Option.bind_some, Option.pure_def]
        simp
      · ext k
        simp [searched]
    · obtain ⟨o2, ho2, hn2, hup2⟩ := searchChild_spec key fuel hn1.mid hrr hndr
        (hgrow her hndr hur) fun h hup => ihr h hrr.rooted hsr (by omega) hup
      refine ⟨o2, ?_, (Does.trans hn1 hn2).of_eq ?_, .node (hn2.kept (hn1.mem rfl)) ?_ hup2⟩
      · simp only [AVLTree.search, hreal, if_true, ho1, guard_true, hlook, hkey1, hk, hk.not_gt,
          if_false, Option.bind_eq_bind, Option.bind_some, mem_keys_right hs hk]
        exact ho2
      · ext k
        simp [searched, hk, hk.not_gt]
      · refine (hgrow hel hndl hul).grow (fun _ => hn2.kept) hndl fun k hkl hk' => .inl ?_
        exact ((hn2.modified k).mp hk').resolve_left fun h => hlr k hkl (mem_keys_of_searched h)

end

end SmallClientSSE.Omap
