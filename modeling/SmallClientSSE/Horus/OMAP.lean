import SmallClientSSE.Omap.Setup

/-!
# The OMAP of Horus

It differs from the shared one in two places. A new node takes one of the free blocks that the
store counts down (`writeData`), and `finilize` updates the positions of the heights from `0` to
`depth + 2`, one less at the top (`refresh`). Rotations write cached nodes only, which takes no
block, so they are the shared ones. A key counts as `0` when its first four bytes are zero.
-/

namespace SmallClientSSE.HorusOMAP

open Lib Omap Omap.ORAM BinaryTree

variable {n : Nat}

/-- An ORAM with the free blocks of its store. -/
structure Stocked (n : Nat) where
  oram : ORAM n
  emptyNodes : Nat

section

variable (E : Env n)

def writeData (bid : Bid n) (node : Node n) (s : Stocked n) : Option (Stocked n) :=
  if 0 < s.emptyNodes then some {
    oram := { s.oram with cache := s.oram.cache.put bid node }
    emptyNodes := s.emptyNodes - 1 }
  else none

def accessWrite (bid : Bid n) (node : Node n) (s : Stocked n) : Option (Stocked n) := do
  let o ← if s.oram.batchWrite then pure s.oram else fetchPath E node.pos s.oram
  let s ← writeData bid node { s with oram := o }
  pure { s with oram := addLeaf node.pos s.oram }

def writeNode (bid : Bid n) (node : Node n) (s : Stocked n) : Option (Int × Stocked n) :=
  if bid.isZero then none
  else if bid ∉ s.oram.cache then do
    let s ← accessWrite E bid node { s with oram := modify bid s.oram }
    pure (node.pos, s)
  else some (node.pos, { s with oram := modify bid s.oram })

/-- `AVLTree::insert`. -/
def insertNode : Nat → Bid n → Int → Bid n → Str → Stocked n → Option (Bid n × Int × Stocked n)
  | 0, _, _, _, _, _ => none
  | fuel + 1, rootKey, pos, key, value, s =>
    if real E rootKey then do
      let (o, found) ← readNode E rootKey pos pos s.oram
      guard found
      let node ← o.cache.lookup rootKey
      if key < node.key then
        let (leftID, leftPos, s) ← insertNode fuel node.leftID node.leftPos key value
          { s with oram := o }
        let o ← setNode rootKey (fun node => { node with
          leftID := leftID
          leftPos := leftPos }) s.oram
        let (res, resPos, o) ← AVLTree.rebalance E rootKey pos key o
        pure (res, resPos, { s with oram := o })
      else if node.key < key then
        let (rightID, rightPos, s) ← insertNode fuel node.rightID node.rightPos key value
          { s with oram := o }
        let o ← setNode rootKey (fun node => { node with
          rightID := rightID
          rightPos := rightPos }) s.oram
        let (res, resPos, o) ← AVLTree.rebalance E rootKey pos key o
        pure (res, resPos, { s with oram := o })
      else
        let o ← setNode rootKey (Node.copyValue value) o
        let o ← AVLTree.rewrite E rootKey o
        pure (node.key, pos, { s with oram := o })
    else do
      let (nnode, o) := AVLTree.newNode E key value s.oram
      let (pos, s) ← writeNode E key nnode { s with oram := o }
      pure (nnode.key, pos, s)

/-- The position updates of `finilize`: `i` goes from `0` to `depth + 2`. -/
def refresh (o : ORAM n) : ORAM n := (List.range (o.depth + 3)).foldl (refreshHeight E) o

def finilize (find : Bool) (rootKey : Bid n) (o : ORAM n) : Option (Int × ORAM n) := do
  let o ← pad E find o
  let o := refresh E o
  let root ← o.cache.lookup rootKey
  let o ← evict E o
  pure (root.pos, o)

end

/-- `OMAP`: the tree's root and ORAM, and the free blocks. -/
structure OMAP (n : Nat) where
  map : Omap.OMAP n
  emptyNodes : Nat

namespace OMAP

/-- The constructor. The ORAM records how far up the position updates go. -/
def init (maxSize : Nat) : OMAP n where
  map := Omap.OMAP.init (depthOf maxSize) (depthOf maxSize + 2)
  emptyNodes := blockCount (depthOf maxSize)

variable (E : Env n)

def find (fuel : Nat) (key : Bid n) (m : OMAP n) : Option (Str × OMAP n) :=
  if m.map.rootKey.isZero then some ([], m)
  else do
    let o := start false m.map.oram
    let (resNode, o) ← AVLTree.search E fuel m.map.rootKey m.map.rootPos key o
    let res ← match resNode with
      | none => some []
      | some k => (o.cache.lookup k).map fun node => node.value.cstr
    let (rootPos, o) ← finilize E true m.map.rootKey o
    pure (res, { m with map := ⟨m.map.rootKey, rootPos, o⟩ })

def insert (fuel : Nat) (key : Bid n) (value : Str) (m : OMAP n) : Option (OMAP n) := do
  let root := if m.map.rootKey.isZero then Bid.null else m.map.rootKey
  let (rootKey, _, s) ← insertNode E fuel root m.map.rootPos key value
    ⟨start false m.map.oram, m.emptyNodes⟩
  let (rootPos, o) ← finilize E false rootKey s.oram
  pure ⟨⟨rootKey, rootPos, o⟩, s.emptyNodes⟩

/-- `setupInsert`, which leaves the free blocks as they are. -/
def setupInsert (S : PosSort (nodes E)) (pairs : List (Bid n × Str)) (m : OMAP n) :
    Option (OMAP n) :=
  (Omap.OMAP.setupInsert E S pairs m.map).map fun map => { m with map := map }

end OMAP

/-! ## The end of an operation -/

section

variable {E : Env n} {P : Bid n → Int} {V : Bid n → Option (Node n)} {o : ORAM n} {t : Tree n}
  {id key : Bid n} {pos : Int} {m : OMAP n} {value : Str} {fuel : Nat}

theorem refresh_eq (hmh : o.maxHeightOfAVLTree = o.depth + 2)
    (hkeep : (refreshHeight E o 0).maxHeightOfAVLTree = o.maxHeightOfAVLTree) :
    refresh E o = ORAM.refresh E (refreshHeight E o 0) := by
  rw [refresh, ORAM.refresh, hkeep, hmh, List.range_eq_range', List.range'_succ, List.foldl_cons]

theorem height_pos (hr : Repr V id pos t) (hok : AVL.Ok t) {k : Bid n}
    (hk : k ∈ keys t) {nd : Node n} (hV : V k = some nd) : 0 < nd.height := by
  induction t generalizing id pos with
  | nil => cases hk
  | node e l r ihl ihr =>
    obtain ⟨he, -, -, hokl, hokr⟩ := hok
    obtain ⟨md, hVd, -, rfl, hl, hrr⟩ := hr
    rw [keys_node, List.mem_append, List.mem_cons] at hk
    rcases hk with hk | rfl | hk
    · exact ihl hl hokl hk
    · obtain rfl : md = nd := Option.some.inj (hVd.symm.trans hV)
      replace he : md.height = max (AVL.height l) (AVL.height r) + 1 := he
      omega
    · exact ihr hrr hokr hk

theorem refreshHeight_zero (h : Loaded E V o) (htape : ∀ i, Leaf o.depth (E.tape i))
    (hpos : ∀ k nd, V k = some nd → 0 < nd.height) :
    Loaded E V (refreshHeight E o 0) ∧ Steady o (refreshHeight E o 0) := by
  obtain ⟨V', h', hs, hround⟩ := refreshHeight_spec h htape 0
  have hsame : V' = V := funext fun k => by
    cases hV : V k with
    | none => exact (hround k).gone hV
    | some nd => exact (hround k).kept hV (.inr (hpos k nd hV).ne')
  exact ⟨hsame ▸ h', hs⟩

/-- **The end of an operation.** -/
theorem finilize_spec (find : Bool) (h : Working E P V t m.map) (hb : m.map.oram.batchWrite = false)
    (hw : m.map.oram.writeviewmap = []) (htape : ∀ i, Leaf m.map.oram.depth (E.tape i))
    (ht : t ≠ .nil) (htop : ∀ k ∈ top t, k ∈ m.map.oram.modified)
    (hmh : m.map.oram.maxHeightOfAVLTree = m.map.oram.depth + 2) :
    ∃ V' pos' o', finilize E find m.map.rootKey m.map.oram = some (pos', o') ∧ Rest E V' o' ∧
      (t.height ≤ m.map.oram.depth + 2 ∨ m.map.oram.depth = 0 →
        Stored E V' t ⟨m.map.rootKey, pos', o'⟩) ∧
      Same V V' ∧ Settings m.map.oram o' := by
  obtain ⟨hroot, hV, -⟩ := h.root ht
  have hr := h.rooted.repr ht
  obtain ⟨o1, ho1, h1, hg1, hmod1, -⟩ := pad_spec find h.mid hb htape
  have hpos : ∀ k nd, V k = some nd → 0 < nd.height := fun k nd hV =>
    height_pos hr h.ok (h.dom k (by simp [hV])) hV
  obtain ⟨h2, hs2⟩ := refreshHeight_zero h1.toLoaded (hg1.depth ▸ htape) hpos
  have hdepth := hs2.depth.trans hg1.depth
  have hmax := hs2.maxHeight.trans hg1.maxHeight
  have hmod := hs2.modified.trans hmod1
  obtain ⟨V', nd, o3, hlook, ho3, hrest, hrepr, hsame, hd3, hm3, -⟩ := settle_spec h2
    (hdepth ▸ htape) (fun k hk => (hs2.cache k).mpr (h1.touched k (hs2.modified ▸ hk)))
    (hs2.batch.trans (hg1.batch.trans hb)) (hs2.written.trans (hg1.written.trans hw)) hr
    (hmod ▸ htop _ hroot) hV (hmod ▸ h.upward) h.ok
  rw [hmax, hdepth, hmh] at hrepr
  refine ⟨V', nd.pos, o3, ?_, hrest, fun hH => ⟨hrest, (hrepr (h.ok.height_eq ▸ hH)).rooted,
    fun k hk => h.dom k fun hV => hk ((hsame k).1 hV), h.ok, h.sorted⟩, hsame, hd3.trans hdepth,
    hm3.trans hmax⟩
  have heq : refresh E o1 = ORAM.refresh E (refreshHeight E o1 0) :=
    refresh_eq (by rw [hg1.maxHeight, hg1.depth, hmh]) hs2.maxHeight
  simp only [finilize, ho1, heq, hlook, ho3, Option.bind_eq_bind, Option.bind_some,
    Option.pure_def]

/-! ## Against the shared insertion -/

theorem accessWrite_oram (bid : Bid n) (node : Node n) {s : Stocked n} (hs : 0 < s.emptyNodes) :
    (accessWrite E bid node s).map Stocked.oram = ORAM.accessWrite E bid node s.oram := by
  simp only [accessWrite, ORAM.accessWrite, writeData, hs, if_true, Option.bind_eq_bind,
    Option.pure_def, Option.bind_some]
  split
  · rfl
  · exact Option.map_bind ..

/-- What `WriteNode` does to the ORAM when there is a free block. -/
theorem writeNode_oram (bid : Bid n) (node : Node n) {s : Stocked n} (hs : 0 < s.emptyNodes) :
    (writeNode E bid node s).map (fun r => (r.1, r.2.oram)) =
      ORAM.writeNode E bid node s.oram := by
  unfold writeNode ORAM.writeNode
  by_cases hz : bid.isZero = true
  · rw [if_pos hz, if_pos hz]
    rfl
  · rw [if_neg hz, if_neg hz]
    by_cases hc : bid ∉ s.oram.cache
    · rw [if_pos hc, if_pos hc]
      have := accessWrite_oram (E := E) bid node (s := { s with oram := ORAM.modify bid s.oram }) hs
      simp only [← this, Option.bind_eq_bind, Option.map_bind, Option.bind_map, Option.pure_def,
        Option.map_some, Function.comp_def]
    · rw [if_neg hc, if_neg hc]
      rfl

/-- With a free block an insertion does to the ORAM what the shared one does. -/
theorem insertNode_oram (key : Bid n) (value : Str) {s : Stocked n} (hs : 0 < s.emptyNodes) :
    (insertNode E fuel id pos key value s).map (fun r => (r.1, r.2.1, r.2.2.oram)) =
      AVLTree.insert E fuel id pos key value s.oram := by
  induction fuel generalizing id pos s with
  | zero => rfl
  | succ fuel ih =>
    unfold insertNode AVLTree.insert
    by_cases hreal : real E id = true
    · simp only [hreal, if_true, Option.bind_eq_bind]
      cases readNode E id pos pos s.oram with
      | none => rfl
      | some r =>
        obtain ⟨o, found⟩ := r
        cases found with
        | false => rfl
        | true =>
          simp only [Option.bind_some, guard_true]
          cases o.cache.lookup id with
          | none => rfl
          | some node =>
            simp only [Option.bind_some]
            split_ifs
            · rw [← ih (s := { s with oram := o }) hs]
              simp only [Option.map_bind, Option.bind_map, Function.comp_def, Option.pure_def,
                Option.map_some, Prod.mk.eta, Option.bind_fun_some]
            · rw [← ih (s := { s with oram := o }) hs]
              simp only [Option.map_bind, Option.bind_map, Function.comp_def, Option.pure_def,
                Option.map_some, Prod.mk.eta, Option.bind_fun_some]
            · simp only [Option.map_bind, Function.comp_def, Option.pure_def, Option.map_some]
    · rw [if_neg hreal, if_neg hreal]
      have := writeNode_oram (E := E) key (AVLTree.newNode E key value s.oram).1
        (s := { s with oram := (AVLTree.newNode E key value s.oram).2 }) hs
      simp only [← this, Option.bind_eq_bind, Option.map_bind, Option.bind_map, Function.comp_def,
        Option.pure_def, Option.map_some]

/-- An insertion of a key that counts as `0` throws in `WriteNode`. -/
theorem insert_zero (hkey : key.isZero = true) (h : Mid E P V o) (hr : Rooted E V id pos t) :
    AVLTree.insert E fuel id pos key value o = none := by
  induction t generalizing fuel id pos o with
  | nil =>
    obtain ⟨-, hid⟩ := hr.resolve_left fun h => h.2 rfl
    cases fuel with
    | zero => rfl
    | succ fuel =>
      simp only [AVLTree.insert, hid, Bool.false_eq_true, if_false, ORAM.writeNode, hkey, if_true,
        Option.bind_eq_bind, Option.bind_none]
  | node e l r ihl ihr =>
    obtain ⟨⟨nd, hV, rfl, rfl, hl, hrr⟩, -⟩ := hr.resolve_right fun h => by cases h.1
    cases fuel with
    | zero => rfl
    | succ fuel =>
      obtain ⟨o1, ho1, hn1⟩ := readNode_spec h hV
      have hlook := lookup_cached hn1.mid hV (hn1.mem rfl)
      have hne : key ≠ id := fun e => by
        rw [e, isZero_of_real (h.real hV)] at hkey
        cases hkey
      simp only [AVLTree.insert, h.real hV, if_true, ho1, guard_true, hlook, h.key hV,
        Option.bind_eq_bind, Option.bind_some]
      rcases hne.lt_or_gt with hk | hk
      · rw [if_pos hk, ihl hn1.mid hl.rooted]
        rfl
      · rw [if_neg hk.not_gt, if_pos hk, ihr hn1.mid hrr.rooted]
        rfl

/-! ## The operations -/

/-- Between operations an OMAP stores a tree, and its ORAM records how far up the position
updates go. -/
structure Holds (E : Env n) (V : Bid n → Option (Node n)) (t : Tree n) (d : Nat) (m : OMAP n) :
    Prop where
  stored : Stored E V t m.map
  depth : m.map.oram.depth = d
  top : m.map.oram.maxHeightOfAVLTree = d + 2

theorem Holds.settings {m' : OMAP n} {V' : Bid n → Option (Node n)} {u : Tree n} {d : Nat}
    (h : Holds E V t d m) (hs : Stored E V' u m'.map) (hset : Settings m.map.oram m'.map.oram) :
    Holds E V' u d m' :=
  ⟨hs, hset.1.trans h.depth, hset.2.trans h.top⟩

variable {d : Nat} (hlive : ∀ k, E.live k = true) (htape : ∀ i, Leaf d (E.tape i))

include hlive htape

/-- **`find`** returns what the tree maps the key to. -/
theorem find_spec (key : Bid n) (hfuel : t.height < fuel) (h : Holds E V t d m)
    (hH : t.height ≤ d + 2 ∨ d = 0) :
    ∃ V' m', OMAP.find E fuel key m = some ((contents t).find key, m') ∧ Holds E V' t d m' := by
  by_cases ht : t = .nil
  · subst ht
    obtain ⟨-, hnr⟩ := h.stored.rooted.resolve_left fun h => h.2 rfl
    have hz : m.map.rootKey.isZero = true := by simpa [real, hlive] using hnr
    exact ⟨V, m, by simp [OMAP.find, hz]; rfl, h⟩
  · have hw := h.stored.start false
    obtain ⟨hroot, hV, -⟩ := hw.root ht
    obtain ⟨nd, hV⟩ := Option.ne_none_iff_exists'.mp hV
    have hz := isZero_of_real (hw.mid.real hV)
    obtain ⟨r, o1, ho1, hw1, hn1, htop, hres⟩ := search_text key hw hfuel
    have hd1 : o1.depth = d := hn1.grows.depth.trans h.depth
    obtain ⟨V', pos', o2, hfin, -, hs, -, hset⟩ := finilize_spec (m := ⟨⟨_, _, o1⟩, m.emptyNodes⟩)
      true hw1 hn1.grows.batch hn1.grows.written (hd1 ▸ htape) ht htop
      (hn1.grows.maxHeight.trans (h.top.trans (by rw [hd1])))
    replace hs := hs (by rwa [hd1])
    refine ⟨V', { m with map := ⟨m.map.rootKey, pos', o2⟩ }, ?_, h.settings hs
      ⟨hset.1.trans hn1.grows.depth, hset.2.trans hn1.grows.maxHeight⟩⟩
    simp only [OMAP.find, hz, Bool.false_eq_true, if_false, ho1, Option.bind_eq_bind,
      Option.bind_some, Option.pure_def]
    cases r with
    | none =>
      rw [← Option.some.inj hres]
      simp only [Option.bind_some, hfin]
    | some k =>
      rw [Option.elim_some] at hres
      simp only [hres, Option.bind_some, hfin]

/-- **`insert`** does to the tree what `AVL.insert` does, when there is a free block. -/
theorem insert_refines (key : Bid n) (hv : value.length ≤ 16) (hkey : key.isZero = false)
    (hfree : 0 < m.emptyNodes) (hfuel : t.height < fuel) (h : Holds E V t d m) {u : Tree n}
    (hu : AVL.insert key (Buf.zero.copyStr value) t = some u) :
    ∃ V' m', OMAP.insert E fuel key value m = some m' ∧ Rest E V' m'.map.oram ∧
      (∃ k nd, V' k = some nd ∧ nd.height = u.height) ∧ m'.map.oram.depth = d ∧
      (u.height ≤ d + 2 ∨ d = 0 → Holds E V' u d m') := by
  have hw := h.stored.start false
  have hreal : real E key = true := by simp [real, hkey, hlive]
  have hnew : key ∉ keys t → places E V m.map.oram key = E.tape m.map.oram.draws ∧
      Leaf m.map.oram.depth (places E V m.map.oram key) := fun hk => by
    have hV : V key = none := by
      by_contra hV
      exact hk (h.stored.dom key hV)
    rw [places_of_none hV, h.depth]
    exact ⟨rfl, htape _⟩
  obtain ⟨u', V1, m1, hu', hm1, hw1, hd1, htop, -⟩ := insertOne_spec hv hw hreal hnew hfuel
  obtain rfl : u' = u := Option.some.inj (hu'.symm.trans hu)
  have hune : u' ≠ .nil := by
    rintro rfl
    exact absurd ((mem_keys_insert h.stored.sorted hu (k := key)).mpr (.inl rfl)) (by simp)
  obtain ⟨⟨k1, p1, o1⟩, hins, hm1⟩ := Option.bind_eq_some_iff.mp hm1
  obtain rfl := Option.some.inj hm1
  rw [← insertNode_oram key value (s := ⟨start false m.map.oram, m.emptyNodes⟩) hfree] at hins
  obtain ⟨⟨k2, p2, s⟩, hs, he⟩ := Option.map_eq_some_iff.mp hins
  obtain ⟨rfl, rfl, rfl⟩ : k2 = k1 ∧ p2 = p1 ∧ s.oram = o1 := by simpa using he
  have hdep : s.oram.depth = d := hd1.grows.depth.trans h.depth
  obtain ⟨V', pos', o2, hfin, hrest, hst, hsame, hset⟩ := finilize_spec
    (m := ⟨⟨_, _, s.oram⟩, s.emptyNodes⟩) false hw1 hd1.grows.batch hd1.grows.written
    (hdep ▸ htape) hune htop (hd1.grows.maxHeight.trans (h.top.trans (by rw [hdep])))
  refine ⟨V', ⟨⟨k2, pos', o2⟩, s.emptyNodes⟩, ?_, hrest, ?_, hset.1.trans hdep,
    fun hH => h.settings (hst (by rwa [hdep]))
      ⟨hset.1.trans hd1.grows.depth, hset.2.trans hd1.grows.maxHeight⟩⟩
  · simp only [OMAP.insert, hs, hfin, Option.bind_eq_bind, Option.bind_some, Option.pure_def]
  · -- the root keeps its height
    obtain ⟨nd, hV, hht⟩ := (hw1.rooted.repr hune).root_height hune
    obtain ⟨p, lp, rp, hV'⟩ := (hsame k2).2 nd hV
    exact ⟨_, _, hV', hht.trans hw1.ok.height_eq⟩

omit hlive htape in
/-- **`insert` throws** for a key that counts as `0`. -/
theorem insert_throws (key : Bid n) (value : Str) (hkey : key.isZero = true)
    (hfree : 0 < m.emptyNodes) (h : Holds E V t d m) : OMAP.insert E fuel key value m = none := by
  have hw := h.stored.start false
  have hnone : AVLTree.insert E fuel (if m.map.rootKey.isZero then Bid.null else m.map.rootKey)
      m.map.rootPos key value (start false m.map.oram) = none :=
    insert_zero hkey hw.mid (hw.rooted.orNull hw.mid)
  rw [← insertNode_oram key value (s := ⟨start false m.map.oram, m.emptyNodes⟩) hfree,
    Option.map_eq_none_iff] at hnone
  simp only [OMAP.insert, hnone, Option.bind_eq_bind, Option.bind_none]

end

end SmallClientSSE.HorusOMAP
