import Mathlib.Data.Nat.Size
import SmallClientSSE.Omap.Exact

/-!
# Loading an OMAP in bulk

`setupInsert` of `AVLTree.cpp`: the nodes of a sorted map become a search tree
around their midpoints, and the ORAM stores them at once. The tree is balanced, as
low as a tree of so many nodes can be, and its links are right from the start
(`OMAP.setupInsert_spec`).
-/

namespace SmallClientSSE.Omap

open Lib ORAM BinaryTree

variable {n : Nat} (E : Env n)

namespace AVLTree

/-- The nodes of the pairs, in the order of the map. -/
def setupNodes : List (Bid n × Str) → ORAM n → List (Node n) × ORAM n
  | [], o => ([], o)
  | pair :: pairs, o =>
    let (nnode, o) := newNode E pair.1 pair.2 o
    let (nodes, o) := setupNodes pairs o
    (nnode :: nodes, o)

/-- `sortedArrayToBST` on the part of `setupNodes` from `start` to `end`: `mid` is
`(length - 1) / 2` places after `start`. Returns the height, and sets `pos` and `node`. -/
def sortedArrayToBST (nodes : List (Node n)) (o : ORAM n) :
    (Int × Bid n × Nat) × List (Node n) × ORAM n :=
  match h : nodes.drop ((nodes.length - 1) / 2) with
  | [] => ((-1, Bid.null, 0), [], o)
  | root :: right =>
    let ((leftPos, leftID, leftHeight), left, o) :=
      sortedArrayToBST (nodes.take ((nodes.length - 1) / 2)) o
    let ((rightPos, rightID, rightHeight), right, o) := sortedArrayToBST right o
    let (pos, o) := randomPath E o
    let height := max leftHeight rightHeight + 1
    ((pos, root.key, height), left ++ { root with
      leftPos := leftPos
      leftID := leftID
      rightPos := rightPos
      rightID := rightID
      pos := pos
      height := height } :: right, o)
termination_by nodes.length
decreasing_by
  all_goals
    have := congrArg List.length h
    simp only [List.length_drop, List.length_cons, List.length_take] at this ⊢
    omega

end AVLTree

open AVLTree

/-- `OMAP::setupInsert`; a map comes in the order of its keys. -/
def OMAP.setupInsert (S : PosSort (nodes E)) (pairs : List (Bid n × Str)) (m : OMAP n) :
    Option (OMAP n) := do
  let (setupNodes, o) := setupNodes E pairs m.oram
  let ((rootPos, rootKey, _), setupNodes, o) := sortedArrayToBST E setupNodes o
  let o ← ORAM.setupInsert E S setupNodes o
  pure ⟨rootKey, rootPos, o⟩

/-! ## The tree around the midpoints -/

section

variable {E} {V V' : Bid n → Option (Node n)} {o o' : ORAM n} {l left right : List (Node n)}
  {root nd : Node n} {k : Bid n} {d : Nat}

theorem cut_mid (l : List (Node n)) : l = [] ∨ ∃ left root right, l = left ++ root :: right ∧
    left.length = (l.length - 1) / 2 ∧ right.length = l.length / 2 ∧
    l.take ((l.length - 1) / 2) = left ∧ l.drop ((l.length - 1) / 2) = root :: right := by
  by_cases hl : l = []
  · exact .inl hl
  · have hpos := List.length_pos_of_ne_nil hl
    have hlt : (l.length - 1) / 2 < l.length := by omega
    refine .inr ⟨l.take ((l.length - 1) / 2), l[(l.length - 1) / 2],
      l.drop ((l.length - 1) / 2 + 1), ?_, ?_, ?_, rfl, List.drop_eq_getElem_cons hlt⟩
    · rw [List.cons_getElem_drop_succ, List.take_append_drop]
    · rw [List.length_take]
      omega
    · rw [List.length_drop]
      omega

/-- The height of the tree of `m` nodes: `0`, or `log2 m` rounded down, and one. -/
theorem size_succ (m : Nat) : Nat.size (m + 1) = Nat.size ((m + 1) / 2) + 1 := by
  refine le_antisymm ?_ ?_
  · rw [Nat.size_le, pow_succ]
    have := Nat.lt_size_self ((m + 1) / 2)
    omega
  · rw [Nat.succ_le_iff, Nat.lt_size]
    by_cases hm : (m + 1) / 2 = 0
    · rw [hm, Nat.size_zero]
      omega
    · obtain ⟨s, hs⟩ := Nat.exists_eq_succ_of_ne_zero (Nat.size_pos.mpr (Nat.pos_of_ne_zero hm)).ne'
      have : 2 ^ s ≤ (m + 1) / 2 := Nat.lt_size.mp (by omega)
      rw [hs, Nat.succ_eq_add_one, pow_succ]
      omega

theorem size_eq_log {m : Nat} (h : 0 < m) : Nat.size m = Nat.log 2 m + 1 := by
  refine le_antisymm ?_ ?_
  · rw [Nat.size_le]
    exact Nat.lt_pow_succ_log_self (by decide) m
  · rw [Nat.succ_le_iff, Nat.lt_size]
    exact Nat.pow_log_le_self 2 h.ne'

theorem sortedArrayToBST_nil (o : ORAM n) :
    sortedArrayToBST E [] o = ((-1, Bid.null, 0), [], o) := by
  rw [sortedArrayToBST]
  split
  · rfl
  · next h =>
    rw [List.drop_nil] at h
    cases h

theorem sortedArrayToBST_cut (htake : l.take ((l.length - 1) / 2) = left)
    (hdrop : l.drop ((l.length - 1) / 2) = root :: right) (o : ORAM n) :
    sortedArrayToBST E l o =
      let r1 := sortedArrayToBST E left o
      let r2 := sortedArrayToBST E right r1.2.2
      let pos := E.tape r2.2.2.draws
      let height := max r1.1.2.2 r2.1.2.2 + 1
      ((pos, root.key, height), r1.2.1 ++ { root with
        leftPos := r1.1.1
        leftID := r1.1.2.1
        rightPos := r2.1.1
        rightID := r2.1.2.1
        pos := pos
        height := height } :: r2.2.1, { r2.2.2 with draws := r2.2.2.draws + 1 }) := by
  rw [sortedArrayToBST]
  split
  · next h =>
    rw [hdrop] at h
    cases h
  · next h =>
    rw [hdrop] at h
    obtain ⟨rfl, rfl⟩ := List.cons.inj h
    rw [htake]
    rfl

/-- The nodes are linked to a balanced tree of their pairs. -/
structure Built (E : Env n) (l : List (Node n)) (o : ORAM n)
    (r : (Int × Bid n × Nat) × List (Node n) × ORAM n) (t : Tree n) : Prop where
  repr : ∀ V : Bid n → Option (Node n), (∀ nd ∈ r.2.1, V nd.key = some nd) →
    Repr V r.1.2.1 r.1.1 t
  ok : AVL.Ok t
  height : r.1.2.2 = AVL.height t
  size : AVL.height t = Nat.size l.length
  pairs : AVL.pairs t = l.map fun nd => (nd.key, nd.value)
  keys : r.2.1.map Node.key = l.map Node.key
  drawn : ∀ nd ∈ r.2.1, ∃ i, nd.pos = E.tape i
  oram : r.2.2 = { o with draws := r.2.2.draws }

theorem sortedArrayToBST_spec (l : List (Node n)) (o : ORAM n) :
    ∃ t, Built E l o (sortedArrayToBST E l o) t := by
  rcases cut_mid l with rfl | ⟨left, root, right, rfl, hleft, hright, htake, hdrop⟩
  · rw [sortedArrayToBST_nil]
    exact ⟨.nil, fun V _ => isZero_null, trivial, rfl, rfl, rfl, rfl,
      fun nd h => absurd h List.not_mem_nil, rfl⟩
  · obtain ⟨tl, hl⟩ := sortedArrayToBST_spec left o
    rw [sortedArrayToBST_cut htake hdrop]
    dsimp only
    generalize sortedArrayToBST E left o = r1 at hl ⊢
    obtain ⟨tr, hr⟩ := sortedArrayToBST_spec right r1.2.2
    generalize sortedArrayToBST E right r1.2.2 = r2 at hr ⊢
    have hlen : (left ++ root :: right).length = left.length + right.length + 1 := by
      rw [List.length_append, List.length_cons, Nat.add_assoc]
    rw [hlen] at hleft hright
    -- siblings have almost the same number of nodes
    have hsl : Nat.size left.length ≤ Nat.size right.length := Nat.size_le_size (by omega)
    have hsr : Nat.size right.length ≤ Nat.size left.length + 1 := by
      rw [Nat.size_le, pow_succ]
      have := Nat.lt_size_self left.length
      omega
    rw [← hl.size, ← hr.size] at hsl hsr
    refine ⟨.node ⟨root.key, root.value, max r1.1.2.2 r2.1.2.2 + 1⟩ tl tr, fun V hV => ?_, ?_, rfl,
      ?_, ?_, ?_, ?_, ?_⟩
    · refine ⟨_, hV { root with
        leftPos := r1.1.1
        leftID := r1.1.2.1
        rightPos := r2.1.1
        rightID := r2.1.2.1
        pos := E.tape r2.2.2.draws
        height := max r1.1.2.2 r2.1.2.2 + 1 } (by simp), rfl, rfl, hl.repr V fun nd h => hV nd ?_,
        hr.repr V fun nd h => hV nd ?_⟩
      · exact List.mem_append_left _ h
      · exact List.mem_append_right _ (List.mem_cons_of_mem _ h)
    · refine ⟨?_, by omega, hsr, hl.ok, hr.ok⟩
      rw [hl.height, hr.height]
    · show max r1.1.2.2 r2.1.2.2 + 1 = _
      have := size_succ (left.length + right.length)
      rw [hlen, this, ← hright, ← hr.size, hl.height, hr.height, max_eq_right hsl]
    · rw [AVL.pairs_node, hl.pairs, hr.pairs, List.map_append, List.map_cons]
    · simp only [List.map_append, List.map_cons, hl.keys, hr.keys]
    · intro nd hnd
      rcases List.mem_append.mp hnd with h | h
      · exact hl.drawn nd h
      · rcases List.mem_cons.mp h with rfl | h
        exacts [⟨_, rfl⟩, hr.drawn nd h]
    · rw [hr.oram, hl.oram]
termination_by l.length
decreasing_by
  all_goals
    subst_vars
    simp only [List.length_append, List.length_cons]
    omega

/-- **Every node is stored once**: the loop ends, the nodes in the buckets and in the
cache are the nodes given, each bucket on the paths of its nodes, and the other places
are dummies. -/
theorem setup_places (S : PosSort (nodes E)) (o : ORAM n) (hcache : o.cache = ∅)
    (hstore : ∀ i, o.store i = List.replicate Z (Node.dummy n)) (l : List (Node n))
    (hnd : (l.map Node.key).Nodup) (hleaf : ∀ nd ∈ l, Leaf o.depth nd.pos) :
    (loadLoop (nodes E) o.depth l.length ⟨∅, ∅, S.sort l, false⟩).rest = [] ∧
      ∃ (o' : ORAM n) (placed : Int → List (Node n)), ORAM.setupInsert E S l o = some o' ∧
        (((List.range (bucketCount o.depth)).flatMap fun i : Nat => placed (i : Int)) ++
          o'.cache.pairs.map Prod.snd).Perm l ∧
        (∀ e ∈ o'.cache.pairs, e.2.key = e.1) ∧
        ∀ i : Int, o'.store i =
            placed i ++ List.replicate (Z - (placed i).length) (Node.dummy n) ∧
          (placed i).length ≤ Z ∧ ∀ nd ∈ placed i, OnPath o.depth nd.pos i := by
  refine ⟨loadLoop_rest _ _ (S.perm l).length_eq.le, ?_⟩
  obtain ⟨w, placed, hw, hperm, hkeyed, hbuckets⟩ := setupInsert_placed (B := nodes E) S hnd hleaf
    (w := ⟨o.cache, o.store, o.writeviewmap, o.time⟩) hcache hstore
  refine ⟨{ o with
    cache := w.stash
    store := w.store
    time := w.time }, placed, ?_, hperm, hkeyed, hbuckets⟩
  simp only [ORAM.setupInsert, hw, Option.map_some]

theorem setupNodes_spec (l : List (Bid n × Str)) (o : ORAM n) :
    (setupNodes E l o).1.map (fun nd => (nd.key, nd.value)) =
        l.map (fun p => (p.1, Buf.zero.copyStr p.2)) ∧
      (setupNodes E l o).2 = { o with draws := (setupNodes E l o).2.draws } := by
  induction l generalizing o with
  | nil => exact ⟨rfl, rfl⟩
  | cons p l ih =>
    obtain ⟨h1, h2⟩ := ih { o with draws := o.draws + 1 }
    exact ⟨congrArg ((p.1, Buf.zero.copyStr p.2) :: ·) h1, h2⟩

/-- The entries of a map, as values of nodes. -/
def stored (l : List (Bid n × Str)) : List (Bid n × Buf 16) :=
  l.map fun p => (p.1, Buf.zero.copyStr p.2)

/-- **Bulk loading** into a fresh OMAP. -/
theorem OMAP.setupInsert_spec (S : PosSort (nodes E)) {l : List (Bid n × Str)} (depth maxHeight : Nat)
    (hl : Ascending l) (hreal : ∀ p ∈ l, real E p.1 = true) (htape : ∀ i, Leaf depth (E.tape i)) :
    ∃ V t m, OMAP.setupInsert E S l (OMAP.init depth maxHeight) = some m ∧ Stored E V t m ∧
      AVL.pairs t = stored l ∧ AVL.height t = Nat.size l.length ∧
      Settings (OMAP.init depth maxHeight : OMAP n).oram m.oram := by
  obtain ⟨hnodes, ho⟩ := setupNodes_spec (E := E) l (OMAP.init depth maxHeight).oram
  generalize hs : setupNodes E l (OMAP.init depth maxHeight).oram = s at hnodes ho
  obtain ⟨t, h⟩ := sortedArrayToBST_spec (E := E) s.1 s.2
  generalize hr : sortedArrayToBST E s.1 s.2 = r at h
  have hkeys : r.2.1.map Node.key = l.map Prod.fst := by
    rw [h.keys]
    have := congrArg (List.map Prod.fst) hnodes
    rwa [List.map_map, List.map_map] at this
  have hnd : (r.2.1.map Node.key).Nodup := hkeys ▸ hl.nodup
  have horam : r.2.2 = { (OMAP.init depth maxHeight : OMAP n).oram with
      draws := r.2.2.draws } := by rw [h.oram, ho]
  have hleaf : ∀ nd ∈ r.2.1, Leaf depth nd.pos := fun nd hm => by
    obtain ⟨i, hi⟩ := h.drawn nd hm
    exact hi ▸ htape i
  obtain ⟨w, hw, -, -, hk⟩ := @Omap.setupInsert_spec _ _ _ (nodes E) depth r.2.1
    ⟨r.2.2.cache, r.2.2.store, r.2.2.writeviewmap, r.2.2.time⟩ S hnd
    (fun nd hm => by
      have : nd.key ∈ l.map Prod.fst := hkeys ▸ List.mem_map_of_mem hm
      obtain ⟨p, hp, e⟩ := List.mem_map.mp this
      have := hreal p hp
      rwa [e] at this) hleaf (by rw [horam]; rfl)
    (fun i nd hm => by
      rw [horam] at hm
      rw [List.eq_of_mem_replicate (show nd ∈ List.replicate Z (Node.dummy n) from hm)]
      simp [nodes, real, Node.dummy, isZero_null])
  have hrepr := h.repr (fun k => r.2.1.find? fun b => b.key = k) fun nd hm =>
    (Stash.find?_eq_some_iff hnd).mpr ⟨hm, rfl⟩
  have hpairs : AVL.pairs t = stored l := h.pairs.trans hnodes
  have hasc : Ascending (AVL.pairs t) := by
    rw [hpairs]
    exact List.pairwise_map.mpr hl
  refine ⟨_, t, ⟨r.1.2.1, r.1.1, { r.2.2 with
    cache := w.stash
    store := w.store
    time := w.time }⟩, ?_, ⟨⟨?_, ?_, ?_, ?_⟩, hrepr.rooted, fun k hk => ?_, h.ok, hasc⟩, hpairs, ?_, ?_⟩
  · have hdepth : r.2.2.depth = depth := by
      rw [horam]
      rfl
    simp only [OMAP.setupInsert, hs, hr, ORAM.setupInsert, hdepth, hw, Option.map_some,
      Option.bind_eq_bind, Option.bind_some, Option.pure_def]
  · have hdepth : r.2.2.depth = depth := by
      rw [horam]
      rfl
    rw [hdepth]
    exact hk
  · rw [horam]
    rfl
  · rw [horam]
    rfl
  · intro k nd hm
    rw [horam]
    exact hleaf nd ((Stash.find?_eq_some_iff hnd).mp hm).1
  · obtain ⟨nd, hm⟩ := Option.ne_none_iff_exists'.mp hk
    obtain ⟨hin, rfl⟩ := (Stash.find?_eq_some_iff hnd).mp hm
    have : nd.key ∈ l.map Prod.fst := hkeys ▸ List.mem_map_of_mem hin
    rw [keys, hpairs, stored, List.map_map]
    exact this
  · rw [h.size, ← @List.length_map _ _ s.1 (fun nd : Node n => (nd.key, nd.value)), hnodes,
      List.length_map]
  · constructor
    · rw [horam]
    · rw [horam]

def loaded (l : List (Bid n × Str)) : FMap n := fun k => valueOf k l

theorem contents_stored {t : Tree n} {l : List (Bid n × Str)} (ht : AVL.pairs t = stored l)
    (hfit : ∀ p ∈ l, Fits p.1 p.2) : contents t = loaded l := by
  funext k
  unfold contents
  rw [ht, stored, valueOf_map (fun v => Buf.zero.copyStr v), Option.map_map]
  show _ = valueOf k l
  cases h : valueOf k l with
  | none => rfl
  | some v =>
    obtain ⟨-, hv, hlen⟩ := hfit _ (mem_of_valueOf h)
    exact congrArg some (Buf.cstr_copyStr hv hlen)

/-- Calls that insert present keys only. -/
def Present (ks : List (Bid n)) : Call n → Prop
  | .insert key _ => key ∈ ks
  | .find _ => True

instance (ks : List (Bid n)) : (c : Call n) → Decidable (Present ks c)
  | .insert key _ => inferInstanceAs (Decidable (key ∈ ks))
  | .find _ => inferInstanceAs (Decidable True)

theorem treeCall_present {t u : Tree n} {c : Call n} {ks : List (Bid n)} (hc : Present ks c)
    (hok : AVL.Ok t) (hs : Ascending (AVL.pairs t)) (hks : ∀ k, k ∈ keys t ↔ k ∈ ks)
    (hu : treeCall t c = some u) :
    (∀ k, k ∈ keys u ↔ k ∈ ks) ∧ AVL.height u = AVL.height t := by
  cases c with
  | insert key value =>
    have hk : key ∈ keys t := (hks key).mpr hc
    refine ⟨fun k => ?_, AVL.insert_present hok hs hk hu⟩
    rw [mem_keys_insert hs hu, ← hks]
    exact ⟨fun h => h.elim (fun e => e ▸ hk) id, .inr⟩
  | find key =>
    obtain rfl := Option.some.inj hu
    exact ⟨hks, rfl⟩

end

/-- **A run after bulk loading.** The tree is an ascending balanced tree of the pairs,
with right heights and links; searches return the latest values. -/
theorem setup_refines (maxSize : Nat) (tape : Nat → Int)
    (htape : ∀ i, Leaf (depthOf maxSize) (tape i)) (order : HashOrder)
    (S : PosSort (nodes (plain (n := n) tape order))) (fuel : Nat)
    (hfuel : maxHeightOfAVLTree maxSize < fuel) (l : List (Bid n × Str)) (hl : Ascending l)
    (hfit : ∀ p ∈ l, Fits p.1 p.2) (hsize : l.length ≤ blockCount (depthOf maxSize))
    (calls : List (Call n)) (hok : ∀ c ∈ calls, CallOk c)
    (hpresent : ∀ c ∈ calls, Present (l.map Prod.fst) c) :
    ∃ V t m, OMAP.setupInsert (plain tape order) S l
        (OMAP.init (depthOf maxSize) (maxHeightOfAVLTree maxSize)) = some m ∧
      Stored (plain tape order) V t m ∧ WellPlaced (plain tape order) m ∧
      AVL.pairs t = stored l ∧ t.height = (if l = [] then 0 else Nat.log 2 l.length + 1) ∧
      ∃ m', run (call (plain tape order) fuel) ([], m) calls =
          some ((calls.foldl mapCall ([], loaded l)).1, m') ∧
        WellPlaced (plain tape order) m' := by
  obtain ⟨V, t, m, hm, hst, hpairs, hheight, hd, hmh⟩ := OMAP.setupInsert_spec S (depthOf maxSize)
    (maxHeightOfAVLTree maxSize) hl (fun p hp => by simp [real, plain, (hfit p hp).1]) htape
  replace hd : m.oram.depth = depthOf maxSize := hd
  replace hmh : m.oram.maxHeightOfAVLTree = maxHeightOfAVLTree maxSize := hmh
  refine ⟨V, t, m, hm, hst, hst.wellPlaced, hpairs, ?_, ?_⟩
  · rw [← hst.ok.height_eq, hheight]
    split
    · next h => rw [h, List.length_nil, Nat.size_zero]
    · next h => exact size_eq_log (List.length_pos_of_ne_nil h)
  have hbound : Nat.size l.length ≤ maxHeightOfAVLTree maxSize := by
    rw [Nat.size_le, maxHeightOfAVLTree_eq]
    have := Nat.one_le_two_pow (n := depthOf maxSize)
    unfold blockCount Z at hsize
    simp only [pow_succ] at hsize ⊢
    omega
  obtain ⟨s, hs, V', t', h, -⟩ := run_inv (f := call (plain tape order) fuel) (s := ([], m))
    (l := calls) (fun pre s => ∃ V t, Agrees (plain tape order) V t s
        (pre.foldl mapCall ([], loaded l)) ∧ (∀ k, k ∈ keys t ↔ k ∈ l.map Prod.fst) ∧
      AVL.height t = Nat.size l.length ∧ s.2.oram.depth = depthOf maxSize ∧
      s.2.oram.maxHeightOfAVLTree = maxHeightOfAVLTree maxSize)
    ⟨V, t, ⟨hst, rfl, contents_stored hpairs hfit⟩, fun k => by
      rw [keys, hpairs, stored, List.map_map]
      rfl, hheight, hd, hmh⟩
    fun pre c s hpre _ hpre' => by
      obtain ⟨V, t, h, hks, hht, hd, hmh⟩ := hpre'
      have hc := hpre.subset (List.mem_append_right _ List.mem_cons_self)
      obtain ⟨u, hu⟩ := exists_treeCall c h.stored.ok
      obtain ⟨hks', hht'⟩ := treeCall_present (hpresent c hc) h.stored.ok h.stored.sorted hks hu
      have hoku : u.height = AVL.height u := by
        cases c with
        | insert key value =>
          obtain ⟨u', hu', hok', -⟩ := AVL.insert_ok key (Buf.zero.copyStr value) h.stored.ok
          obtain rfl : u' = u := Option.some.inj (hu'.symm.trans hu)
          exact hok'.height_eq.symm
        | find key =>
          obtain rfl := Option.some.inj hu
          exact h.stored.ok.height_eq.symm
      obtain ⟨s', V', hs', h', hset⟩ := call_spec (fun _ => rfl) (hd ▸ htape) (hok c hc) h hu
        (show t.height < fuel by rw [← h.stored.ok.height_eq]; omega) (.inl (by rw [hmh]; omega))
      refine ⟨s', hs', V', u, ?_, hks', hht'.trans hht, hset.1.trans hd, hset.2.trans hmh⟩
      rwa [List.foldl_append]
  exact ⟨s.2, by rw [hs, ← h.answers], h.stored.wellPlaced⟩

def samplePairs : List (Bid 16 × Str) := [(keyOf 1, [120]), (keyOf 2, [121])]

theorem setup_refines_sample :
    let E : Env 16 := plain (fun i => i % 8) HashOrder.stored
    let calls : List (Call 16) := [.find (keyOf 1), .insert (keyOf 2) [122], .find (keyOf 2)]
    ∃ V t m, OMAP.setupInsert E (.insertion (nodes E)) samplePairs
        (OMAP.init (depthOf 32) (maxHeightOfAVLTree 32)) = some m ∧
      Stored E V t m ∧ WellPlaced E m ∧ AVL.pairs t = stored samplePairs ∧
      t.height = (if samplePairs = [] then 0 else Nat.log 2 samplePairs.length + 1) ∧
      ∃ m', run (call E 7) ([], m) calls =
          some ((calls.foldl mapCall ([], loaded samplePairs)).1, m') ∧ WellPlaced E m' :=
  setup_refines 32 (fun i => i % 8) (fun i => ⟨Int.emod_nonneg _ (by decide),
      show (i : Int) % 8 < 8 from Int.emod_lt_of_pos _ (by decide)⟩) HashOrder.stored
    (.insertion _) 7 (by decide) samplePairs
    (List.pairwise_pair.mpr ((Bid.lt_iff_ltLoop _ _).mpr (by decide))) (by decide) (by decide)
    [.find (keyOf 1), .insert (keyOf 2) [122], .find (keyOf 2)] (by decide) (by decide)

def sampleNodes : List (Node 16) := (List.range 6).map fun i =>
  { Node.dummy 16 with
    key := keyOf i
    pos := i % 2 }

theorem setup_places_sample :
    let E : Env 16 := plain (fun _ => 0) HashOrder.stored
    (loadLoop (nodes E) 1 6 ⟨∅, ∅, (PosSort.insertion (nodes E)).sort sampleNodes, false⟩).rest = [] ∧
      ∃ (o' : ORAM 16) (placed : Int → List (Node 16)),
        ORAM.setupInsert E (.insertion (nodes E)) sampleNodes (ORAM.init 1 4) = some o' ∧
        (((List.range (bucketCount 1)).flatMap fun i : Nat => placed (i : Int)) ++
          o'.cache.pairs.map Prod.snd).Perm sampleNodes ∧
        (∀ e ∈ o'.cache.pairs, e.2.key = e.1) ∧
        ∀ i : Int, o'.store i =
            placed i ++ List.replicate (Z - (placed i).length) (Node.dummy 16) ∧
          (placed i).length ≤ Z ∧ ∀ nd ∈ placed i, OnPath 1 nd.pos i :=
  setup_places (.insertion _) (ORAM.init 1 4) rfl (fun _ => rfl) sampleNodes (by decide) (by decide)

end SmallClientSSE.Omap
