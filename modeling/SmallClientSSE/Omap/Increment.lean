import SmallClientSSE.Omap.Batch
import SmallClientSSE.Omap.Counters

/-!
# Counting up in an OMAP

The increments of `AVLTree.cpp` look for a key and change its node in place
(`increment_eq`). `incrementAwCnt` goes on as `incrementSrcCnt` below the root. A text
that grows runs into `pos` of its node, but the node was touched, so it gets a new
position and its parent copies it: between operations an increment sets one value
(`increment_stored`).
-/

namespace SmallClientSSE.Omap

open Lib ORAM BinaryTree

variable {n : Nat} (E : Env n)

/-! ## The code -/

/-- The node that is looked for is changed and written. -/
def bump (f : Increment n) (key k : Bid n) (o : ORAM n) : Option (Str × ORAM n) := do
  let head ← o.cache.lookup k
  let (res, _, head) ← f head
  let o ← setNode k (fun _ => head) o
  let (_, o) ← writeNode E key head o
  pure (res, o)

namespace AVLTree

/-- The increments: `f` at the node they are called for, `below` further down. -/
def increment (below : Increment n) : Increment n → Nat → Bid n → Int → Bid n → ORAM n →
    Option (Str × ORAM n)
  | _, 0, _, _, _, _ => none
  | f, fuel + 1, head, headPos, key, o =>
    if real E head then do
      let (o, found) ← readNode E head headPos headPos o
      guard found
      let node ← o.cache.lookup head
      if key < node.key then
        let (o, found) ← readNode E node.leftID node.leftPos node.leftPos o
        if found then
          let child ← o.cache.lookup node.leftID
          increment below below fuel child.key child.pos key o
        else pure ([], o)
      else if node.key < key then
        let (o, found) ← readNode E node.rightID node.rightPos node.rightPos o
        if found then
          let child ← o.cache.lookup node.rightID
          increment below below fuel child.key child.pos key o
        else pure ([], o)
      else bump E f key head o
    else some ([], o)

def incrementSrcCnt : Nat → Bid n → Int → Bid n → ORAM n → Option (Str × ORAM n) :=
  increment E Omap.incrementSrcCnt Omap.incrementSrcCnt

def incrementAwCnt : Nat → Bid n → Int → Bid n → ORAM n → Option (Str × ORAM n) :=
  increment E Omap.incrementSrcCnt Omap.incrementAwCnt

def incrementFileCnt : Nat → Bid n → Int → Bid n → ORAM n → Option (Str × ORAM n) :=
  increment E Omap.incrementFileCnt Omap.incrementFileCnt

end AVLTree

namespace OMAP

def incrementSrcCnt (fuel : Nat) (key : Bid n) (m : OMAP n) : Option (Str × OMAP n) := do
  let (res, o) ← AVLTree.incrementSrcCnt E fuel m.rootKey m.rootPos key (start false m.oram)
  let m ← finishSearch E { m with oram := o }
  pure (res, m)

/-- An increment that inserts `value` under a new key. -/
def incrementOr (increment : Nat → Bid n → Int → Bid n → ORAM n → Option (Str × ORAM n))
    (find : Bool) (value : Str) (fuel : Nat) (key : Bid n) (m : OMAP n) :
    Option (Str × OMAP n) := do
  let (res, o) ← increment fuel m.rootKey m.rootPos key (start false m.oram)
  let m : OMAP n := { m with oram := o }
  let m ← if res = [] then do
      let (rootKey, rootPos, o) ← AVLTree.insert E fuel m.rootKey m.rootPos key value m.oram
      pure ⟨rootKey, rootPos, o⟩
    else pure m
  let m ← finish E find m
  pure (res, m)

def incrementAwCnt : Nat → Bid n → OMAP n → Option (Str × OMAP n) :=
  incrementOr E (AVLTree.incrementAwCnt E) true [48, dash, 48]

/-- `incrementFileCnt`, which answers `0-0` for a new key. -/
def incrementFileCnt (fuel : Nat) (key : Bid n) (m : OMAP n) : Option (Str × OMAP n) :=
  (incrementOr E (AVLTree.incrementFileCnt E) true [49, dash, 48] fuel key m).map fun r =>
    (if r.1 = [] then [48, dash, 48] else r.1, r.2)

end OMAP

/-! ## An increment is a search -/

section

variable {E} {P : Bid n → Int} {V : Bid n → Option (Node n)} {t u : Tree n} {m : OMAP n}
  {o o' : ORAM n} {f below : Increment n} {fuel : Nat} {key k : Bid n} {nd nd' : Node n}
  {v : Buf 16} {res newval value : Str} {find : Bool}

theorem increment_eq (f : Increment n) (fuel : Nat) (head : Bid n) (headPos : Int) (key : Bid n)
    (o : ORAM n) :
    AVLTree.increment E f f fuel head headPos key o =
      (AVLTree.search E fuel head headPos key o).bind fun r =>
        r.1.elim (some ([], r.2)) fun k => bump E f key k r.2 := by
  induction fuel generalizing head headPos o with
  | zero => rfl
  | succ fuel ih =>
    rw [AVLTree.increment, AVLTree.search]
    by_cases hreal : real E head = true
    · rw [if_pos hreal, if_pos hreal]
      simp only [Option.bind_eq_bind, Option.bind_assoc]
      refine Option.bind_congr fun r _ => Option.bind_congr fun _ _ =>
        Option.bind_congr fun node _ => ?_
      have hchild : ∀ (id : Bid n) (p : Int),
          ((readNode E id p p r.1).bind fun c => if c.2 = true then
              (c.1.cache.lookup id).bind fun child =>
                AVLTree.increment E f f fuel child.key child.pos key c.1
            else pure ([], c.1)) =
          ((readNode E id p p r.1).bind fun c => if c.2 = true then
              (c.1.cache.lookup id).bind fun child =>
                AVLTree.search E fuel child.key child.pos key c.1
            else pure (none, c.1)).bind fun r =>
              r.1.elim (some ([], r.2)) fun k => bump E f key k r.2 := by
        intro id p
        rw [Option.bind_assoc]
        refine Option.bind_congr fun c _ => ?_
        split
        · rw [Option.bind_assoc]
          exact Option.bind_congr fun child _ => ih _ _ _
        · rfl
      split
      · exact hchild _ _
      · split
        · exact hchild _ _
        · rfl
    · rw [if_neg hreal, if_neg hreal]
      rfl

/-- At the root an increment is `f`, and `below` further down. -/
theorem increment_root (f below : Increment n) (key : Bid n) (h : Working E P V t m)
    (hfuel : t.height < fuel) :
    AVLTree.increment E below f fuel m.rootKey m.rootPos key m.oram =
      AVLTree.increment E (if key = m.rootKey then f else below)
        (if key = m.rootKey then f else below) fuel m.rootKey m.rootPos key m.oram := by
  obtain ⟨fuel, rfl⟩ := Nat.exists_eq_succ_of_ne_zero (Nat.ne_of_gt (Nat.zero_lt_of_lt hfuel))
  by_cases ht : t = .nil
  · subst ht
    obtain ⟨-, hnr⟩ := h.rooted.resolve_left fun h => h.2 rfl
    simp only [AVLTree.increment, hnr, Bool.false_eq_true, if_false]
  · obtain ⟨-, hV, hpos⟩ := h.root ht
    obtain ⟨nd, hV⟩ := Option.ne_none_iff_exists'.mp hV
    obtain ⟨o1, ho1, hn1⟩ := readNode_spec h.mid hV
    rw [h.mid.place hV, ← hpos] at ho1
    have hlook := lookup_cached hn1.mid hV (hn1.mem rfl)
    simp only [AVLTree.increment, h.mid.real hV, if_true, ho1, guard_true, hlook, h.mid.key hV,
      Option.bind_eq_bind, Option.bind_some]
    rcases lt_trichotomy key m.rootKey with hk | hk | hk
    · simp only [hk, if_true, hk.ne, if_false]
    · simp only [hk, lt_irrefl, if_false, if_true]
    · simp only [hk, hk.not_gt, if_false, if_true, hk.ne']

/-! ## Walks -/

theorem increment_absent (f below : Increment n) (hk : key ∉ keys t) (h : Working E P V t m)
    (hfuel : t.height < fuel) :
    ∃ o', AVLTree.increment E below f fuel m.rootKey m.rootPos key m.oram = some ([], o') ∧
      Working E P V t { m with oram := o' } ∧
      Next E P V m.oram o' {k | k ∈ searched key t} ∧ ∀ k ∈ top t, k ∈ o'.modified := by
  obtain ⟨o', ho', hw, hn, htop, -⟩ := search_value key h hfuel
  refine ⟨o', ?_, hw, hn, htop⟩
  rw [increment_root f below key h hfuel, increment_eq, ho', if_neg hk]
  rfl

/-- A key that is there: its node is changed in the cache. -/
theorem increment_present (f below : Increment n) (hk : key ∈ keys t) (h : Working E P V t m)
    (hfuel : t.height < fuel) (hV : V key = some nd)
    (hf : (if key = m.rootKey then f else below) nd = some (res, newval, nd')) :
    ∃ o', AVLTree.increment E below f fuel m.rootKey m.rootPos key m.oram =
        some (res, { o' with cache := o'.cache.put key nd' }) ∧
      Working E P V t { m with oram := o' } ∧
      Next E P V m.oram o' {k | k ∈ searched key t} ∧ ∀ k ∈ top t, k ∈ o'.modified := by
  obtain ⟨o', ho', hw, hn, htop, -⟩ := search_value key h hfuel
  refine ⟨o', ?_, hw, hn, htop⟩
  have hmod : key ∈ o'.modified := hn.mem (mem_searched_self h.sorted hk)
  have hlook := lookup_cached hn.mid hV hmod
  have hz := isZero_of_real (h.mid.real hV)
  have hc : key ∈ o'.cache.put key nd' := (AList.mem_insert _).mpr (.inl rfl)
  rw [increment_root f below key h hfuel, increment_eq, ho', if_pos hk]
  simp only [Option.bind_some, Option.elim_some, bump, hlook, hf, Option.bind_eq_bind, setNode,
    writeNode, hz, Bool.false_eq_true, if_false, hc, not_true_eq_false, ORAM.modify, hmod, if_true,
    Option.pure_def]

theorem increment_stuck (f below : Increment n) (hk : key ∈ keys t) (h : Working E P V t m)
    (hfuel : t.height < fuel) (hV : V key = some nd)
    (hf : (if key = m.rootKey then f else below) nd = none) :
    AVLTree.increment E below f fuel m.rootKey m.rootPos key m.oram = none := by
  obtain ⟨o', ho', -, hn, -, -⟩ := search_value key h hfuel
  have hlook := lookup_cached hn.mid hV (hn.mem (mem_searched_self h.sorted hk))
  rw [increment_root f below key h hfuel, increment_eq, ho', if_pos hk]
  simp only [Option.bind_some, Option.elim_some, bump, hlook, hf, Option.bind_eq_bind,
    Option.bind_none]

/-! ## The end of an increment -/

/-- A node whose value and position were changed. -/
def Changed (nd nd' : Node n) (v : Buf 16) : Prop :=
  ∃ p, nd' = { nd with
    value := v
    pos := p }

theorem Repr.changed {id : Bid n} {pos : Int} (hr : Repr V id pos t) (hV : V k = some nd)
    (hc : Changed nd nd' v) : Shape (Function.update V k (some nd')) id (AVL.setValue k v t) := by
  obtain ⟨p, rfl⟩ := hc
  induction t generalizing id pos with
  | nil => exact hr
  | node e l r ihl ihr =>
    obtain ⟨md, hVid, -, rfl, hl, hrr⟩ := hr
    rw [AVL.setValue_node]
    by_cases hid : id = k
    · subst hid
      obtain rfl : md = nd := Option.some.inj (hVid.symm.trans hV)
      exact ⟨_, Function.update_self .., by rw [if_pos rfl], ihl hl, ihr hrr⟩
    · exact ⟨md, (Function.update_of_ne hid _ _).trans hVid, by rw [if_neg hid], ihl hl, ihr hrr⟩

/-- A link to the changed node waits for the round of its parent. -/
theorem LinkOk.changed {depth : Nat} {D : List (Bid n)} {md : Node n} {child : Bid n} {pos : Int}
    (hl : LinkOk depth D V 0 md child pos) (hk : k ∈ D) (hV : V k = some nd)
    (hc : Changed nd nd' v) (hleaf : Leaf depth nd.pos) :
    LinkOk depth D (Function.update V k (some nd')) 0 md child pos := by
  obtain ⟨p, rfl⟩ := hc
  rcases hl with hz | ⟨c, hVc, hlt, hup, hpos⟩
  · exact .inl hz
  by_cases hck : child = k
  · subst hck
    obtain rfl : nd = c := Option.some.inj (hV.symm.trans hVc)
    refine .inr ⟨_, Function.update_self .., hlt, hup, .inr ⟨hk, by omega, ?_⟩⟩
    rcases hpos with rfl | ⟨-, -, hleaf'⟩
    exacts [hleaf, hleaf']
  · exact .inr ⟨c, (Function.update_of_ne hck _ _).trans hVc, hlt, hup, hpos⟩

theorem LinksOk.changed {depth : Nat} {D K : List (Bid n)} (hl : LinksOk depth D K V 0)
    (hk : k ∈ D) (hV : V k = some nd) (hc : Changed nd nd' v) (hleaf : Leaf depth nd.pos) :
    LinksOk depth D K (Function.update V k (some nd')) 0 := by
  intro j hj md hmd
  by_cases hjk : j = k
  · subst hjk
    rw [Function.update_self] at hmd
    obtain ⟨hleft, hright⟩ := hl j hj nd hV
    have hleft' := hleft.changed hk hV hc hleaf
    have hright' := hright.changed hk hV hc hleaf
    obtain ⟨p, rfl⟩ := hc
    obtain rfl := Option.some.inj hmd
    exact ⟨hleft', hright'⟩
  · rw [Function.update_of_ne hjk] at hmd
    obtain ⟨hleft, hright⟩ := hl j hj md hmd
    exact ⟨hleft.changed hk hV hc hleaf, hright.changed hk hV hc hleaf⟩

theorem ok_setValue (hok : AVL.Ok t) : AVL.Ok (AVL.setValue k v t) := by
  induction t with
  | nil => trivial
  | node e l r ihl ihr =>
    obtain ⟨he, h1, h2, hl, hr⟩ := hok
    rw [AVL.setValue_node]
    refine ⟨?_, ?_, ?_, ihl hl, ihr hr⟩
    · rw [AVL.height_setValue, AVL.height_setValue, ← he]
      split <;> rfl
    all_goals rwa [AVL.height_setValue, AVL.height_setValue]

theorem keys_setValue (t : Tree n) : keys (AVL.setValue k v t) = keys t := by
  induction t with
  | nil => rfl
  | node e l r ihl ihr =>
    rw [AVL.setValue_node, keys_node, keys_node, ihl, ihr]
    split <;> rfl

/-- **The end of an operation** that changed a node it had touched. -/
theorem finish_changed (find : Bool) (h : Working E P V t m) (hb : m.oram.batchWrite = false)
    (hw : m.oram.writeviewmap = []) (htape : ∀ i, Leaf m.oram.depth (E.tape i))
    (hk : key ∈ keys t) (htop : ∀ k ∈ top t, k ∈ m.oram.modified) (hmod : key ∈ m.oram.modified)
    (hV : V key = some nd) (hc : Changed nd nd' v) (hleaf : Leaf m.oram.depth nd'.pos) :
    ∃ V' m', OMAP.finish E find { m with
        oram := { m.oram with cache := m.oram.cache.put key nd' } } = some m' ∧
      (t.height ≤ m.oram.maxHeightOfAVLTree ∨ m.oram.depth = 0 →
        Stored E V' (AVL.setValue key v t) m') ∧
      Settings m.oram m'.oram ∧ m'.oram.readCnt = max (padTo find m.oram.depth) m.oram.readCnt := by
  have ht : t ≠ .nil := by
    rintro rfl
    cases hk
  obtain ⟨hroot, hVr, hpos⟩ := h.root ht
  have hr := h.rooted.repr ht
  have hkey' : nd'.key = key := by
    obtain ⟨p, rfl⟩ := hc
    have hkey : nd.key = key := h.mid.key hV
    exact hkey
  have hload := h.mid.toLoaded.put (.inl (h.mid.touched key hmod)) (h.mid.real hV) hkey' hleaf
  have hVr' : Function.update V key (some nd') m.rootKey ≠ none := by
    by_cases he : m.rootKey = key
    · rw [he, Function.update_self]
      simp
    · rwa [Function.update_of_ne he]
  obtain ⟨V', pos', o', ho', hrest, hrepr, hsame, hd, hmh, hcnt⟩ := finilize_loaded find hload
    (fun k hk => (AList.mem_insert _).mpr (.inr (h.mid.touched k hk))) hb hw htape
    (hr.changed hV hc)
    (by
      rw [keys_setValue]
      exact (hr.links h.mid.toLoaded h.ok h.upward).changed hmod hV hc (h.mid.pos hV))
    (htop _ hroot) hVr' (ok_setValue h.ok)
  refine ⟨V', ⟨m.rootKey, pos', o'⟩, ?_, fun hH => ⟨hrest, ?_, fun k hVk => ?_, ok_setValue h.ok,
    ?_⟩, ⟨hd, hmh⟩, hcnt⟩
  · simp only [OMAP.finish, ho', Option.bind_eq_bind, Option.bind_some, Option.pure_def]
  · rw [AVL.height_setValue, h.ok.height_eq] at hrepr
    exact (hrepr hH).rooted
  · rw [keys_setValue]
    by_contra hkt
    have hne : k ≠ key := fun he => hkt (he ▸ hk)
    have hnone : V k = none := by
      by_contra hV
      exact hkt (h.dom k hV)
    exact hVk ((hsame k).1 ((Function.update_of_ne hne _ _).trans hnone))
  · have hu : AVL.insert key v t = some (AVL.setValue key v t) :=
      AVL.insert_setValue h.ok h.sorted hk
    rw [AVL.insert_pairs h.sorted hu]
    exact h.sorted.assign

/-! ## The operations -/

theorem mem_visited_of_searched : ∀ {t : Tree n}, k ∈ searched key t → k ∈ visited key t
  | .nil, h => h
  | .node e l r, h => by
    rcases List.mem_cons.mp h with rfl | h
    · exact List.mem_cons_self
    · refine List.mem_cons_of_mem _ ?_
      split_ifs at h ⊢
      · exact List.mem_append_right _ (mem_visited_of_searched h)
      · exact List.mem_append_right _ (mem_visited_of_searched h)
      · exact h

theorem leafCount_congr {ks js : List (Bid n)} (h : ∀ k, k ∈ ks ↔ k ∈ js) :
    leafCount P ks = leafCount P js := by
  refine List.Perm.length_eq ((List.perm_ext_iff_of_nodup (List.nodup_dedup _)
    (List.nodup_dedup _)).mpr fun l => ?_)
  simp only [List.mem_dedup, List.mem_map, h]

/-- The reads of an insertion after a search for the same key. -/
theorem Does.readCnt_searched {V' : Bid n → Option (Node n)} {o'' : ORAM n}
    (h : Next E P V o o' {k | k ∈ searched key t})
    {d : Nat} (h' : Does E P V' o' o'' {k | k = key ∨ k ∈ visited key t}
      (reread P o'.leafList key t) d)
    (hb : o.batchWrite = false) (hl : o.leafList = []) (hc : o.readCnt = 0) :
    o''.readCnt = leafCount P (key :: visited key t) + reread P [] key t := by
  have hreread : reread P o'.leafList key t = reread P [] key t := by
    refine if_congr (and_congr_right fun _ => ?_) rfl rfl
    simp only [List.not_mem_nil, false_or]
    constructor
    · rintro (hmem | hex)
      · exact (h.only _ hmem).resolve_left (by simp [hl])
      · exact hex
    · exact .inr
  have hall := Does.trans h h'
  rw [Nat.zero_add, hreread] at hall
  refine (hall.of_eq (T := {k | k ∈ key :: visited key t}) ?_).readCnt_eq hb hl hc
  ext k
  simp only [Set.mem_union, Set.mem_ofPred_eq, List.mem_cons]
  exact ⟨fun hk => hk.elim (fun hk => .inr (mem_visited_of_searched hk)) fun hk => hk, .inr⟩

section

variable (htape : ∀ i, Leaf m.oram.depth (E.tape i)) (hfuel : t.height < fuel)
  (h : Stored E V t m)

include htape hfuel h

/-- **An increment of a key that is there**, with the end of its operation. -/
theorem increment_stored (f below : Increment n) (find : Bool) (hk : key ∈ keys t)
    (hf : ∀ nd, V key = some nd → ∃ newval nd',
      (if key = m.rootKey then f else below) nd = some (res, newval, nd') ∧ Changed nd nd' v ∧
        Leaf m.oram.depth nd'.pos)
    (hH : t.height ≤ m.oram.maxHeightOfAVLTree ∨ m.oram.depth = 0) :
    ∃ o1 V' m', AVLTree.increment E below f fuel m.rootKey m.rootPos key (ORAM.start false m.oram) =
        some (res, o1) ∧ OMAP.finish E find { m with oram := o1 } = some m' ∧
      m.rootKey.isZero = false ∧ Stored E V' (AVL.setValue key v t) m' ∧
      Settings m.oram m'.oram ∧ m'.oram.readCnt = max (padTo find m.oram.depth)
        (leafCount (places E V m.oram) (searched key t)) := by
  have hw := h.start false
  have ht : t ≠ .nil := by
    rintro rfl
    cases hk
  obtain ⟨nd, hV⟩ := (h.rooted.repr ht).mem hk
  obtain ⟨newval, nd', hfnd, hchange, hleaf⟩ := hf nd hV
  obtain ⟨o1, ho1, hw1, hn1, htop⟩ := increment_present f below hk hw hfuel hV hfnd
  obtain ⟨V', m', hm', hs, hset, hcnt⟩ := finish_changed find hw1 hn1.grows.batch
    hn1.grows.written (hn1.grows.depth ▸ htape) hk htop
    (hn1.mem (mem_searched_self h.sorted hk)) hV hchange (hn1.grows.depth ▸ hleaf)
  dsimp only at hm' hs hset hcnt
  obtain ⟨-, hroot, -⟩ := hw.root ht
  obtain ⟨rnd, hVr⟩ := Option.ne_none_iff_exists'.mp hroot
  refine ⟨_, V', m', ho1, hm', isZero_of_real (hw.mid.real hVr),
    hs (by rw [hn1.grows.maxHeight, hn1.grows.depth]; exact hH),
    ⟨hset.1.trans hn1.grows.depth, hset.2.trans hn1.grows.maxHeight⟩, ?_⟩
  rw [hcnt, hn1.grows.depth, hn1.readCnt_eq rfl h.rest.leafs rfl]
  rfl

/-- **An increment of a new key** inserts it. -/
theorem incrementOr_absent (f below : Increment n) (hv : value.length ≤ 16)
    (hk : key ∉ keys t) (hreal : real E key = true) (hu : AVL.insert key (Buf.zero.copyStr value) t = some u) :
    ∃ V' m', OMAP.incrementOr E (AVLTree.increment E below f) find value fuel key m =
        some ([], m') ∧ Rest E V' m'.oram ∧ (∃ k nd, V' k = some nd ∧ nd.height = u.height) ∧
      (u.height ≤ m.oram.maxHeightOfAVLTree ∨ m.oram.depth = 0 → Stored E V' u m') ∧
      Settings m.oram m'.oram ∧ m'.oram.readCnt = max (padTo find m.oram.depth)
        (leafCount (places E V m.oram) (key :: visited key t) +
          reread (places E V m.oram) [] key t) := by
  have hw := h.start false
  have hV : V key = none := by
    by_contra hV
    exact hk (h.dom key hV)
  obtain ⟨o1, ho1, hw1, hn1, -⟩ := increment_absent f below hk hw hfuel
  have hdraws : o1.draws = m.oram.draws := hn1.drawn
  obtain ⟨u', V1, m1, hu', hm1, hw2, hd2, htop, -⟩ := insert_working hv hw1 hw1.rooted hreal
    (fun _ => ⟨by rw [places_of_none hV, hdraws], by
      rw [places_of_none hV]
      exact hn1.grows.depth ▸ htape _⟩) hfuel
  obtain rfl : u' = u := Option.some.inj (hu'.symm.trans hu)
  have hune : u' ≠ .nil := by
    rintro rfl
    exact absurd ((mem_keys_insert h.sorted hu (k := key)).mpr (.inl rfl)) (by simp)
  have hg := hn1.grows.trans hd2.grows
  obtain ⟨V', m', hm', hrest, hs, hsame, hd, hmh, hc⟩ := finish_spec find hw2 hg.batch hg.written
    (hg.depth ▸ htape) hune htop
  rw [hg.maxHeight, hg.depth] at hs
  refine ⟨V', m', ?_, hrest, hw2.root_kept hune hsame, hs,
    ⟨hd.trans hg.depth, hmh.trans hg.maxHeight⟩, ?_⟩
  · simp only [OMAP.incrementOr, ho1, Option.bind_eq_bind, Option.bind_some, if_true, hm1,
      Option.pure_def, hm']
  · rw [hc, hg.depth, hn1.readCnt_searched hd2 rfl h.rest.leafs rfl]
    rfl

end

end

end SmallClientSSE.Omap
