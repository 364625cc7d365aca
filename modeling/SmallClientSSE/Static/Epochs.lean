import SmallClientSSE.Omap.CountUp
import SmallClientSSE.Static.DeAmortizedSets

/-!
# Epochs of an OMAP

The OMAPs of the static schemes count how often a key was used since `setDummy` was
called. Keys carry the number of their epoch, and a node whose number is not above
`dummyValue` is neither fetched nor followed. So `setDummy` leaves an empty tree behind,
whatever the buckets and the cache still hold (`Stored.nextEpoch`), and the answers count
the calls of the current epoch (`epochs_exact`).
-/

namespace SmallClientSSE.Omap

open Lib ORAM BinaryTree
open DeAmortized (getBid)

/-! ## The code -/

section

variable {n : Nat} (E : Env n)

/-- What `incrementCnt` does at its node: all of `value` is a number. -/
def incrementCnt : Increment n := fun head => do
  let res := List.ofFn head.value
  let cnt ← stoi res
  guard (InInt (cnt.val + 1))
  let newval := intStr (cnt.val + 1)
  pure (res, newval, head.copyValue newval)

/-- `AVLTree::incrementCnt`. -/
def AVLTree.incrementCnt : Nat → Bid n → Int → Bid n → ORAM n → Option (Str × ORAM n) :=
  increment E Omap.incrementCnt Omap.incrementCnt

namespace OMAP

/-- `incrementCnt` up to `finishOperation`. -/
def countNodes (fuel : Nat) (key : Bid n) (m : OMAP n) : Option (Str × OMAP n) := do
  let (res, o) ← AVLTree.incrementCnt E fuel m.rootKey m.rootPos key (start false m.oram)
  if res = [] then
    let (rootKey, rootPos, o) ← AVLTree.insert E fuel m.rootKey m.rootPos key [49] o
    pure (res, ⟨rootKey, rootPos, o⟩)
  else pure (res, { m with oram := o })

def incrementCnt (fuel : Nat) (key : Bid n) (m : OMAP n) : Option (Str × OMAP n) := do
  let (res, m) ← countNodes E fuel key m
  let m ← finish E false m
  pure (res, m)

end OMAP

end

/-- What passes the filters while they stand at `dummyValue`. -/
def filtered (tape : Nat → Int) (order : HashOrder) (dummyValue : Int) : Env 16 :=
  ⟨tape, order, fun k => decide (dummyValue < (k.id.getInt 12).val)⟩

/-- An OMAP with its `dummyValue`, which the tree and the ORAM share. -/
structure EpochOMAP where
  dummyValue : Int
  omap : OMAP 16

def EpochOMAP.init (maxSize : Nat) : EpochOMAP :=
  ⟨0, OMAP.init (depthOf maxSize) (maxHeightOfAVLTree maxSize)⟩

inductive EpochCall where
  | incrementCnt (key : Bid 16)
  | setDummy (i : Int)

/-- A call. -/
def epochCall (tape : Nat → Int) (order : HashOrder) (fuel : Nat) (s : EpochOMAP) :
    EpochCall → Option EpochOMAP
  | .incrementCnt key =>
    (OMAP.incrementCnt (filtered tape order s.dummyValue) fuel key s.omap).map fun r =>
      { s with omap := r.2 }
  | .setDummy i => some { s with dummyValue := i }

def countCalls (k : Int) (ws : List Str) : List EpochCall := ws.map fun w => .incrementCnt (getBid w k)

def finishedCalls (epochs : List (List Str)) : List EpochCall :=
  (epochs.zipIdx 1).flatMap fun e => countCalls e.2 e.1 ++ [.setDummy e.2]

/-- The calls of the first epochs and of the current one. -/
def epochCalls (epochs : List (List Str)) (current : List Str) : List EpochCall :=
  finishedCalls epochs ++ countCalls (epochs.length + 1 : Nat) current

def countText (c : Nat) : Buf 16 := Buf.zero.copyStr (intStr c)

def countPairs (k : Int) (ws : List Str) : List (Bid 16 × Buf 16) :=
  ws.zipIdx.map fun e => (getBid e.1 k, countText ((ws.take e.2).count e.1 + 1))

/-- A keyword that fits in front of the number. -/
def Fits12 (w : Str) : Prop := w ≠ [] ∧ NulFree w ∧ w.length ≤ 12

instance (w : Str) : Decidable (Fits12 w) := inferInstanceAs (Decidable (_ ∧ _))

/-- Keywords that fit the first twelve bytes, none of them used `2 ^ 31` times, and a tree
within the height that the position updates cover. -/
structure EpochOk (maxSize : Nat) (k : Int) (ws : List Str) : Prop where
  words : ∀ w ∈ ws, Fits12 w
  few : ∀ w ∈ ws, ws.count w < 2 ^ 31
  height : ∀ t, AVL.insertAll (countPairs k ws) = some t → t.height ≤ maxHeightOfAVLTree maxSize

/-- The answer to a call for `w`: how often it was called for before. -/
def Counts (earlier : List Str) (w answer : Str) : Prop :=
  if w ∈ earlier then (stoi answer).map Subtype.val = some (earlier.count w : Int) else answer = []

/-! ## One call -/

section

variable {n : Nat} {E : Env n} {V : Bid n → Option (Node n)} {t u : Tree n} {m m' : OMAP n}
  {key j : Bid n} {res : Str} {depth fuel : Nat} {nd : Node n}

theorem OMAP.incrementCnt_eq (fuel : Nat) (key : Bid n) (m : OMAP n) :
    OMAP.incrementCnt E fuel key m =
      OMAP.incrementOr E (AVLTree.incrementCnt E) false [49] fuel key m := by
  simp only [OMAP.incrementCnt, OMAP.countNodes, OMAP.incrementOr, Option.bind_eq_bind,
    Option.bind_assoc]
  refine Option.bind_congr fun r _ => ?_
  split
  · simp only [Option.bind_assoc, Option.pure_def, Option.bind_some]
  · rfl

theorem inInt_count {c : Nat} (hc : c < 2 ^ 31) : InInt c := by
  constructor <;> omega

theorem length_count {c : Nat} (hc : c < 2 ^ 31) : (intStr c).length ≤ 10 := by
  rw [intStr_natCast, length_natStr]
  exact Nat.succ_le_succ (Nat.lt_succ_iff.mp (Nat.log_lt_of_lt_pow' (by decide) (by omega)))

theorem text_count {c : Nat} (hc : c < 2 ^ 31) :
    text (countText c) = intStr c ++ List.replicate (16 - (intStr c).length) 0 :=
  ofFn_copyStr ((length_count hc).trans (by decide))

theorem stoi_text {c : Nat} (hc : c < 2 ^ 31) :
    stoi (text (countText c)) = some ⟨c, inInt_count hc⟩ := by
  rw [text_count hc]
  refine stoi_intStr ⟨c, inInt_count hc⟩ fun b hb => ?_
  obtain rfl := List.eq_of_mem_replicate (List.mem_of_mem_head? hb)
  rfl

theorem incrementCnt_eq {z : CInt} (hz : stoi (text nd.value) = some z) :
    incrementCnt nd = if InInt (z.val + 1) then
      some (text nd.value, intStr (z.val + 1), nd.copyValue (intStr (z.val + 1))) else none := by
  rw [text] at hz ⊢
  simp only [incrementCnt, hz, Option.bind_eq_bind, Option.bind_some, Option.pure_def]
  by_cases h : InInt (z.val + 1)
  · simp only [h, guard_true, Option.pure_def, Option.bind_some, if_true]
  · simp [h]

theorem incrementCnt_turns {c : Nat} (hc : c + 1 < 2 ^ 31) :
    Turns (incrementCnt (n := n)) depth (intStr c) (intStr (c + 1 : Nat)) := by
  intro nd hval hleaf
  have hin := inInt_count hc
  have hlen := (length_count hc).trans (by decide : 10 ≤ 16)
  have hstoi := stoi_text (Nat.lt_of_succ_lt hc)
  rw [countText, ← hval] at hstoi
  rw [Nat.cast_succ] at hin hlen ⊢
  refine ⟨intStr (c + 1), nd.copyValue (intStr (c + 1)), ?_, ?_⟩
  · rw [incrementCnt_eq hstoi, if_pos hin, hval]
  · rw [copyValue_padded hlen]
    exact ⟨⟨nd.pos, rfl⟩, hleaf⟩

theorem incrementCnt_overflow {c : Nat} (hc : c + 1 = 2 ^ 31) (hval : nd.value = countText c) :
    incrementCnt nd = none := by
  rw [incrementCnt_eq (hval ▸ stoi_text (by omega)), if_neg]
  rintro ⟨-, h⟩
  replace h : (c : Int) + 1 < 2 ^ 31 := h
  omega

theorem incrementCnt_res {newval : Str} {nd' : Node n}
    (h : incrementCnt nd = some (res, newval, nd')) : res = text nd.value := by
  obtain ⟨cnt, -, h⟩ := Option.bind_eq_some_iff.mp h
  obtain ⟨-, -, h⟩ := Option.bind_eq_some_iff.mp h
  exact (congrArg Prod.fst (Option.some.inj h)).symm

/-- **The nodes of a call**: those of the tree, and the new one. -/
theorem countNodes_touches (htape : ∀ i, Leaf m.oram.depth (E.tape i)) (hfuel : t.height < fuel)
    (h : Stored E V t m) (hreal : real E key = true)
    (hm : OMAP.countNodes E fuel key m = some (res, m')) (hj : j ∈ m'.oram.modified) :
    j = key ∨ j ∈ keys t := by
  have hw := h.start false
  have hstart : ∀ {o : ORAM n}, Next E (places E V m.oram) V (start false m.oram) o
      {k | k ∈ searched key t} → j ∈ o.modified → j ∈ keys t := by
    intro o hn hj
    refine ((hn.modified j).mp hj).elim (fun hj => ?_) fun hj => ?_
    · exact mem_keys_of_visited (mem_visited_of_searched hj)
    · rw [show (start false m.oram).modified = [] from h.rest.modified] at hj
      cases hj
  by_cases hk : key ∈ keys t
  · have ht : t ≠ .nil := by
      rintro rfl
      cases hk
    obtain ⟨nd, hV⟩ := (h.rooted.repr ht).mem hk
    cases hf : incrementCnt nd with
    | none =>
      have hstuck := increment_stuck incrementCnt incrementCnt hk hw hfuel hV
        (by rw [ite_self]; exact hf)
      rw [OMAP.countNodes, AVLTree.incrementCnt, hstuck] at hm
      cases hm
    | some r =>
      obtain ⟨r, newval, nd'⟩ := r
      obtain ⟨o1, ho1, -, hn1, -⟩ := increment_present incrementCnt incrementCnt hk hw hfuel hV
        (by rw [ite_self]; exact hf)
      have hr : r ≠ [] := incrementCnt_res hf ▸ text_ne_nil _
      simp only [OMAP.countNodes, AVLTree.incrementCnt, ho1, Option.bind_eq_bind, Option.bind_some,
        hr, if_false, Option.pure_def] at hm
      obtain ⟨-, rfl⟩ := Prod.mk.inj (Option.some.inj hm)
      exact .inr (hstart hn1 hj)
  · have hV : V key = none := by
      by_contra hV
      exact hk (h.dom key hV)
    obtain ⟨o1, ho1, hw1, hn1, -⟩ := increment_absent incrementCnt incrementCnt hk hw hfuel
    have hdraws : o1.draws = m.oram.draws := hn1.drawn
    obtain ⟨u, V1, m1, -, hm1, -, hd1, -⟩ := insert_working
      (show ([49] : Str).length ≤ 16 by decide) hw1 hw1.rooted hreal
      (fun _ => ⟨by rw [places_of_none hV]; exact congrArg E.tape hdraws.symm, by
        rw [places_of_none hV]
        exact hn1.grows.depth ▸ htape _⟩) hfuel
    dsimp only at hm1
    simp only [OMAP.countNodes, AVLTree.incrementCnt, ho1, Option.bind_eq_bind, Option.bind_some,
      if_true, hm1, Option.pure_def] at hm
    obtain ⟨-, rfl⟩ := Prod.mk.inj (Option.some.inj hm)
    refine ((hd1.modified j).mp hj).elim (fun hj => ?_) fun hj => .inr (hstart hn1 hj)
    exact hj.imp_right mem_keys_of_visited

end

/-! ## Keys of an epoch -/

section

variable {k : Int} {w v : Str} {ws : List Str} {key : Bid 16} {t : Tree 16}

theorem getBid_number (w : Str) (hk : InInt k) : ((getBid w k).id.getInt 12).val = k :=
  congrArg Subtype.val (Buf.getInt_putInt 12 ⟨k, hk⟩ (Buf.zero.copyStr w) (by decide))

theorem getBid_word_inj (hw : Fits12 w) (hv : Fits12 v) (h : getBid w k = getBid v k) : w = v := by
  refine nulFree_ext (m := 12) hw.2.1 hv.2.1 hw.2.2 hv.2.2 fun i hi => ?_
  have := congrArg (fun b : Bid 16 => b.id.at' i) h
  rwa [getBid, getBid, Buf.putInt_at _ _ _ _ (by omega), Buf.putInt_at _ _ _ _ (by omega),
    if_neg (by omega), if_neg (by omega), Buf.copyStr_zero_at _ _ (by omega),
    Buf.copyStr_zero_at _ _ (by omega)] at this

theorem getBid_not_zero (hw : Fits12 w) : (getBid w k).isZero = false := by
  obtain ⟨hne, hnul, -⟩ := hw
  obtain ⟨b, w, rfl⟩ := List.exists_cons_of_ne_nil hne
  have hb : b ≠ 0 := fun h => hnul (h ▸ List.mem_cons_self)
  have hat : (getBid (b :: w) k).id.at' 0 = b := by
    rw [getBid, Buf.putInt_at _ _ _ _ (by omega), if_neg (by omega),
      Buf.copyStr_zero_at _ _ (by omega)]
    rfl
  by_contra h
  rw [Bool.not_eq_false, Bid.isZero, List.all_eq_true] at h
  have h0 := h 3 (by simp)
  rw [show 3 - 3 = 0 from rfl, hat] at h0
  exact hb (by simpa using h0)

/-- The keys of epoch `k` pass the filters that stand below it. -/
theorem real_getBid (tape : Nat → Int) (order : HashOrder) {d : Int} (hk : InInt k) (hd : d < k)
    (hw : Fits12 w) : real (filtered tape order d) (getBid w k) = true := by
  rw [real, getBid_not_zero hw]
  simpa [filtered, getBid_number w hk] using hd

theorem countPairs_snoc (k : Int) (ws : List Str) (w : Str) :
    countPairs k (ws ++ [w]) = countPairs k ws ++ [(getBid w k, countText (ws.count w + 1))] := by
  have hlast : (ws ++ [w]).take ws.length = ws := by simp
  rw [countPairs, List.zipIdx_append, List.map_append, countPairs]
  congr 1
  · refine List.map_congr_left fun e he => ?_
    have hlt := List.snd_lt_of_mem_zipIdx he
    rw [List.take_append_of_le_length (by omega)]
  · simp [hlast]

theorem mem_countPairs {e : Bid 16 × Buf 16} (h : e ∈ countPairs k ws) :
    ∃ w ∈ ws, e.1 = getBid w k := by
  obtain ⟨⟨w, i⟩, hw, rfl⟩ := List.mem_map.mp h
  exact ⟨w, (List.mem_zipIdx' hw).2 ▸ List.getElem_mem _, rfl⟩

theorem valueOf_count (hws : ∀ v ∈ ws, Fits12 v) (hw : Fits12 w)
    (ht : AVL.insertAll (countPairs k ws) = some t) :
    valueOf (getBid w k) (AVL.pairs t) = if w ∈ ws then some (countText (ws.count w)) else none := by
  induction ws using List.reverseRecOn generalizing t with
  | nil =>
    obtain rfl := Option.some.inj ht
    rfl
  | append_singleton ws v ih =>
    obtain ⟨u, hu, hok, hasc, -⟩ := insertAll_spec (countPairs k ws)
    obtain ⟨u', hu', -⟩ := AVL.insert_ok (getBid v k) (countText (ws.count v + 1)) hok
    have hsnoc := insertAll_snoc hu hu'
    rw [← countPairs_snoc, ht] at hsnoc
    obtain rfl := Option.some.inj hsnoc
    rw [AVL.insert_pairs hasc hu', valueOf_assign hasc]
    have hv := hws v (by simp)
    by_cases hwv : w = v
    · subst hwv
      simp
    · rw [if_neg fun h => hwv (getBid_word_inj hw hv h), ih (fun v hv => hws v (by simp [hv])) hu]
      simp [hwv, Ne.symm hwv]

end

/-! ## Epochs -/

structure InEpoch (tape : Nat → Int) (order : HashOrder) (maxSize : Nat) (k : Int) (ws : List Str)
    (s : EpochOMAP) (V : Bid 16 → Option (Node 16)) (t : Tree 16) : Prop where
  dummy : s.dummyValue + 1 = k
  stored : Stored (filtered tape order s.dummyValue) V t s.omap
  built : AVL.insertAll (countPairs k ws) = some t
  depth : s.omap.oram.depth = depthOf maxSize
  maxHeight : s.omap.oram.maxHeightOfAVLTree = maxHeightOfAVLTree maxSize

section

variable {tape : Nat → Int} {order : HashOrder} {maxSize fuel : Nat} {k d d' : Int} {w : Str}
  {ws : List Str} {epochs : List (List Str)} {s : EpochOMAP} {V : Bid 16 → Option (Node 16)}
  {t : Tree 16} {m : OMAP 16} {j : Bid 16}

/-- **The end of an epoch**: its nodes are given up where they are. -/
theorem Stored.nextEpoch (h : Stored (filtered tape order d) V t m) (hd : d ≤ d')
    (hkeys : ∀ j ∈ keys t, (j.id.getInt 12).val ≤ d') :
    Stored (filtered tape order d') (fun _ => none) .nil m := by
  have hle : ∀ j, real (filtered tape order d') j = true → real (filtered tape order d) j = true := by
    intro j hj
    simp only [real, filtered, Bool.and_eq_true, decide_eq_true_eq] at hj ⊢
    exact ⟨hj.1, hd.trans_lt hj.2⟩
  have hold : ∀ j ∈ keys t, real (filtered tape order d') j = false := by
    intro j hj
    have := hkeys j hj
    simp [real, filtered, this]
  have hnone : (fun j => if real (filtered tape order d') j then V j else none) = fun _ => none := by
    funext j
    split
    · next hr =>
      by_contra hV
      rw [hold j (h.dom j hV)] at hr
      cases hr
    · rfl
  refine ⟨⟨hnone ▸ h.rest.keeps.restrict hle, h.rest.leafs, h.rest.modified, fun hV => by cases hV⟩,
    .inr ⟨rfl, ?_⟩, fun _ hV => absurd rfl hV, trivial, List.Pairwise.nil⟩
  by_contra hr
  rw [Bool.not_eq_false] at hr
  rcases h.rooted with ⟨hrepr, ht⟩ | ⟨-, hnr⟩
  · cases t with
    | nil => exact ht rfl
    | node e l r =>
      obtain ⟨nd, -, -, rfl, -⟩ := hrepr
      rw [hold m.rootKey (by simp)] at hr
      cases hr
  · rw [hle _ hr] at hnr
    cases hnr

theorem InEpoch.key (h : InEpoch tape order maxSize k ws s V t) (hj : j ∈ keys t) :
    ∃ w ∈ ws, j = getBid w k := by
  obtain ⟨t', ht', -, -, hkeys⟩ := insertAll_spec (countPairs k ws)
  obtain rfl := Option.some.inj (ht'.symm.trans h.built)
  obtain ⟨e, he, rfl⟩ := List.mem_map.mp hj
  obtain ⟨p, hp, hpe⟩ := List.mem_map.mp (hkeys e he)
  obtain ⟨w, hw, hpw⟩ := mem_countPairs hp
  exact ⟨w, hw, hpe ▸ hpw⟩

theorem InEpoch.setDummy (h : InEpoch tape order maxSize k ws s V t) (hk : InInt k) :
    InEpoch tape order maxSize (k + 1) [] { s with dummyValue := k } (fun _ => none) .nil := by
  have hd : s.dummyValue ≤ k := by
    have := h.dummy
    omega
  refine ⟨rfl, h.stored.nextEpoch hd fun j hj => ?_, rfl, h.depth, h.maxHeight⟩
  obtain ⟨w, -, rfl⟩ := h.key hj
  exact (getBid_number w hk).le

theorem EpochOk.init (h : EpochOk maxSize k (ws ++ [w])) : EpochOk maxSize k ws := by
  refine ⟨fun v hv => h.words v (by simp [hv]), fun v hv => lt_of_le_of_lt ?_ (h.few v (by simp [hv])),
    fun t ht => ?_⟩
  · rw [List.count_append]
    exact Nat.le_add_right _ _
  · obtain ⟨t', ht', hok, -⟩ := insertAll_spec (countPairs k ws)
    obtain rfl := Option.some.inj (ht'.symm.trans ht)
    obtain ⟨u, hu, hok', hge, -⟩ := AVL.insert_ok (getBid w k) (countText (ws.count w + 1)) hok
    have hle := h.height u (by rw [countPairs_snoc]; exact insertAll_snoc ht hu)
    rw [hok.height_eq, hok'.height_eq] at hge
    exact hge.trans hle

variable (htape : ∀ i, Leaf (depthOf maxSize) (tape i)) (hfuel : maxHeightOfAVLTree maxSize < fuel)

include htape hfuel

/-- **One call** of an epoch. -/
theorem InEpoch.incrementCnt (h : InEpoch tape order maxSize k ws s V t) (hk : InInt k)
    (hok : EpochOk maxSize k (ws ++ [w])) :
    ∃ answer during m' V' u,
      OMAP.countNodes (filtered tape order s.dummyValue) fuel (getBid w k) s.omap =
        some (answer, during) ∧
      OMAP.incrementCnt (filtered tape order s.dummyValue) fuel (getBid w k) s.omap =
        some (answer, m') ∧
      Counts ws w answer ∧ (∀ j ∈ during.oram.modified, (j.id.getInt 12).val = k) ∧
      InEpoch tape order maxSize k (ws ++ [w]) { s with omap := m' } V' u := by
  have hw := hok.words w (by simp)
  have hfew := hok.few w (by simp)
  rw [List.count_append, List.count_singleton_self] at hfew
  have hval := valueOf_count hok.init.words hw h.built
  have hd : s.dummyValue < k := by
    have := h.dummy
    omega
  have hreal := real_getBid tape order hk hd hw
  have htape' : ∀ i, Leaf s.omap.oram.depth ((filtered tape order s.dummyValue).tape i) :=
    h.depth ▸ htape
  have hht := hok.init.height t h.built
  have hfuel' : t.height < fuel := lt_of_le_of_lt hht hfuel
  obtain ⟨answer, m', V', u, hm', hcounts, hst, hset, hbuilt⟩ : ∃ answer m' V' u,
      OMAP.incrementCnt (filtered tape order s.dummyValue) fuel (getBid w k) s.omap =
        some (answer, m') ∧ Counts ws w answer ∧
      Stored (filtered tape order s.dummyValue) V' u m' ∧ Settings s.omap.oram m'.oram ∧
      AVL.insertAll (countPairs k (ws ++ [w])) = some u := by
    rw [OMAP.incrementCnt_eq, countPairs_snoc]
    by_cases hmem : w ∈ ws
    · rw [if_pos hmem] at hval
      have hkt := mem_keys_of_valueOf hval
      have hturn : Turns (n := 16) (if getBid w k = s.omap.rootKey then Omap.incrementCnt
          else Omap.incrementCnt) s.omap.oram.depth (intStr (ws.count w))
          (intStr (ws.count w + 1 : Nat)) := by
        rw [ite_self]
        exact incrementCnt_turns hfew
      obtain ⟨V', m', hm', hst, hset, -⟩ := incrementOr_turn htape' hfuel' h.stored
        (.inl (h.maxHeight ▸ hht)) false [49] hval hturn
      refine ⟨_, m', V', _, hm', ?_, hst, hset,
        insertAll_snoc h.built (AVL.insert_setValue h.stored.ok h.stored.sorted hkt)⟩
      rw [Counts, if_pos hmem]
      exact congrArg (Option.map Subtype.val) (stoi_text (Nat.lt_of_succ_lt hfew))
    · rw [if_neg hmem] at hval
      have hkt : getBid w k ∉ keys t := fun hkt => by
        obtain ⟨v, -, hv⟩ := exists_valueOf hkt
        rw [hv] at hval
        cases hval
      obtain ⟨u, hu, -⟩ := AVL.insert_ok (getBid w k) (countText 1) h.stored.ok
      obtain ⟨V', m', hm', -, -, hst, hset, -⟩ :
          ∃ V' m', OMAP.incrementOr (filtered tape order s.dummyValue) (AVLTree.increment _
            Omap.incrementCnt Omap.incrementCnt) false [49] fuel (getBid w k) s.omap = some ([], m') ∧
            _ := incrementOr_absent htape' hfuel' h.stored _ _ (by decide) hkt hreal hu
      have hbuilt := insertAll_snoc h.built hu
      rw [List.count_eq_zero.mpr hmem]
      refine ⟨[], m', V', u, hm', by rw [Counts, if_neg hmem], hst (.inl ?_), hset, hbuilt⟩
      rw [h.maxHeight]
      refine hok.height u ?_
      rw [countPairs_snoc, List.count_eq_zero.mpr hmem]
      exact hbuilt
  obtain ⟨⟨answer', during⟩, hduring, hrest⟩ := Option.bind_eq_some_iff.mp hm'
  obtain ⟨m2, -, hrest⟩ := Option.bind_eq_some_iff.mp hrest
  obtain ⟨rfl, -⟩ := Prod.mk.inj (Option.some.inj hrest)
  refine ⟨answer', during, m', V', u, hduring, hm', hcounts, fun j hj => ?_, h.dummy, hst, hbuilt,
    hset.1.trans h.depth, hset.2.trans h.maxHeight⟩
  rcases countNodes_touches htape' hfuel' h.stored hreal hduring hj with rfl | hj
  · exact getBid_number w hk
  · obtain ⟨v, -, rfl⟩ := h.key hj
    exact getBid_number v hk

/-- **The calls of an epoch.** -/
theorem InEpoch.run (h : InEpoch tape order maxSize k [] s V t) (hk : InInt k)
    (hok : EpochOk maxSize k ws) : ∃ s' V' t',
      Lib.run (epochCall tape order fuel) s (countCalls k ws) = some s' ∧
        InEpoch tape order maxSize k ws s' V' t' := by
  induction ws using List.reverseRecOn with
  | nil => exact ⟨s, V, t, rfl, h⟩
  | append_singleton ws w ih =>
    obtain ⟨s1, V1, t1, hrun, h1⟩ := ih hok.init
    obtain ⟨answer, during, m', V', u, -, hm', -, -, h'⟩ := h1.incrementCnt htape hfuel hk hok
    refine ⟨_, V', u, ?_, h'⟩
    rw [countCalls, List.map_append]
    exact run_snoc hrun (by simp [epochCall, hm'])

/-- **Runs of whole epochs.** -/
theorem finished_run (hmany : epochs.length < 2 ^ 31 - 1)
    (hepochs : ∀ e ∈ epochs.zipIdx 1, EpochOk maxSize (e.2 : Nat) e.1) : ∃ s V t,
      Lib.run (epochCall tape order fuel) (EpochOMAP.init maxSize) (finishedCalls epochs) = some s ∧
        InEpoch tape order maxSize (epochs.length + 1 : Nat) [] s V t := by
  induction epochs using List.reverseRecOn with
  | nil => exact ⟨_, _, _, rfl, rfl, init_stored _ _ _, rfl, rfl, rfl⟩
  | append_singleton epochs ws ih =>
    rw [List.length_append, List.length_singleton] at hmany
    have hsplit : (epochs ++ [ws]).zipIdx 1 = epochs.zipIdx 1 ++ [(ws, epochs.length + 1)] := by
      rw [List.zipIdx_append, Nat.add_comm 1]
      rfl
    rw [hsplit] at hepochs
    have hk : InInt ((epochs.length + 1 : Nat) : Int) := inInt_count (by omega)
    obtain ⟨s, V, t, hrun, h⟩ := ih (by omega) fun e he => hepochs e (by simp [he])
    obtain ⟨s1, V1, t1, hrun1, h1⟩ := h.run htape hfuel hk (hepochs (ws, epochs.length + 1) (by simp))
    refine ⟨{ s1 with dummyValue := (epochs.length + 1 : Nat) }, fun _ => none, .nil, ?_, ?_⟩
    · rw [finishedCalls, hsplit, List.flatMap_append, run_append, ← finishedCalls, hrun,
        Option.bind_some, List.flatMap_singleton]
      exact run_snoc hrun1 rfl
    · have := h1.setDummy hk
      rwa [List.length_append, List.length_singleton, Nat.cast_succ]

omit htape

theorem InEpoch.stuck (h : InEpoch tape order maxSize k ws s V t) (hok : EpochOk maxSize k ws)
    (hw : w ∈ ws) (hmax : ws.count w + 1 = 2 ^ 31) :
    OMAP.incrementCnt (filtered tape order s.dummyValue) fuel (getBid w k) s.omap = none := by
  have hval := valueOf_count hok.words (hok.words w hw) h.built
  rw [if_pos hw] at hval
  have hkt := mem_keys_of_valueOf hval
  have ht : t ≠ .nil := by
    rintro rfl
    cases hkt
  obtain ⟨nd, hV, hnd⟩ := (h.stored.rooted.repr ht).holds (mem_of_valueOf hval)
  have hstuck := increment_stuck Omap.incrementCnt Omap.incrementCnt hkt (h.stored.start false)
    (lt_of_le_of_lt (hok.height t h.built) hfuel) hV
    (by rw [ite_self]; exact incrementCnt_overflow hmax hnd)
  rw [OMAP.incrementCnt, OMAP.countNodes, AVLTree.incrementCnt, hstuck]
  rfl

end

/-- **`setDummy` starts a clean epoch.** After any number of epochs and any calls of the
current one, the next call succeeds, its answer counts the earlier calls of this epoch for
the same keyword, and all nodes on its way belong to this epoch. -/
theorem epochs_exact (maxSize : Nat) (tape : Nat → Int)
    (htape : ∀ i, Leaf (depthOf maxSize) (tape i)) (order : HashOrder) (fuel : Nat)
    (hfuel : maxHeightOfAVLTree maxSize < fuel) (epochs : List (List Str)) (current : List Str)
    (w : Str) (hmany : epochs.length < 2 ^ 31 - 1)
    (hepochs : ∀ e ∈ epochs.zipIdx 1, EpochOk maxSize (e.2 : Nat) e.1)
    (hcurrent : EpochOk maxSize (epochs.length + 1 : Nat) (current ++ [w])) :
    let k : Int := (epochs.length + 1 : Nat)
    ∃ s answer during m,
      run (epochCall tape order fuel) (EpochOMAP.init maxSize) (epochCalls epochs current) = some s ∧
      OMAP.countNodes (filtered tape order s.dummyValue) fuel (getBid w k) s.omap =
        some (answer, during) ∧
      OMAP.incrementCnt (filtered tape order s.dummyValue) fuel (getBid w k) s.omap =
        some (answer, m) ∧
      Counts current w answer ∧ ∀ j ∈ during.oram.modified, (j.id.getInt 12).val = k := by
  have hk : InInt ((epochs.length + 1 : Nat) : Int) := inInt_count (by omega)
  obtain ⟨s, V, t, hrun, h⟩ := finished_run htape hfuel hmany hepochs
  obtain ⟨s1, V1, t1, hrun1, h1⟩ := h.run htape hfuel hk hcurrent.init
  obtain ⟨answer, during, m, -, -, hduring, hm, hcounts, htouched, -⟩ :=
    h1.incrementCnt htape hfuel hk hcurrent
  refine ⟨s1, answer, during, m, ?_, hduring, hm, hcounts, htouched⟩
  rw [epochCalls, run_append, hrun, Option.bind_some, hrun1]

theorem epochOk_replicate (maxSize : Nat) (k : Int) {c : Nat} (hc : c < 2 ^ 31) {w : Str}
    (hw : Fits12 w) : EpochOk maxSize k (List.replicate c w) := by
  refine ⟨fun v hv => List.eq_of_mem_replicate hv ▸ hw, fun v _ => ?_, fun t ht => ?_⟩
  · rw [List.count_replicate]
    split <;> omega
  · obtain ⟨t', ht', -, hs, hkeys⟩ := insertAll_spec (countPairs k (List.replicate c w))
    obtain rfl := Option.some.inj (ht'.symm.trans ht)
    have h1 := @numNodes_le _ _ _ [getBid w k] _ hs fun e he => by
      obtain ⟨p, hp, hpe⟩ := List.mem_map.mp (hkeys e he)
      obtain ⟨v, hv, hpv⟩ := mem_countPairs hp
      rw [← hpe, hpv, List.eq_of_mem_replicate hv]
      exact List.mem_cons_self
    have h2 := t'.height_le_numNodes
    exact (h2.trans h1).trans (Nat.succ_le_succ (Nat.zero_le _))

/-- Keyword `a` twice in the first epoch and twice in the second. -/
theorem epochs_exact_sample :
    ∃ s answer during m,
      run (epochCall (fun _ => 0) HashOrder.stored 7) (EpochOMAP.init 8)
        (epochCalls [List.replicate 2 [97]] [[97]]) = some s ∧
      OMAP.countNodes (filtered (fun _ => 0) HashOrder.stored s.dummyValue) 7 (getBid [97] 2) s.omap =
        some (answer, during) ∧
      OMAP.incrementCnt (filtered (fun _ => 0) HashOrder.stored s.dummyValue) 7 (getBid [97] 2)
        s.omap = some (answer, m) ∧
      Counts [[97]] [97] answer ∧ ∀ j ∈ during.oram.modified, (j.id.getInt 12).val = 2 :=
  epochs_exact 8 (fun _ => 0) (fun _ => by decide) HashOrder.stored 7 (by decide)
    [List.replicate 2 [97]] [[97]] [97] (by decide)
    (fun e he => by
      obtain rfl := List.mem_singleton.mp he
      exact epochOk_replicate 8 _ (by decide) (by decide))
    (epochOk_replicate 8 _ (c := 2) (by decide) (by decide))

/-- A keyword used `2 ^ 31` times in one epoch: the last call overflows. -/
theorem epochs_overflow : ∃ s,
    run (epochCall (fun _ => 0) HashOrder.stored 7) (EpochOMAP.init 8)
      (epochCalls [] (List.replicate (2 ^ 31 - 1) [97])) = some s ∧
    OMAP.incrementCnt (filtered (fun _ => 0) HashOrder.stored s.dummyValue) 7 (getBid [97] 1) s.omap =
      none := by
  have htape : Nat → Leaf (depthOf 8) 0 := fun _ => by decide
  generalize hc : (2 ^ 31 - 1 : Nat) = c
  replace hc : c + 1 = 2 ^ 31 := by omega
  have hok := epochOk_replicate 8 1 (c := c) (w := [97]) (by omega) (by decide)
  have hfuel : maxHeightOfAVLTree 8 < 7 := by decide
  obtain ⟨s, V, t, hrun, h⟩ := @finished_run (fun _ => 0) HashOrder.stored 8 7 [] htape hfuel
    (by decide) (by simp)
  obtain ⟨s1, V1, t1, hrun1, h1⟩ := h.run htape hfuel (by decide) hok
  refine ⟨s1, ?_, h1.stuck (by decide) hok ?_ ?_⟩
  · rw [epochCalls, run_append, hrun, Option.bind_some]
    exact hrun1
  · exact List.mem_replicate.mpr ⟨by omega, rfl⟩
  · rw [List.count_replicate_self]
    exact hc

end SmallClientSSE.Omap
