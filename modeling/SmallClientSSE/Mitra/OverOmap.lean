import SmallClientSSE.Mitra.Exact
import SmallClientSSE.Omap.CountUp
import SmallClientSSE.Omap.Exact

/-!
# Mitra over its OMAP

`Client.cpp` keeps the counters of its keywords in an OMAP, for which `Client` has a
finite map. `OmapClient` goes through the OMAP itself, with its tree and its ORAM. As long
as its keywords build no tree higher than the position updates reach, its calls do what
those of `Client` do (`follows_run`), so its searches are exact as well
(`omap_searches_exact`).
-/

namespace SmallClientSSE.Mitra

open Lib Omap

/-! ## The client -/

/-- The client with its OMAP; the map `omap` of `client` stays empty. -/
structure OmapClient where
  client : Client
  map : OMAP 16

/-- The calls that follow the setup. -/
inductive OnlineCall where
  | update (op : OP) (keyword : Str) (ind : CInt)
  | search (keyword : Str)
  deriving DecidableEq

def OnlineCall.keyword : OnlineCall → Str
  | .update _ keyword _ => keyword
  | .search keyword => keyword

def OnlineCall.toCall : OnlineCall → Call
  | .update op keyword ind => .update op keyword ind false
  | .search keyword => .search keyword

namespace OmapClient

def init (deleteFiles : Bool) (keyworsSize : Nat) : OmapClient :=
  ⟨Client.init deleteFiles false, OMAP.init (depthOf keyworsSize) (maxHeightOfAVLTree keyworsSize)⟩

section

variable (E : Env) (M : Omap.Env 16) (fuel : Nat)

/-- `Client::update` after the setup. -/
def update (b : OmapClient) (s : Server) (op : OP) (keyword : Str) (ind : CInt) :
    Option (OmapClient × Server) := do
  let (fileCntStr, map) ← OMAP.incrementFileCnt M fuel (Bid.ofStr keyword) b.map
  let (fileCnt, srcCnt) ← if fileCntStr ≠ [] then parsePair fileCntStr else some (0, 0)
  guard (InInt (fileCnt + 1))
  let fileCnt := fileCnt + 1
  let (c, s, _) := put E b.client s (kw keyword) op ind.val srcCnt fileCnt
  pure (⟨c, map⟩, s)

/-- `Client::search`. -/
def search (b : OmapClient) (s : Server) (keyword : Str) :
    Option (List CInt × OmapClient × Server) := do
  let k_w := kw keyword
  let (fileCntStr, map) ← OMAP.find M fuel (Bid.ofStr keyword) b.map
  if fileCntStr = [] then pure ([], ⟨b.client, map⟩, s)
  else do
    let (fileCnt, srcCnt) ← parsePair fileCntStr
    let (k_w, KList) := addresses E b.client.deleteFiles srcCnt k_w 1 fileCnt.toNat
    let (encIndexes, s) := s.search KList
    let (k_w, decoded) := decodeAll E b.client.deleteFiles srcCnt k_w 1 encIndexes
    let finalRes := Tally.below (Tally.tally decoded)
    if b.client.deleteFiles then do
      let srcCnt := srcCnt + 1
      let (c, s, _, fileCnt) := rewrite E srcCnt b.client s k_w 0 finalRes
      let map ← OMAP.insert M fuel (Bid.ofStr keyword) (pairStr fileCnt srcCnt) map
      pure (finalRes, ⟨c, map⟩, s)
    else pure (finalRes, ⟨b.client, map⟩, s)

def step (st : OmapClient × Server) : OnlineCall → Option (OmapClient × Server)
  | .update op keyword ind => update E M fuel st.1 st.2 op keyword ind
  | .search keyword => (search E M fuel st.1 st.2 keyword).map Prod.snd

end

end OmapClient

/-! ## An OMAP for a finite map -/

/-- The OMAP holds the texts of `f`, in a tree of some of the keys `ks`. -/
structure Backs (M : Omap.Env 16) (maxSize : Nat) (ks : List (Bid 16)) (f : FMap 16)
    (m : OMAP 16) : Prop where
  stored : ∃ V t, Omap.Stored M V t m ∧ (∀ k ∈ keys t, k ∈ ks) ∧
    ∀ k, valueOf k (AVL.pairs t) = (f k).map fun v => Buf.zero.copyStr v
  fits : ∀ k v, f k = some v → NulFree v ∧ v.length ≤ 16
  depth : m.oram.depth = depthOf maxSize
  maxHeight : m.oram.maxHeightOfAVLTree = maxHeightOfAVLTree maxSize

/-- `OmapClient` is in the state of `Client`. -/
structure Follows (M : Omap.Env 16) (maxSize : Nat) (ks : List (Bid 16)) (c : Client)
    (b : OmapClient) : Prop where
  client : b.client = { c with omap := fun _ => none }
  map : Backs M maxSize ks c.omap b.map

section

variable {M : Omap.Env 16} {maxSize fuel : Nat} {ks : List (Bid 16)} {f : FMap 16}
  {m m' : OMAP 16} {key : Bid 16} {value w : Str} {len src : Nat} {t u : Tree 16}

theorem init_backs (M : Omap.Env 16) (maxSize : Nat) (ks : List (Bid 16)) :
    Backs M maxSize ks (fun _ => none)
      (OMAP.init (depthOf maxSize) (maxHeightOfAVLTree maxSize)) :=
  ⟨⟨_, _, init_stored M _ _, fun _ hk => absurd hk List.not_mem_nil, fun _ => rfl⟩,
    fun _ _ h => (by cases h), rfl, rfl⟩

theorem height_le_of_keys (hks : ks.length + 1 < Nat.fib (depthOf maxSize + 6)) (hok : AVL.Ok t)
    (hs : Ascending (AVL.pairs t)) (hkeys : ∀ k ∈ keys t, k ∈ ks) :
    t.height ≤ maxHeightOfAVLTree maxSize := by
  have h1 := hok.balanced.fib_le
  have h2 := numNodes_le hs fun e he => hkeys e.1 (List.mem_map_of_mem he)
  rw [maxHeightOfAVLTree_eq]
  by_contra hbig
  have := Nat.fib_mono (show depthOf maxSize + 6 ≤ t.height + 2 by omega)
  omega

theorem height_insert (hks : ks.length + 1 < Nat.fib (depthOf maxSize + 6))
    (hs : Ascending (AVL.pairs t)) (hok : AVL.Ok t) (hkeys : ∀ k ∈ keys t, k ∈ ks)
    (hmem : key ∈ ks) (v : Buf 16) :
    ∃ u, AVL.insert key v t = some u ∧ u.height ≤ maxHeightOfAVLTree maxSize := by
  obtain ⟨u, hu, hok', -⟩ := AVL.insert_ok key v hok
  refine ⟨u, hu, height_le_of_keys hks hok' ?_ fun k hk => ?_⟩
  · rw [AVL.insert_pairs hs hu]
    exact hs.assign
  · rcases (mem_keys_insert hs hu).mp hk with rfl | hk
    exacts [hmem, hkeys k hk]

/-- An insertion into the tree is one into the map. -/
theorem Backs.of_insert {V : Bid 16 → Option (Node 16)}
    (hm : Backs M maxSize ks f m) (hs : Ascending (AVL.pairs t))
    (hkeys : ∀ k ∈ keys t, k ∈ ks)
    (hval : ∀ k, valueOf k (AVL.pairs t) = (f k).map fun v => Buf.zero.copyStr v)
    (hkey : key ∈ ks) (hv : NulFree value ∧ value.length ≤ 16)
    (hu : AVL.insert key (Buf.zero.copyStr value) t = some u)
    (hst : Omap.Stored M V u m') (hset : Settings m.oram m'.oram) :
    Backs M maxSize ks (f.insert key value) m' := by
  refine ⟨⟨V, u, hst, fun k hk => ?_, fun k => ?_⟩, fun k v hk => ?_, hset.1.trans hm.depth,
    hset.2.trans hm.maxHeight⟩
  · rcases (mem_keys_insert hs hu).mp hk with rfl | hk
    exacts [hkey, hkeys k hk]
  · rw [AVL.insert_pairs hs hu, valueOf_assign hs, FMap.insert_apply, hval]
    split <;> rfl
  · rw [FMap.insert_apply] at hk
    split at hk
    · exact Option.some.inj hk ▸ hv
    · exact hm.fits k v hk

theorem Backs.mem_of_find (h : Backs M maxSize ks f m) (hfind : f.find key ≠ []) : key ∈ ks := by
  obtain ⟨V, t, -, hkeys, hval⟩ := h.stored
  cases hf : f key with
  | none =>
    rw [FMap.find, hf] at hfind
    exact absurd rfl hfind
  | some v =>
    refine hkeys _ (mem_keys_of_valueOf (v := Buf.zero.copyStr v) ?_)
    rw [hval, hf]
    rfl

variable (hlive : ∀ k, M.live k = true) (htape : ∀ i, Leaf (depthOf maxSize) (M.tape i))
  (hfuel : maxHeightOfAVLTree maxSize < fuel)
  (hks : ks.length + 1 < Nat.fib (depthOf maxSize + 6)) (h : Backs M maxSize ks f m)

include hlive htape hfuel hks h

/-- **`find`** answers what the map holds. -/
theorem Backs.find (key : Bid 16) :
    ∃ m', OMAP.find M fuel key m = some (f.find key, m') ∧ Backs M maxSize ks f m' := by
  obtain ⟨V, t, hst, hkeys, hval⟩ := h.stored
  have hht := height_le_of_keys hks hst.ok hst.sorted hkeys
  obtain ⟨V', m', hm', hst', -, hset, -⟩ := find_spec hlive (h.depth ▸ htape) key
    (lt_of_le_of_lt hht hfuel) hst (.inl (h.maxHeight ▸ hht))
  have hcontents : contents t = f := by
    funext k
    unfold contents
    rw [hval]
    cases hk : f k with
    | none => rfl
    | some v =>
      obtain ⟨hnul, hlen⟩ := h.fits k v hk
      rw [Option.map_some, Option.map_some, Buf.cstr_copyStr hnul hlen]
  rw [hcontents] at hm'
  exact ⟨m', hm', ⟨V', t, hst', hkeys, hval⟩, h.fits, hset.1.trans h.depth,
    hset.2.trans h.maxHeight⟩

/-- **`insert`** changes both maps alike. -/
theorem Backs.insert (hkey : key.isZero = false) (hmem : key ∈ ks)
    (hv : NulFree value ∧ value.length ≤ 16) :
    ∃ m', OMAP.insert M fuel key value m = some m' ∧
      Backs M maxSize ks (f.insert key value) m' := by
  obtain ⟨V, t, hst, hkeys, hval⟩ := h.stored
  have hht := height_le_of_keys hks hst.ok hst.sorted hkeys
  obtain ⟨u, hu, hle⟩ := height_insert hks hst.sorted hst.ok hkeys hmem (Buf.zero.copyStr value)
  obtain ⟨V', m', hm', -, -, hst', hset, -⟩ :=
    insert_refines hlive (h.depth ▸ htape) key hv.2 hkey (lt_of_le_of_lt hht hfuel) hst hu
  exact ⟨m', hm', h.of_insert hst.sorted hkeys hval hmem hv hu
    (hst' (.inl (h.maxHeight ▸ hle))) hset⟩

/-- **`incrementFileCnt`** reads the counters and counts the first one up. -/
theorem Backs.incrementFileCnt (hdepth : depthOf maxSize ≤ 31) (hkey : key.isZero = false)
    (hmem : key ∈ ks) (htext : f key = cntText len src) (hlen : len + 1 < 2 ^ 31)
    (hsrc : src < 2 ^ 31) (hfit : (pairStr (len + 1 : Nat) src).length ≤ 16) :
    ∃ res m', OMAP.incrementFileCnt M fuel key m = some (res, m') ∧ res ≠ [] ∧
      parsePair res = some ((len : Int), (src : Int)) ∧
      Backs M maxSize ks (f.insert key (pairStr (len + 1 : Nat) src)) m' := by
  obtain ⟨V, t, hst, hkeys, hval⟩ := h.stored
  have hht := height_le_of_keys hks hst.ok hst.sorted hkeys
  have hnew : NulFree (pairStr (len + 1 : Nat) src) ∧ (pairStr (len + 1 : Nat) src).length ≤ 16 :=
    ⟨nulFree_pairStr _ _, hfit⟩
  by_cases hz : src = 0 ∧ len = 0
  · obtain ⟨rfl, rfl⟩ := hz
    have hk : key ∉ keys t := fun hk => by
      obtain ⟨v, -, hv⟩ := exists_valueOf hk
      rw [hval, htext] at hv
      cases hv
    obtain ⟨u, hu, hle⟩ := height_insert hks hst.sorted hst.ok hkeys hmem
      (Buf.zero.copyStr (pairStr 1 0))
    have hreal : ORAM.real M key = true := by simp [ORAM.real, hkey, hlive]
    obtain ⟨V', m', hm', -, -, hst', hset, -⟩ := incrementFileCnt_absent
      (h.depth ▸ htape) (lt_of_le_of_lt hht hfuel) hst hk hreal hu
    exact ⟨_, m', hm', pairStr_ne_nil _ _, parsePair_cnt (by omega) (by omega),
      h.of_insert hst.sorted hkeys hval hmem hnew hu (hst' (.inl (h.maxHeight ▸ hle))) hset⟩
  · rw [cntText, if_neg hz] at htext
    have hv : valueOf key (AVL.pairs t) = some (Buf.zero.copyStr (pairStr len src)) := by
      rw [hval, htext]
      rfl
    have hold := (h.fits key _ htext).2
    have hturns : Turns (n := 16) Omap.incrementFileCnt m.oram.depth (pairStr len src)
        (pairStr (len + 1 : Nat) src) :=
      incrementFirst_turns (by omega) (by omega) (by omega) hfit (h.depth ▸ hdepth)
    obtain ⟨V', m', hm', hst', hset, -⟩ := incrementFileCnt_turn (h.depth ▸ htape)
      (lt_of_le_of_lt hht hfuel) hst (.inl (h.maxHeight ▸ hht)) hv hturns
    have hu : AVL.insert key (Buf.zero.copyStr (pairStr (len + 1 : Nat) src)) t = some _ :=
      AVL.insert_setValue hst.ok hst.sorted (mem_keys_of_valueOf hv)
    exact ⟨_, m', hm', text_ne_nil _, read_padded (by omega) (by omega) (by omega) (by omega) hold,
      h.of_insert hst.sorted hkeys hval hmem hnew hu hst' hset⟩

end

/-! ## Calls -/

section

variable {E : Env} {M : Omap.Env 16} {df : Bool} {maxSize fuel : Nat} {ks : List (Bid 16)}
  {pre : List Call} {st st' : Client × Server} {b : OmapClient} {op : OP} {w : Str} {ind : CInt}
  {res : List CInt}

theorem length_pairStr_le {i j : Nat} (hi : i < 10 ^ 7) (hj : j < 10 ^ 7) :
    (pairStr i j).length ≤ 16 := by
  have hlen : ∀ k : Nat, k < 10 ^ 7 → (intStr k).length ≤ 7 := fun k hk => by
    rw [intStr_natCast, length_natStr]
    by_cases h0 : k = 0
    · subst h0
      simp
    · exact Nat.log_lt_of_lt_pow h0 hk
  have h1 := hlen i hi
  have h2 := hlen j hj
  rw [length_pairStr]
  omega

theorem rewrite_with (f : FMap 16) (src : Int) (inds : List CInt) :
    ∀ (c : Client) (s : Server) (k : Block) (cnt : Int), ∃ n s' k',
      rewrite E src c s k cnt inds = ({ c with rands := n }, s', k', cnt + inds.length) ∧
      rewrite E src { c with omap := f } s k cnt inds =
        ({ c with omap := f, rands := n }, s', k', cnt + inds.length) := by
  induction inds with
  | nil => exact fun c s k cnt => ⟨c.rands, s, k, by simp [rewrite], by simp [rewrite]⟩
  | cons ind inds ih =>
    intro c s k cnt
    obtain ⟨n, s', k', h1, h2⟩ := ih (put E c s k .INS ind.val src (cnt + 1)).1
      (put E c s k .INS ind.val src (cnt + 1)).2.1 (put E c s k .INS ind.val src (cnt + 1)).2.2
      (cnt + 1)
    have hcnt : cnt + 1 + (inds.length : Int) = cnt + ((ind :: inds).length : Nat) := by
      rw [List.length_cons]
      omega
    rw [hcnt] at h1 h2
    exact ⟨n, s', k', h1, h2⟩

/-- The clean-up with any map of counters in place of the OMAP. -/
theorem cleanUp_with {c : Client} (hrem : c.localStorage = false) (f : FMap 16) (s : Server)
    (k : Block) (w : Str) (src : Int) (ids : List CInt) : ∃ (n : Nat) (s' : Server) (k' : Block),
      cleanUp E c s k w src ids = ({ c with
        rands := n
        omap := c.omap.insert (Bid.ofStr w) (pairStr ids.length (src + 1)) }, s') ∧
      rewrite E (src + 1) { c with omap := f } s k 0 ids =
        ({ c with omap := f, rands := n }, s', k', (ids.length : Int)) := by
  obtain ⟨n, s', k', h1, h2⟩ := rewrite_with (E := E) f (src + 1) ids c s k 0
  rw [zero_add] at h1 h2
  exact ⟨n, s', k', by simp [cleanUp, hrem, h1], h2⟩

theorem Entry.parse_find {f : FMap 16} {s : Server} {src : Nat} {recs : List (OP × CInt)}
    (he : Entry E df pre f s w src recs) (hfit : callsOn w pre < 2 ^ 31)
    (htext : f.find (Bid.ofStr w) ≠ []) :
    parsePair (f.find (Bid.ofStr w)) = some ((recs.length : Int), (src : Int)) := by
  have hlen := he.len_le
  have hsrc := he.src_le
  rw [cntText_find _ _ he.text] at htext ⊢
  split at htext
  · exact absurd rfl htext
  · next hz =>
    rw [if_neg hz]
    exact parsePair_cnt (by omega) (by omega)

/-- A search finds no more ids than it reads records. -/
theorem Inv.length_search_le (hI : Inv E df pre false st) {src : Nat} {recs : List (OP × CInt)}
    (he : Entry E df pre st.1.omap st.2 w src recs) (hfit : callsOn w pre < 2 ^ 31)
    (hnz : ∀ a v, Msg.update a v ∈ st.2.trace → v ≠ Buf.zero)
    (hst : search E st.1 st.2 w = some (res, st')) : res.length ≤ recs.length := by
  rcases search_eq hI he hfit hnz with ⟨-, -, hs⟩ | ⟨k, s', -, -, -, hs⟩
  · obtain rfl := (Prod.mk.inj (Option.some.inj (hs.symm.trans hst))).1
    exact Nat.zero_le _
  · obtain rfl := (Prod.mk.inj (Option.some.inj (hs.symm.trans hst))).1
    exact length_liveIds_le recs

theorem Keyword.isZero (hw : Keyword w) : (Bid.ofStr w : Bid 16).isZero = false :=
  isZero_ofStr hw.1 (List.ne_nil_of_length_pos hw.2.1)

variable (hlive : ∀ k, M.live k = true) (htape : ∀ i, Leaf (depthOf maxSize) (M.tape i))
  (hfuel : maxHeightOfAVLTree maxSize < fuel)
  (hks : ks.length + 1 < Nat.fib (depthOf maxSize + 6)) (hI : Inv E df pre false st)
  (hF : Follows M maxSize ks st.1 b) (hw : Keyword w)
  (hshort : callsOn w pre + 1 < 10 ^ 7)

include hlive htape hfuel hks hI hF hw hshort

/-- **An update does the same.** -/
theorem update_follows (hdepth : depthOf maxSize ≤ 31) (hmem : Bid.ofStr w ∈ ks)
    (hst : update E st.1 st.2 op w ind false = some st') :
    ∃ b', b.update E M fuel st.2 op w ind = some (b', st'.2) ∧ Follows M maxSize ks st'.1 b' := by
  obtain ⟨src, recs, he⟩ := hI.entries w hw
  have hlen := he.len_le
  have hsrc := he.src_le
  obtain ⟨res, m', hres, hne, hparse, hback⟩ := hF.map.incrementFileCnt hlive htape hfuel hks
    hdepth hw.isZero hmem he.text (by omega) (by omega)
    (length_pairStr_le (by omega) (by omega))
  have htext : st.1.omap (Bid.ofStr w) = cntText recs.length src := he.text
  have hl : recs.length + 1 < 2 ^ 31 := by omega
  have hs : src < 2 ^ 31 := by omega
  have hinc := incrementFileCnt_spec htext hl
  have hread := parsePair_cnt (show recs.length < 2 ^ 31 by omega) hs
  obtain ⟨a, ha⟩ : ∃ a : Int, (recs.length : Int) = a := ⟨_, rfl⟩
  rw [Nat.cast_succ, ha] at hinc hback
  rw [ha] at hread hparse
  have hin : InInt (a + 1) := ⟨by omega, by omega⟩
  have hbump : bumpOmap st.1 w false = some ({ st.1 with
      omap := st.1.omap.insert (Bid.ofStr w) (pairStr (a + 1) src) }, a + 1, (src : Int)) := by
    simp only [bumpOmap, Bool.false_eq_true, if_false, hinc, Option.map_some, Option.bind_eq_bind,
      Option.bind_some, ne_eq, pairStr_ne_nil, not_false_eq_true, if_true, hread, hin, guard_true,
      Option.pure_def]
  rw [update, if_neg (by simp [hI.remote]), hbump] at hst
  obtain rfl := Option.some.inj hst
  refine ⟨⟨(put E b.client st.2 (kw w) op ind.val src (a + 1)).1, m'⟩, ?_, ?_, hback⟩
  · simp only [OmapClient.update, hres, hne, ne_eq, not_false_eq_true, if_true, hparse, hin,
      guard_true, Option.pure_def, Option.bind_eq_bind, Option.bind_some, hF.client]
    rfl
  · rw [hF.client]
    rfl

/-- **A search does the same**, with the same answer. -/
theorem search_follows (hnz : ∀ a v, Msg.update a v ∈ st.2.trace → v ≠ Buf.zero)
    (hst : search E st.1 st.2 w = some (res, st')) :
    ∃ b', b.search E M fuel st.2 w = some (res, b', st'.2) ∧ Follows M maxSize ks st'.1 b' := by
  obtain ⟨src, recs, hent⟩ := hI.entries w hw
  have he : Entry E df pre st.1.omap st.2 w src recs := hent
  have hlen := he.len_le
  have hsrc := he.src_le
  have hres := hI.length_search_le he (by omega) hnz hst
  obtain ⟨m1, hfind, hback⟩ := hF.map.find hlive htape hfuel hks (Bid.ofStr w)
  by_cases htext : st.1.omap.find (Bid.ofStr w) = []
  · have hs : search E st.1 st.2 w = some ([], st) := by
      simp [search, searchCounters, hI.remote, htext]
    obtain ⟨rfl, rfl⟩ := Prod.mk.inj (Option.some.inj (hs.symm.trans hst))
    exact ⟨⟨b.client, m1⟩, by simp [OmapClient.search, hfind, htext], hF.client, hback⟩
  · have hparse := he.parse_find (by omega) htext
    have hmode : b.client.deleteFiles = df := by
      rw [hF.client]
      exact hI.mode
    simp only [search, searchCounters, hI.remote, Bool.false_eq_true, if_false, ne_eq, htext,
      not_false_eq_true, if_true, hparse, Option.map_some, Option.bind_eq_bind,
      Option.bind_some, hI.mode] at hst
    simp only [OmapClient.search, hfind, htext, if_false, hparse, hmode, Option.bind_eq_bind,
      Option.bind_some]
    cases df with
    | false =>
      obtain ⟨rfl, rfl⟩ := Prod.mk.inj (Option.some.inj hst)
      exact ⟨⟨b.client, m1⟩, rfl, hF.client, hback⟩
    | true =>
      obtain ⟨hr, hst⟩ := Prod.mk.inj (Option.some.inj hst)
      rw [hr] at hst ⊢
      generalize hS : st.2.search (addresses E true src (kw w) 1 (recs.length : Int).toNat).2 = S
        at *
      generalize hD : (decodeAll E true src
        (addresses E true src (kw w) 1 (recs.length : Int).toNat).1 1 S.1) = D at *
      obtain ⟨n, s', k', hcl, hrw⟩ := cleanUp_with (E := E) hI.remote (fun _ => none) S.2 D.1 w
        src res
      obtain ⟨m2, hm2, hback2⟩ := hback.insert hlive htape hfuel hks hw.isZero
        (hF.map.mem_of_find htext)
        ⟨nulFree_pairStr (res.length : Nat) (src + 1 : Nat),
          length_pairStr_le (by omega) (by omega)⟩
      rw [Nat.cast_succ] at hm2 hback2
      rw [hcl] at hst
      subst hst
      refine ⟨⟨{ st.1 with
        omap := fun _ => none
        rands := n }, m2⟩, ?_, rfl, hback2⟩
      rw [if_pos rfl, hF.client, hrw]
      simp only [hm2, Option.bind_some]
      rfl

theorem step_follows {a : OnlineCall} (hdepth : depthOf maxSize ≤ 31)
    (ha : w = a.keyword) (hmem : Bid.ofStr w ∈ ks)
    (hnz : ∀ a v, Msg.update a v ∈ st.2.trace → v ≠ Buf.zero)
    (hst : step E st a.toCall = some st') :
    ∃ b', OmapClient.step E M fuel (b, st.2) a = some (b', st'.2) ∧
      Follows M maxSize ks st'.1 b' := by
  subst ha
  cases a with
  | update op w ind =>
    exact update_follows hlive htape hfuel hks hI hF hw hshort hdepth hmem hst
  | search w =>
    obtain ⟨⟨res, t⟩, hs, rfl⟩ := Option.map_eq_some_iff.mp hst
    obtain ⟨b', hb, hF'⟩ := search_follows hlive htape hfuel hks hI hF hw hshort hnz hs
    exact ⟨b', Option.map_eq_some_iff.mpr ⟨_, hb, rfl⟩, hF'⟩

end

/-! ## Runs -/

def keysOf (calls : List OnlineCall) : List (Bid 16) :=
  (calls.map OnlineCall.keyword).dedup.map Bid.ofStr

section

variable {E : Env} {M : Omap.Env 16} {df : Bool} {maxSize fuel : Nat} {calls : List OnlineCall}

theorem mem_keysOf {a : OnlineCall} (h : a ∈ calls) : Bid.ofStr a.keyword ∈ keysOf calls :=
  List.mem_map_of_mem (List.mem_dedup.mpr (List.mem_map_of_mem h))

/-- **Every run keeps up with `Client`.** -/
theorem follows_run (hlive : ∀ k, M.live k = true)
    (htape : ∀ i, Leaf (depthOf maxSize) (M.tape i)) (hfuel : maxHeightOfAVLTree maxSize < fuel)
    (hdepth : depthOf maxSize ≤ 31)
    (hks : (keysOf calls).length + 1 < Nat.fib (depthOf maxSize + 6))
    (hok : RunOk E df (calls.map OnlineCall.toCall))
    (hshort : ∀ w, callsOn w (calls.map OnlineCall.toCall) + 1 < 10 ^ 7) :
    ∃ t, run (OmapClient.step E M fuel) (OmapClient.init df maxSize, Server.init) calls = some t ∧
      ∃ c, runCalls E df false (calls.map OnlineCall.toCall) = some (c, t.2) ∧
        Inv E df (calls.map OnlineCall.toCall) false (c, t.2) ∧
        Follows M maxSize (keysOf calls) c t.1 := by
  refine run_inv (fun pre (t : OmapClient × Server) => ∃ c,
    runCalls E df false (pre.map OnlineCall.toCall) = some (c, t.2) ∧
      Inv E df (pre.map OnlineCall.toCall) false (c, t.2) ∧
      Follows M maxSize (keysOf calls) c t.1)
    ⟨Client.init df false, rfl, inv_init false, rfl, init_backs M maxSize _⟩ ?_
  intro pre a t hpre _ hI
  obtain ⟨c, hrun, hI, hF⟩ := hI
  have hp : pre.map OnlineCall.toCall ++ [a.toCall] <+: calls.map OnlineCall.toCall := by
    simpa using hpre.map OnlineCall.toCall
  have hpre' := (List.prefix_append _ _).trans hp
  have hmem : a ∈ calls := hpre.subset (by simp)
  have honline : a.toCall.isOnline = true := by cases a <;> rfl
  obtain ⟨st', hst, hI'⟩ := call_step hok hp (by rwa [if_neg Bool.false_ne_true]) hrun hI
  have hw : Keyword a.keyword :=
    hok.keyword a.toCall (List.mem_map_of_mem hmem) _ (by cases a <;> rfl)
  have hshort' := hshort a.keyword
  have hle := callsOn_mono (w := a.keyword) hpre'
  obtain ⟨b', hb, hF'⟩ := step_follows hlive htape hfuel hks hI hF hw (by omega) hdepth rfl
    (mem_keysOf hmem) (hok.nonzero _ _ hpre' hrun) hst
  refine ⟨(b', st'.2), hb, st'.1, ?_, ?_, hF'⟩
  · rw [List.map_append]
    exact run_snoc hrun hst
  · rw [List.map_append]
    exact hI'

end

/-- **Mitra search is exact over the OMAP.** As long as the keywords build no tree higher than
the position updates reach and the counters have seven digits, every run over the OMAP
succeeds, and a search after it returns the live ids in ascending order. -/
theorem omap_searches_exact (E : Env) (deleteFiles : Bool) (tape : Nat → Int) (order : HashOrder)
    (keyworsSize fuel : Nat) (calls : List OnlineCall)
    (htape : ∀ i, Leaf (depthOf keyworsSize) (tape i))
    (hfuel : maxHeightOfAVLTree keyworsSize < fuel) (hdepth : depthOf keyworsSize ≤ 31)
    (hkeys : (calls.map OnlineCall.keyword).dedup.length + 1 < Nat.fib (depthOf keyworsSize + 6))
    (hok : RunOk E deleteFiles (calls.map OnlineCall.toCall))
    (hshort : ∀ w, callsOn w (calls.map OnlineCall.toCall) + 1 < 10 ^ 7) (w : Str)
    (hw : Keyword w) :
    ∃ t res t', run (OmapClient.step E (plain tape order) fuel)
        (OmapClient.init deleteFiles keyworsSize, Server.init) calls = some t ∧
      t.1.search E (plain tape order) fuel t.2 w = some (res, t') ∧
      res.Pairwise (· < ·) ∧ ∀ ind, ind ∈ res ↔ Live (calls.map OnlineCall.toCall) w ind := by
  have hks : (keysOf calls).length + 1 < Nat.fib (depthOf keyworsSize + 6) := by
    rwa [keysOf, List.length_map]
  obtain ⟨t, ht, c, hrun, hI, hF⟩ := follows_run (M := plain tape order) (fun _ => rfl) htape hfuel
    hdepth hks hok hshort
  have hnz := hok.nonzero _ _ (List.prefix_refl _) hrun
  obtain ⟨res, st', hs, hres⟩ := hI.search_answers hw (hok.fits w) hnz
  obtain ⟨b', hb, -⟩ := search_follows (M := plain tape order) (fun _ => rfl) htape hfuel hks hI hF
    hw (hshort w) hnz hs
  exact ⟨t, res, (b', st'.2), ht, hb, hres⟩

def sampleOnline : List OnlineCall :=
  [.update .INS [97] (cint 5), .update .INS [98] (cint 5), .search [97],
    .update .DEL [97] (cint 5)]

theorem sampleOnline_nonzero :
    ∀ pre ∈ (sampleOnline.map OnlineCall.toCall).inits, (runCalls plainEnv true false pre).all
      (fun st => st.2.trace.all Msg.isNonzero) = true := by
  decide +kernel

theorem runOk_online : RunOk plainEnv true (sampleOnline.map OnlineCall.toCall) where
  keyword := by decide
  alternates := by
    intro w ind
    by_cases h : cint 5 = ind
    · subst h
      by_cases ha : [97] = w
      · subst ha
        decide
      · by_cases hb : [98] = w
        · subst hb
          decide
        · have : opsOf (sampleOnline.map OnlineCall.toCall) w (cint 5) = [] := by
            simp [opsOf, sampleOnline, OnlineCall.toCall, ha, hb]
          rw [this]
          intro i hi
          simp at hi
    · have : opsOf (sampleOnline.map OnlineCall.toCall) w ind = [] := by
        simp [opsOf, sampleOnline, OnlineCall.toCall, h]
      rw [this]
      intro i hi
      simp at hi
  fits w := lt_of_le_of_lt List.countP_le_length (by decide)
  injOn := Set.injOn_id _
  nonzero := nonzero_of_inits sampleOnline_nonzero

theorem omap_searches_exact_sample :
    ∃ t res t', run (OmapClient.step plainEnv (plain (fun i => i % 8) HashOrder.stored) 7)
        (OmapClient.init true 32, Server.init) sampleOnline = some t ∧
      t.1.search plainEnv (plain (fun i => i % 8) HashOrder.stored) 7 t.2 [98] = some (res, t') ∧
      res.Pairwise (· < ·) ∧
      ∀ ind, ind ∈ res ↔ Live (sampleOnline.map OnlineCall.toCall) [98] ind :=
  omap_searches_exact plainEnv true (fun i => i % 8) HashOrder.stored 32 7 sampleOnline
    (fun i => ⟨Int.emod_nonneg _ (by decide),
      show (i : Int) % 8 < 8 from Int.emod_lt_of_pos _ (by decide)⟩) (by decide) (by decide)
    (by decide) runOk_online
    (fun w => lt_of_le_of_lt (Nat.succ_le_succ List.countP_le_length) (by decide)) [98] (by decide)

end SmallClientSSE.Mitra
