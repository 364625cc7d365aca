import SmallClientSSE.Omap.Lacks
import SmallClientSSE.Qos.CountersAgree
import SmallClientSSE.Qos.SetupExact

/-!
# The QOS client without local storage

By default the counters, colours and positions are in OMAPs, which a setup phase may
have loaded. A search asks `incrementSrcCnt` for the counters, and a keyword that was
never inserted has none (`RemoteReached.search_unknown`).
-/

namespace SmallClientSSE.Qos

open Lib Omap Omap.ORAM

/-- What the OMAPs take from outside, and a bound on the depth of their recursions. -/
structure Omaps where
  cnt : Omap.Env 16
  state : Omap.Env 16
  del : Omap.Env 16
  sort : (E : Omap.Env 16) → PosSort (nodes E)
  fuel : Nat

/-- The client and its OMAPs. -/
structure RemoteClient where
  server : Server
  height : Nat
  Ocnt : OMAP 16
  Ostate : OMAP 16
  Odel : OMAP 16
  rands : Nat

def newOmap (maxSize : CInt) : Option (OMAP 16) :=
  if 4 ≤ maxSize.val then
    some (OMAP.init (depthOf maxSize.val.toNat) (maxHeightOfAVLTree maxSize.val.toNat))
  else none

def RemoteClient.init (N keywordSize : CInt) : Option RemoteClient := do
  let Ocnt ← newOmap keywordSize
  let Ostate ← newOmap N
  let Odel ← newOmap N
  pure ⟨Server.init N, heightOf N, Ocnt, Ostate, Odel, 0⟩

section

variable (E : Env) (O : Omaps)

/-- `Client::endSetup`, with the pairs of the setup maps in the order of their keys. -/
def RemoteClient.endSetup (setupOcnt setupOdel setupOstate : List (Bid 16 × Str))
    (c : RemoteClient) : Option RemoteClient := do
  let Ocnt ← loadOmap O.cnt (O.sort O.cnt) O.fuel setupOcnt c.Ocnt
  let Odel ← loadOmap O.del (O.sort O.del) O.fuel setupOdel c.Odel
  let Ostate ← loadOmap O.state (O.sort O.state) O.fuel setupOstate c.Ostate
  pure { c with
    Ocnt := Ocnt
    Odel := Odel
    Ostate := Ostate }

/-- `Client::insert`. -/
def RemoteClient.insert (c : RemoteClient) (keyword : Str) (id : CInt) : Option RemoteClient := do
  let key ← getBid keyword
  let (result, Ocnt) ← OMAP.incrementAwCnt O.cnt O.fuel key c.Ocnt
  let (src_cnt, a_w) ← nextCounters result
  let newKey ← getBid (mapKey keyword id.val)
  let Odel ← OMAP.insert O.del O.fuel newKey (intStr a_w) c.Odel
  let nodeIndex ← getNodeOnPath c.height a_w c.height
  pure { c with
    Ocnt := Ocnt
    Odel := Odel
    server := c.server.insert (address E IKey keyword src_cnt nodeIndex) (cipherOf E keyword id) }

def findColors (keyword : Str) : OMAP 16 → List Int → Option (List Int × OMAP 16)
  | Ostate, [] => some ([], Ostate)
  | Ostate, index :: nodes => do
    let mapKey ← getBid (mapKey keyword index)
    let (colorStr, Ostate) ← OMAP.find O.state O.fuel mapKey Ostate
    let color ← stoi (if colorStr = [] then [48] else colorStr)
    let (colors, Ostate) ← findColors keyword Ostate nodes
    pure (color.val :: colors, Ostate)

/-- `Client::remove`. -/
def RemoteClient.remove (c : RemoteClient) (keyword : Str) (id : CInt) : Option RemoteClient := do
  let key ← getBid keyword
  let (result, Ocnt) ← OMAP.find O.cnt O.fuel key c.Ocnt
  let src_cnt ← (splitData result dash)[0]? >>= stoi
  let newKey ← getBid (mapKey keyword id.val)
  let (posStr, Odel) ← OMAP.find O.del O.fuel newKey c.Odel
  let pos ← stoi posStr
  let treeNodes ← treeNodes c.height pos.val
  let (nodesColor, Ostate) ← findColors O keyword c.Ostate treeNodes
  let (siblingsColor, Ostate) ← findColors O keyword Ostate (treeNodes.filterMap sibling)
  let finalNodesColor := 2 :: finalColors 2 siblingsColor
  let c := { c with
    Ocnt := Ocnt
    Odel := Odel
    Ostate := Ostate }
  match changed (treeNodes.zip (nodesColor.zip finalNodesColor)) with
  | some node =>
    let mapKey ← getBid (mapKey keyword node)
    let Ostate ← OMAP.insert O.state O.fuel mapKey (intStr 2) c.Ostate
    pure { c with
      Ostate := Ostate
      server := c.server.insertInDstate (address E DKey keyword src_cnt.val node) (markValue E) }
  | none =>
    pure { c with
      server := c.server.insertInDstate (E.dummy c.rands).1 (E.dummy c.rands).2
      rands := c.rands + 1 }

/-- `Client::search`. -/
def RemoteClient.search (c : RemoteClient) (keyword : Str) :
    Option (List CInt × RemoteClient) := do
  let key ← getBid keyword
  let (result, Ocnt) ← OMAP.incrementSrcCnt O.cnt O.fuel key c.Ocnt
  let (src_cnt, a_w) ← parsePair result
  let (finalRes, _, server) ← searchServer E c.server keyword src_cnt a_w
  pure (finalRes, { c with
    Ocnt := Ocnt
    server := server })

def RemoteClient.step (c : RemoteClient) : Call → Option RemoteClient
  | .insert keyword id => c.insert E O keyword id
  | .remove keyword id => c.remove E O keyword id
  | .search keyword => (c.search E O keyword).map Prod.snd

/-- The pairs of a map, in the order of their keys. -/
def Lists (l : List (Bid 16 × Str)) (m : FMap 16) : Prop := Ascending l ∧ ∀ k, valueOf k l = m k

/-- The client before its online calls: fresh, or loaded after a setup phase. -/
inductive Opened (N keywordSize : CInt) : List SetupCall → RemoteClient → Prop where
  | fresh {c : RemoteClient} : RemoteClient.init N keywordSize = some c → Opened N keywordSize [] c
  | loaded {updates : List SetupCall} {c₀ : OmapClient} {st : OmapClient × List (Str × Int)}
      {setupOcnt setupOdel setupOstate : List (Bid 16 × Str)} {c₁ c : RemoteClient} :
      OmapClient.init N = some c₀ → run (setupStep E) (c₀, []) updates = some st →
      Lists setupOcnt st.1.setupOcnt → Lists setupOdel st.1.setupOdel →
      Lists setupOstate st.1.setupOstate → RemoteClient.init N keywordSize = some c₁ →
      RemoteClient.endSetup O setupOcnt setupOdel setupOstate { c₁ with
        server := st.1.server
        rands := st.1.rands } = some c → Opened N keywordSize updates c

end

/-- A keyword that some call inserts. -/
def Inserted (updates : List SetupCall) (calls : List Call) (keyword : Str) : Prop :=
  ∃ id, .insert keyword id ∈ updates ∨ .insert keyword id ∈ calls

/-- A client without local storage after a setup phase and online calls. -/
structure RemoteReached (E : Env) (O : Omaps) (N keywordSize : CInt) (updates : List SetupCall)
    (calls : List Call) (c : RemoteClient) : Prop where
  live : ∀ k, O.cnt.live k = true
  tape : ∀ i, Leaf (depthOf keywordSize.val.toNat) (O.cnt.tape i)
  keyword : ∀ v, Inserted updates calls v → NulFree v ∧ v ≠ []
  run : ∃ c₀, Opened E O N keywordSize updates c₀ ∧ run (RemoteClient.step E O) c₀ calls = some c

section

variable {E : Env} {O : Omaps} {N keywordSize : CInt} {updates : List SetupCall} {calls : List Call}
  {c₀ c c' : RemoteClient} {w v : Str} {id : CInt}

/-! ## The setup phase -/

theorem setupOcnt_remove {d d' : OmapClient} {marked : Option Int} {k : Bid 16}
    (hr : d.remove E true v id = some (d', marked)) (hk : d.setupOcnt k = none) :
    d'.setupOcnt k = none := by
  simp only [OmapClient.remove, Option.bind_eq_bind, Option.bind_eq_some_iff, if_true] at hr
  obtain ⟨key, -, src, hsrc, _, -, pos, -, nodes, -, ⟨colors, d1⟩, h1, ⟨sibs, d2⟩, h2, hr⟩ := hr
  have hne : k ≠ key := by
    rintro rfl
    obtain ⟨text, htext, -⟩ := hsrc
    rw [FMap.find, hk] at htext
    cases htext
  obtain ⟨-, ⟨m1, e1⟩, -⟩ := readColors_spec h1
  obtain ⟨-, ⟨m2, e2⟩, -⟩ := readColors_spec h2
  have hd : d2.setupOcnt k = none := by
    rw [show d2 = _ from e2, show d1 = _ from e1]
    exact (FMap.insert_of_ne _ hne).trans hk
  split at hr
  · obtain ⟨mk, -, hr⟩ := Option.bind_eq_some_iff.mp hr
    obtain ⟨rfl, -⟩ := Prod.mk.inj (Option.some.inj hr)
    exact hd
  · obtain ⟨rfl, -⟩ := Prod.mk.inj (Option.some.inj hr)
    exact hd

/-- The counters of the setup phase are those of keywords inserted. -/
theorem setupOcnt_inserted {d : OmapClient} {st : OmapClient × List (Str × Int)} {k : Bid 16}
    (hd : OmapClient.init N = some d) (hr : run (setupStep E) (d, []) updates = some st)
    (hk : st.1.setupOcnt k ≠ none) :
    ∃ v id, .insert v id ∈ updates ∧ v.length ≤ 16 ∧ k = Bid.ofStr v := by
  have key := run_keeps (fun pre st => st.1.setupOcnt k ≠ none →
      ∃ v id, .insert v id ∈ pre ∧ v.length ≤ 16 ∧ k = Bid.ofStr v) (fun h => ?_) hr
    fun pre a st st' hpre hI ha h => ?_
  · exact key hk
  · unfold OmapClient.init at hd
    split at hd
    · obtain rfl := Option.some.inj hd
      exact absurd rfl h
    · cases hd
  have hold : st.1.setupOcnt k ≠ none →
      ∃ v id, .insert v id ∈ pre ++ [a] ∧ v.length ≤ 16 ∧ k = Bid.ofStr v := fun h => by
    obtain ⟨v, id, hmem, hv⟩ := hI h
    exact ⟨v, id, List.mem_append_left _ hmem, hv⟩
  cases a with
  | insert v id =>
    obtain ⟨d', hd', rfl⟩ := Option.map_eq_some_iff.mp ha
    simp only [OmapClient.insert, Option.bind_eq_bind, Option.bind_eq_some_iff] at hd'
    obtain ⟨key, hkey, ⟨s, a⟩, -, newKey, -, node, -, hd'⟩ := hd'
    obtain ⟨hv, rfl⟩ := getBid_some hkey
    obtain rfl := Option.some.inj hd'
    by_cases hkv : k = Bid.ofStr v
    · exact ⟨v, id, by simp, hv, hkv⟩
    · exact hold fun hnone => h ((FMap.insert_of_ne _ hkv).trans hnone)
  | remove v id =>
    obtain ⟨⟨d', marked⟩, hd', rfl⟩ := Option.map_eq_some_iff.mp ha
    exact hold fun hnone => h (setupOcnt_remove hd' hnone)

/-! ## The online calls -/

theorem lacks_insertEach {D : Omap.Env 16} {fuel : Nat} {k : Bid 16} {pairs : List (Bid 16 × Str)}
    {m m' : OMAP 16} (h : Lacks k m.oram) (hk : k.isZero = false) (hpairs : ∀ p ∈ pairs, p.1 ≠ k)
    (hr : OMAP.insertEach D fuel pairs m = some m') : Lacks k m'.oram :=
  run_keeps (fun _ m => Lacks k m.oram) h hr fun _ p _ _ hpre h hu =>
    h.insert hk (hpairs p (hpre.subset (by simp))) hu

theorem init_Ocnt (h : RemoteClient.init N keywordSize = some c) :
    c.Ocnt = OMAP.init (depthOf keywordSize.val.toNat)
      (maxHeightOfAVLTree keywordSize.val.toNat) := by
  simp only [RemoteClient.init, newOmap, Option.bind_eq_bind, Option.bind_eq_some_iff,
    Option.ite_none_right_eq_some, Option.some.injEq, Option.pure_def] at h
  obtain ⟨_, ⟨-, rfl⟩, _, -, _, -, rfl⟩ := h
  rfl

/-- **No keyword but those inserted** is in `Ocnt` before the online calls. -/
theorem Opened.lacks (h : Opened E O N keywordSize updates c) (hlive : ∀ k, O.cnt.live k = true)
    (htape : ∀ i, Leaf (depthOf keywordSize.val.toNat) (O.cnt.tape i))
    (hkeys : ∀ v id, .insert v id ∈ updates → NulFree v ∧ v ≠ []) (hw : NulFree w) (hne : w ≠ [])
    (hlen : w.length ≤ 16) (hnot : ∀ id, .insert w id ∉ updates) :
    Lacks (Bid.ofStr w) c.Ocnt.oram := by
  have hk : (Bid.ofStr w : Bid 16).isZero = false := isZero_ofStr hw hne
  cases h with
  | fresh h =>
    rw [init_Ocnt h]
    exact lacks_init hk _ _
  | @loaded _ d st cnt del state c₁ _ hd hrun hcnt _ _ hc₁ hload =>
    simp only [RemoteClient.endSetup, loadOmap, Option.bind_eq_bind, Option.bind_eq_some_iff,
      Option.pure_def, Option.some.injEq] at hload
    obtain ⟨Ocnt, ⟨m, hm, hins⟩, Odel, -, Ostate, -, rfl⟩ := hload
    have hfrom : ∀ p ∈ cnt, ∃ v id, .insert v id ∈ updates ∧ v.length ≤ 16 ∧ p.1 = Bid.ofStr v :=
      fun p hp => setupOcnt_inserted hd hrun (by
        rw [← hcnt.2, hcnt.1.valueOf_of_mem hp]
        simp)
    obtain ⟨V, t, m', hm', hst, hpairs, -⟩ := OMAP.setupInsert_spec (O.sort O.cnt)
      (depthOf keywordSize.val.toNat) (maxHeightOfAVLTree keywordSize.val.toNat) hcnt.1
      (fun p hp => by
        obtain ⟨v, id, hv, -, hp⟩ := hfrom p hp
        obtain ⟨hnul, hvne⟩ := hkeys v id hv
        simp [real, hlive, hp, isZero_ofStr hnul hvne]) htape
    replace hm : OMAP.setupInsert O.cnt (O.sort O.cnt) cnt c₁.Ocnt = some m := hm
    rw [init_Ocnt hc₁, hm'] at hm
    obtain rfl := Option.some.inj hm
    refine lacks_insertEach (hst.lacks (by simp [real, hlive, hk]) fun hmem => ?_) hk
      (fun p hp => ?_) hins
    · rw [keys, hpairs, stored, List.map_map] at hmem
      obtain ⟨p, hp, hpw⟩ := List.mem_map.mp hmem
      obtain ⟨v, id, hv, hvlen, hpv⟩ := hfrom p hp
      obtain rfl := Bid.ofStr_inj hw (hkeys v id hv).1 hlen hvlen (hpw.symm.trans hpv)
      exact hnot id hv
    · rw [List.eq_of_mem_replicate hp]
      exact (Bid.ofStr_ne_one hw hne).symm

/-- **A call** that inserts another keyword, if any. -/
theorem RemoteClient.step_lacks {a : Call} (h : Lacks (Bid.ofStr w) c.Ocnt.oram) (hw : NulFree w)
    (hne : w ≠ []) (hlen : w.length ≤ 16) (hins : ∀ v id, a = .insert v id → NulFree v ∧ v ≠ w)
    (ha : c.step E O a = some c') : Lacks (Bid.ofStr w) c'.Ocnt.oram := by
  have hk : (Bid.ofStr w : Bid 16).isZero = false := isZero_ofStr hw hne
  cases a with
  | insert v id =>
    simp only [RemoteClient.step, RemoteClient.insert, Option.bind_eq_bind, Option.bind_eq_some_iff,
      Option.pure_def, Option.some.injEq] at ha
    obtain ⟨key, hkey, ⟨result, Ocnt⟩, hcnt, _, -, _, -, _, -, _, -, rfl⟩ := ha
    obtain ⟨hv, rfl⟩ := getBid_some hkey
    obtain ⟨hnul, hvw⟩ := hins v id rfl
    exact h.incrementAwCnt hk (fun e => hvw (Bid.ofStr_inj hnul hw hv hlen e)) hcnt
  | remove v id =>
    simp only [RemoteClient.step, RemoteClient.remove, Option.bind_eq_bind,
      Option.bind_eq_some_iff] at ha
    obtain ⟨key, -, ⟨result, Ocnt⟩, hcnt, _, -, _, -, _, -, _, -, _, -, _, -, _, -, ha⟩ := ha
    have h' := h.find hk hcnt
    split at ha
    · simp only [Option.bind_eq_some_iff, Option.pure_def, Option.some.injEq] at ha
      obtain ⟨_, -, _, -, rfl⟩ := ha
      exact h'
    · obtain rfl := Option.some.inj ha
      exact h'
  | search v =>
    obtain ⟨⟨finalRes, c''⟩, hs, rfl⟩ := Option.map_eq_some_iff.mp ha
    simp only [RemoteClient.search, Option.bind_eq_bind, Option.bind_eq_some_iff, Option.pure_def,
      Option.some.injEq, Prod.mk.injEq] at hs
    obtain ⟨key, -, ⟨result, Ocnt⟩, hcnt, _, -, _, -, -, rfl⟩ := hs
    exact (h.incrementSrcCnt hk hcnt).1

/-- **A search of an absent keyword** gets an empty text, and fails. -/
theorem RemoteReached.search_unknown (h : RemoteReached E O N keywordSize updates calls c)
    (hw : NulFree w) (hne : w ≠ []) (hnot : ¬ Inserted updates calls w) :
    (∀ key res m, getBid w = some key →
      OMAP.incrementSrcCnt O.cnt O.fuel key c.Ocnt = some (res, m) → res = []) ∧
      c.search E O w = none := by
  have htext : ∀ key res m, getBid w = some key →
      OMAP.incrementSrcCnt O.cnt O.fuel key c.Ocnt = some (res, m) → res = [] := by
    intro key res m hkey hm
    obtain ⟨hlen, rfl⟩ := getBid_some hkey
    obtain ⟨c₀, hopened, hrun⟩ := h.run
    have hlacks := run_keeps (fun _ c => Lacks (Bid.ofStr w) c.Ocnt.oram)
      (hopened.lacks h.live h.tape (fun v id hv => h.keyword v ⟨id, .inl hv⟩) hw hne hlen
        fun id hv => hnot ⟨id, .inl hv⟩) hrun
      fun pre a c c' hpre hl ha => RemoteClient.step_lacks hl hw hne hlen (fun v id e => by
        have hmem : .insert v id ∈ calls := hpre.subset (by simp [e])
        refine ⟨(h.keyword v ⟨id, .inr hmem⟩).1, ?_⟩
        rintro rfl
        exact hnot ⟨id, .inr hmem⟩) ha
    exact (hlacks.incrementSrcCnt (isZero_ofStr hw hne) hm).2 rfl
  refine ⟨htext, ?_⟩
  cases hs : c.search E O w with
  | none => rfl
  | some r =>
    obtain ⟨key, hkey, hs⟩ := Option.bind_eq_some_iff.mp hs
    obtain ⟨⟨res, m⟩, hm, hs⟩ := Option.bind_eq_some_iff.mp hs
    obtain ⟨_, hparse, -⟩ := Option.bind_eq_some_iff.mp hs
    rw [htext key res m hkey hm] at hparse
    cases hparse

end

end SmallClientSSE.Qos
