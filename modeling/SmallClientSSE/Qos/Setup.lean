import SmallClientSSE.Omap.FiniteMap
import SmallClientSSE.Qos.Steps

/-!
# The setup phase of the QOS client

With `setup` the counters, positions and colours of a keyword go into the maps
`setupOcnt`, `setupOdel` and `setupOstate`, which `endSetup` loads into the OMAPs.
They are read with `operator[]`, which stores an empty text under a key that is
missing. A removal reads the colours of every node above its leaf and of their
siblings (`readNodes`), so all of them are loaded, and it marks at most one. Without
`setup` a removal stores under marked nodes only.
-/

namespace SmallClientSSE.Qos

open Lib

/-- The client with its OMAPs, read as finite maps, and the maps of the setup phase. -/
structure OmapClient where
  server : Server
  height : Nat
  Ocnt : FMap 16
  Ostate : FMap 16
  Odel : FMap 16
  setupOcnt : FMap 16
  setupOstate : FMap 16
  setupOdel : FMap 16
  rands : Nat

/-- The constructor. `OMAP(N)` has a depth of `log2(N / 4)`, and throws when `N / 4` is `0`. -/
def OmapClient.init (N : CInt) : Option OmapClient :=
  if 4 ≤ N.val then
    some ⟨Server.init N, heightOf N, fun _ => none, fun _ => none, fun _ => none, fun _ => none,
      fun _ => none, fun _ => none, 0⟩
  else none

/-- `getBid`; a longer text overruns the buffer. -/
def getBid (input : Str) : Option (Bid 16) :=
  if input.length ≤ 16 then some (Bid.ofStr input) else none

/-- `map<Bid, string>::operator[]`: a missing key is stored with an empty text. -/
def touch (m : FMap 16) (key : Bid 16) : FMap 16 := m.insert key (m.find key)

section

variable (E : Env)

/-- `Client::insert` with `setup`. -/
def OmapClient.insert (c : OmapClient) (keyword : Str) (id : CInt) : Option OmapClient := do
  let key ← getBid keyword
  let (src_cnt, a_w) ← nextCounters (c.setupOcnt.find key)
  let newKey ← getBid (mapKey keyword id.val)
  let nodeIndex ← getNodeOnPath c.height a_w c.height
  pure { c with
    setupOcnt := c.setupOcnt.insert key (pairStr src_cnt a_w)
    setupOdel := c.setupOdel.insert newKey (intStr a_w)
    server := c.server.insert (address E IKey keyword src_cnt nodeIndex) (cipherOf E keyword id) }

/-- The colour map in use. -/
def stateOf (setup : Bool) (c : OmapClient) : FMap 16 := if setup then c.setupOstate else c.Ostate

/-- Read the colours of some nodes. -/
def readColors (setup : Bool) (keyword : Str) :
    OmapClient → List Int → Option (List Int × OmapClient)
  | c, [] => some ([], c)
  | c, index :: nodes => do
    let mapKey ← getBid (mapKey keyword index)
    let colorStr := (stateOf setup c).find mapKey
    let c := if setup then { c with setupOstate := touch c.setupOstate mapKey } else c
    let color ← stoi (if colorStr = [] then [48] else colorStr)
    let (colors, c) ← readColors setup keyword c nodes
    pure (color.val :: colors, c)

def OmapClient.remove (setup : Bool) (c : OmapClient) (keyword : Str) (id : CInt) :
    Option (OmapClient × Option Int) := do
  let key ← getBid keyword
  let result := if setup then c.setupOcnt.find key else c.Ocnt.find key
  let c := if setup then { c with setupOcnt := touch c.setupOcnt key } else c
  let src_cnt ← (splitData result dash)[0]? >>= stoi
  let newKey ← getBid (mapKey keyword id.val)
  let posStr := if setup then c.setupOdel.find newKey else c.Odel.find newKey
  let c := if setup then { c with setupOdel := touch c.setupOdel newKey } else c
  let pos ← stoi posStr
  let treeNodes ← treeNodes c.height pos.val
  let (nodesColor, c) ← readColors setup keyword c treeNodes
  let (siblingsColor, c) ← readColors setup keyword c (treeNodes.filterMap sibling)
  let finalNodesColor := 2 :: finalColors 2 siblingsColor
  match changed (treeNodes.zip (nodesColor.zip finalNodesColor)) with
  | some node =>
    let mapKey ← getBid (mapKey keyword node)
    let c := if setup then { c with setupOstate := c.setupOstate.insert mapKey (intStr 2) }
      else { c with Ostate := c.Ostate.insert mapKey (intStr 2) }
    pure ({ c with
      server := c.server.insertInDstate (address E DKey keyword src_cnt.val node) (markValue E) },
      some node)
  | none =>
    pure ({ c with
      server := c.server.insertInDstate (E.dummy c.rands).1 (E.dummy c.rands).2
      rands := c.rands + 1 }, none)

end

/-- The pair `(Bid(1), "TEST")`. -/
def testPair : Bid 16 × Str := (Bid.ofValue 1, [84, 69, 83, 84])

/-- The 1000 insertions of the test pair that end the setup. -/
def testInserts (m : FMap 16) : FMap 16 :=
  (List.range 1000).foldl (fun m _ => m.insert testPair.1 testPair.2) m

/-- `Client::endSetup`. -/
def OmapClient.endSetup (c : OmapClient) : OmapClient := { c with
  Ocnt := testInserts (c.Ocnt.setupInsert c.setupOcnt)
  Odel := testInserts (c.Odel.setupInsert c.setupOdel)
  Ostate := testInserts (c.Ostate.setupInsert c.setupOstate) }

/-! ## Runs -/

inductive SetupCall where
  | insert (keyword : Str) (id : CInt)
  | remove (keyword : Str) (id : CInt)
  deriving DecidableEq

def SetupCall.keyword : SetupCall → Str
  | .insert w _ => w
  | .remove w _ => w

def SetupCall.id : SetupCall → CInt
  | .insert _ z => z
  | .remove _ z => z

def SetupCall.isRemove : SetupCall → Bool
  | .insert _ _ => false
  | .remove _ _ => true

/-- One update of the setup phase; the nodes marked are listed. -/
def setupStep (E : Env) (st : OmapClient × List (Str × Int)) :
    SetupCall → Option (OmapClient × List (Str × Int))
  | .insert w id => (st.1.insert E w id).map fun c => (c, st.2)
  | .remove w id => (st.1.remove E true w id).map fun r =>
      (r.1, st.2 ++ (r.2.map fun node => (w, node)).toList)

def onlineStep (E : Env) (st : OmapClient × List (Str × Int)) (pair : Str × CInt) :
    Option (OmapClient × List (Str × Int)) :=
  (st.1.remove E false pair.1 pair.2).map fun r =>
    (r.1, st.2 ++ (r.2.map fun node => (pair.1, node)).toList)

/-- The positions of a history: the next one for each counter, those of the live pairs, those
stored under the texts `keyword-id`, and those removed. -/
structure Places where
  next : Bid 16 → Nat
  place : Str → CInt → Option Nat
  stored : Str → Option Nat
  removed : List (Str × Nat)

def Places.init : Places := ⟨fun _ => 0, fun _ _ => none, fun _ => none, []⟩

/-- The effect of an update on the positions. -/
def Places.step (P : Places) : SetupCall → Places
  | .insert w z => {
      next := Function.update P.next (Bid.ofStr w) (P.next (Bid.ofStr w) + 1)
      place := fun v y => if v = w ∧ y = z then some (P.next (Bid.ofStr w)) else P.place v y
      stored := Function.update P.stored (mapKey w z.val) (some (P.next (Bid.ofStr w)))
      removed := P.removed }
  | .remove w z => {
      next := P.next
      place := fun v y => if v = w ∧ y = z then none else P.place v y
      stored := P.stored
      removed := P.removed ++ ((P.stored (mapKey w z.val)).map fun p => (w, p)).toList }

/-- The positions after some updates. -/
def places (calls : List SetupCall) : Places := calls.foldl Places.step Places.init

/-- Insertions are of pairs that are not live, removals of live ones. -/
def LiveOk (pre : List SetupCall) : SetupCall → Prop
  | .insert w z => (places pre).place w z = none
  | .remove w z => ((places pre).place w z).isSome

instance (pre : List SetupCall) (a : SetupCall) : Decidable (LiveOk pre a) := by
  cases a <;> exact inferInstanceAs (Decidable (_ = _))

/-- Different pairs have different texts `keyword-id`. -/
def DistinctPairs (calls : List SetupCall) : Prop :=
  ∀ a ∈ calls, ∀ b ∈ calls, mapKey a.keyword a.id.val = mapKey b.keyword b.id.val →
    a.keyword = b.keyword ∧ a.id = b.id

/-- The nodes whose colours the removal of a position reads. -/
def readNodes (height : Nat) (pos : Int) : List Int :=
  ((treeNodes height pos).getD []) ++ ((treeNodes height pos).getD []).filterMap sibling

/-! ## Nodes -/

section

variable {h : Nat} {pos : Int} {nodes : List Int}

theorem getNodeOnPath_some {i : Nat} {x : Int}
    (hx : getNodeOnPath h pos ((h : Int) - (i : Int)) = some x) :
    x = parent^[i] (pos + ((2 : Int) ^ h - 1).tdiv 2) := by
  simp only [getNodeOnPath, int, Option.bind_eq_bind, Option.bind_eq_some_iff] at hx
  obtain ⟨full, hfull, leaf, hleaf, hx⟩ := hx
  split at hfull
  · obtain rfl := Option.some.inj hfull
    split at hleaf
    · obtain rfl := Option.some.inj hleaf
      rw [show ((h : Int) - ((h : Int) - (i : Int))).toNat = i by omega] at hx
      exact (Option.some.inj hx).symm
    · cases hleaf
  · cases hfull

/-- The nodes of a path are the ancestors of its leaf. -/
theorem treeNodes_form (hn : treeNodes h pos = some nodes) :
    nodes = (List.range h).map fun i => parent^[i] (pos + ((2 : Int) ^ h - 1).tdiv 2) := by
  have key : ∀ (l : List Nat) (ns : List Int),
      l.mapM (fun i : Nat => getNodeOnPath h pos ((h : Int) - (i : Int))) = some ns →
        ns = l.map fun i => parent^[i] (pos + ((2 : Int) ^ h - 1).tdiv 2) := by
    intro l
    induction l with
    | nil => exact fun ns e => (Option.some.inj e).symm
    | cons i l ih =>
      intro ns e
      rw [List.mapM_cons] at e
      simp only [Option.bind_eq_bind, Option.bind_eq_some_iff] at e
      obtain ⟨x, hx, xs, hxs, e⟩ := e
      obtain rfl := Option.some.inj e
      rw [List.map_cons, ← getNodeOnPath_some hx, ← ih xs hxs]
  exact key _ _ hn

theorem half_full (h : Nat) : ((2 : Int) ^ (h + 1) - 1).tdiv 2 = 2 ^ h - 1 := by
  have hpos : (0 : Int) < 2 ^ h := by positivity
  rw [Int.tdiv_eq_ediv_of_nonneg (by rw [pow_succ]; omega), pow_succ]
  omega

theorem parent_ge {m : Nat} {x : Int} (hx : (2 : Int) ^ (m + 1) - 1 ≤ x) :
    (2 : Int) ^ m - 1 ≤ parent x := by
  have hpos : (0 : Int) < 2 ^ m := by positivity
  rw [pow_succ] at hx
  rw [parent, Int.tdiv_eq_ediv_of_nonneg (by omega)]
  omega

theorem parent_iterate_ge {x : Int} : ∀ {m i : Nat}, i ≤ m → (2 : Int) ^ m - 1 ≤ x →
    (2 : Int) ^ (m - i) - 1 ≤ parent^[i] x := by
  intro m i
  induction i with
  | zero => exact fun _ hx => hx
  | succ i ih =>
    intro hi hx
    rw [Function.iterate_succ_apply']
    refine parent_ge ?_
    rw [show m - (i + 1) + 1 = m - i by omega]
    exact ih (by omega) hx

theorem mem_readNodes {x : Int} (hn : treeNodes h pos = some nodes) :
    x ∈ readNodes h pos ↔ x ∈ nodes ∨ ∃ i ∈ nodes, sibling i = some x := by
  simp [readNodes, hn]

theorem node_nonneg (hpos : 0 ≤ pos) (hn : treeNodes (h + 1) pos = some nodes) {x : Int}
    (hx : x ∈ nodes) : 0 ≤ x := by
  rw [treeNodes_form hn, List.mem_map] at hx
  obtain ⟨i, hi, rfl⟩ := hx
  rw [List.mem_range] at hi
  have hge := parent_iterate_ge (x := pos + ((2 : Int) ^ (h + 1) - 1).tdiv 2)
    (show i ≤ h by omega) (by rw [half_full]; omega)
  have : (0 : Int) < 2 ^ (h - i) := by positivity
  omega

theorem readNodes_nonneg (hpos : 0 ≤ pos) {x : Int} (hx : x ∈ readNodes (h + 1) pos) : 0 ≤ x := by
  cases hn : treeNodes (h + 1) pos with
  | none => simp [readNodes, hn] at hx
  | some nodes =>
    rcases (mem_readNodes hn).mp hx with hx | ⟨i, hi, hs⟩
    · exact node_nonneg hpos hn hx
    · have := node_nonneg hpos hn hi
      unfold sibling at hs
      split at hs
      · obtain rfl := Option.some.inj hs
        omega
      · split at hs
        · obtain rfl := Option.some.inj hs
          omega
        · cases hs

/-- The node that changes its colour is on the path. -/
theorem mem_of_changed {l : List (Int × Int × Int)} {x : Int} (h : changed l = some x) :
    x ∈ l.map Prod.fst := by
  obtain ⟨e, he, rfl⟩ := Option.map_eq_some_iff.mp h
  exact List.mem_map_of_mem (List.mem_reverse.mp (List.mem_of_find?_eq_some he))

end

/-! ## Keys -/

section

variable {w v : Str} {x y : Int}

theorem getBid_some {a : Str} {k : Bid 16} (h : getBid a = some k) :
    a.length ≤ 16 ∧ k = Bid.ofStr a := by
  unfold getBid at h
  split at h
  · exact ⟨‹_›, (Option.some.inj h).symm⟩
  · cases h

/-- A text that does not end with a zero is read off its key. -/
theorem ofStr_inj_of_last {n : Nat} {a b : Str} (ha : a.getLast? ≠ some 0)
    (hb : b.getLast? ≠ some 0) (hal : a.length ≤ n) (hbl : b.length ≤ n)
    (h : (Bid.ofStr a : Bid n) = Bid.ofStr b) : a = b := by
  have hat : ∀ i, i < n → a.getD i 0 = b.getD i 0 := fun i hi => by
    have : ((Bid.ofStr a : Bid n).id).at' i = ((Bid.ofStr b : Bid n).id).at' i := by rw [h]
    simpa only [Bid.ofStr, Buf.copyStr_zero_at _ _ hi] using this
  have hle : ∀ {s t : Str}, (∀ i, i < n → s.getD i 0 = t.getD i 0) → t.getLast? ≠ some 0 →
      t.length ≤ n → t.length ≤ s.length := fun {s t} hst ht htl => by
    by_contra hlt
    have hlast : t.getLast? = t[t.length - 1]? := List.getLast?_eq_getElem?
    have heq := hst (t.length - 1) (by omega)
    rw [List.getD_eq_default _ _ (by omega), List.getD_eq_getElem _ _ (by omega)] at heq
    rw [hlast, List.getElem?_eq_getElem (by omega), ← heq] at ht
    exact ht rfl
  have hlen : a.length = b.length :=
    le_antisymm (hle (fun i hi => (hat i hi).symm) ha hal) (hle hat hb hbl)
  refine List.ext_getElem hlen fun i h1 h2 => ?_
  have := hat i (by omega)
  rwa [List.getD_eq_getElem _ _ h1, List.getD_eq_getElem _ _ h2] at this

theorem getLast_mapKey (w : Str) (x : Int) : (mapKey w x).getLast? ≠ some 0 := by
  intro h
  rw [mapKey, List.getLast?_append_of_ne_nil _ (List.cons_ne_nil _ _), List.getLast?_cons,
    Option.some_inj] at h
  have hc := List.getLast?_eq_some_getLast (intStr_ne_nil x)
  rw [hc, Option.getD_some] at h
  exact nulFree_intStr x (h ▸ List.mem_of_getLast? hc)

theorem pairKey_inj {z z' : Int} (hw : (mapKey w z).length ≤ 16) (hv : (mapKey v z').length ≤ 16)
    (h : (Bid.ofStr (mapKey w z) : Bid 16) = Bid.ofStr (mapKey v z')) :
    mapKey w z = mapKey v z' :=
  ofStr_inj_of_last (getLast_mapKey w z) (getLast_mapKey v z') hw hv h

theorem nodeKey_inj (hx : 0 ≤ x) (hy : 0 ≤ y) (hw : (mapKey w x).length ≤ 16)
    (hv : (mapKey v y).length ≤ 16)
    (h : (Bid.ofStr (mapKey w x) : Bid 16) = Bid.ofStr (mapKey v y)) : w = v ∧ x = y :=
  mapKey_inj hx hy (pairKey_inj hw hv h)

end

/-! ## Positions -/

theorem places_snoc (pre : List SetupCall) (a : SetupCall) :
    places (pre ++ [a]) = (places pre).step a := by
  simp [places, List.foldl_append]

/-- A live pair was inserted, and a position is stored under its text. -/
theorem live_stored {w : Str} {z : CInt} (pre : List SetupCall)
    (h : ((places pre).place w z).isSome) :
    .insert w z ∈ pre ∧ ((places pre).stored (mapKey w z.val)).isSome := by
  induction pre using List.reverseRecOn with
  | nil => cases h
  | append_singleton pre a ih =>
    rw [places_snoc] at h ⊢
    rw [List.mem_append, List.mem_singleton]
    cases a with
    | insert v y =>
      simp only [Places.step, Function.update_apply] at h ⊢
      split at h
      · next hvy =>
        obtain ⟨rfl, rfl⟩ := hvy
        exact ⟨.inr rfl, by simp⟩
      · refine ⟨.inl (ih h).1, ?_⟩
        split
        · rfl
        · exact (ih h).2
    | remove v y =>
      simp only [Places.step] at h ⊢
      split at h
      · cases h
      · exact ⟨.inl (ih h).1, (ih h).2⟩

/-- Live and removed positions of a keyword are distinct, and a live pair has the position
stored under its text. -/
structure PlacesOk (P : Places) : Prop where
  lt : ∀ {w z p}, P.place w z = some p → p < P.next (Bid.ofStr w)
  inj : ∀ {w z y p}, P.place w z = some p → P.place w y = some p → z = y
  text : ∀ {w z p}, P.place w z = some p → P.stored (mapKey w z.val) = some p
  gone_lt : ∀ {w p}, (w, p) ∈ P.removed → p < P.next (Bid.ofStr w)
  gone : ∀ {w z p}, (w, p) ∈ P.removed → P.place w z ≠ some p
  nodup : P.removed.Nodup

section

variable {P : Places} {w : Str} {z : CInt}

theorem placesOk_init : PlacesOk Places.init :=
  ⟨(nomatch ·), (nomatch ·), (nomatch ·), fun h => (List.not_mem_nil h).elim,
    fun h => (List.not_mem_nil h).elim, List.nodup_nil⟩

theorem PlacesOk.insert (h : PlacesOk P)
    (hnew : ∀ v y, (P.place v y).isSome → mapKey v y.val = mapKey w z.val → v = w ∧ y = z) :
    PlacesOk (P.step (.insert w z)) := by
  have hle : ∀ b, P.next b ≤ (P.step (.insert w z)).next b := fun b => by
    show P.next b ≤ Function.update P.next (Bid.ofStr w) (P.next (Bid.ofStr w) + 1) b
    by_cases hb : b = Bid.ofStr w
    · rw [hb, Function.update_self]
      omega
    · rw [Function.update_of_ne hb]
  have hplace : ∀ {v y p}, (P.step (.insert w z)).place v y = some p →
      (v = w ∧ y = z ∧ p = P.next (Bid.ofStr w)) ∨ (¬ (v = w ∧ y = z) ∧ P.place v y = some p) :=
    fun {v y p} hp => by
      simp only [Places.step] at hp
      split at hp
      · next hvy => exact .inl ⟨hvy.1, hvy.2, (Option.some.inj hp).symm⟩
      · next hvy => exact .inr ⟨hvy, hp⟩
  refine ⟨fun {v y p} hp => ?_, fun {v x y p} hx hy => ?_, fun {v y p} hp => ?_,
    fun hm => (h.gone_lt hm).trans_le (hle _), fun {v y p} hm hp => ?_, h.nodup⟩
  · rcases hplace hp with ⟨rfl, -, rfl⟩ | ⟨-, hp⟩
    · simp [Places.step]
    · exact (h.lt hp).trans_le (hle _)
  · rcases hplace hx with ⟨rfl, rfl, rfl⟩ | ⟨-, hx'⟩ <;>
      rcases hplace hy with ⟨hv, rfl, hp⟩ | ⟨-, hy'⟩
    · rfl
    · exact absurd (h.lt hy') (Nat.lt_irrefl _)
    · subst hv hp
      exact absurd (h.lt hx') (Nat.lt_irrefl _)
    · exact h.inj hx' hy'
  · show Function.update _ _ _ _ = _
    rcases hplace hp with ⟨rfl, rfl, rfl⟩ | ⟨hne, hp⟩
    · rw [Function.update_self]
    · rw [Function.update_of_ne fun e => hne (hnew v y (by rw [hp]; rfl) e), h.text hp]
  · rcases hplace hp with ⟨rfl, -, rfl⟩ | ⟨-, hp⟩
    · exact absurd (h.gone_lt hm) (Nat.lt_irrefl _)
    · exact h.gone hm hp

theorem PlacesOk.remove {p : Nat} (h : PlacesOk P) (hp : P.place w z = some p) :
    PlacesOk (P.step (.remove w z)) := by
  have hplace : ∀ {v y q}, (P.step (.remove w z)).place v y = some q →
      P.place v y = some q ∧ ¬ (v = w ∧ y = z) := fun {v y q} hq => by
    simp only [Places.step] at hq
    split at hq
    · cases hq
    · exact ⟨hq, ‹_›⟩
  have hmem : ∀ {v q}, (v, q) ∈ (P.step (.remove w z)).removed ↔
      (v, q) ∈ P.removed ∨ (v = w ∧ q = p) := fun {v q} => by
    simp [Places.step, h.text hp]
  refine ⟨fun hq => h.lt (hplace hq).1, fun hx hy => h.inj (hplace hx).1 (hplace hy).1,
    fun hq => h.text (hplace hq).1, fun {v q} hm => ?_, fun {v y q} hm hq => ?_, ?_⟩
  · rcases hmem.mp hm with hm | ⟨rfl, rfl⟩
    · exact h.gone_lt hm
    · exact h.lt hp
  · obtain ⟨hq', hne⟩ := hplace hq
    rcases hmem.mp hm with hm | ⟨rfl, rfl⟩
    · exact h.gone hm hq'
    · exact hne ⟨rfl, h.inj hq' hp⟩
  · have hnot : (w, p) ∉ P.removed := fun hm => h.gone hm hp
    simp only [Places.step, h.text hp, Option.map_some, Option.toList_some]
    exact List.nodup_append.mpr ⟨h.nodup, List.nodup_singleton _, fun a ha b hb e =>
      hnot (List.mem_singleton.mp hb ▸ e ▸ ha)⟩

/-- **The positions of an allowed history** are distinct. -/
theorem placesOk {calls : List SetupCall} (h : Each LiveOk calls) (hpairs : DistinctPairs calls) :
    PlacesOk (places calls) := by
  have key : ∀ pre, pre <+: calls → PlacesOk (places pre) := by
    intro pre
    induction pre using List.reverseRecOn with
    | nil => exact fun _ => placesOk_init
    | append_singleton pre a ih =>
      intro hpre
      have hok := ih ((List.prefix_append _ _).trans hpre)
      have ha := h.of_prefix hpre
      rw [places_snoc]
      cases a with
      | insert w z =>
        have hins : SetupCall.insert w z ∈ calls := hpre.subset (by simp)
        refine hok.insert fun v y hv e => ?_
        exact hpairs (.insert v y) (hpre.subset (List.mem_append_left _ (live_stored pre hv).1))
          (.insert w z) hins e
      | remove w z =>
        obtain ⟨p, hp⟩ := Option.isSome_iff_exists.mp ha
        exact hok.remove hp
  exact key calls (List.prefix_refl _)

end

end SmallClientSSE.Qos
