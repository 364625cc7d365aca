import Mathlib.Data.Finset.Card
import Mathlib.Data.Finset.Max
import Mathlib.Data.Set.Card
import SmallClientSSE.Qos.Exact
import SmallClientSSE.Qos.Setup

/-!
# What the setup phase of QOS loads

`SetupInv` ties the setup maps to the positions of the history: `setupOstate` has the
keys of the nodes read by the removals, and each removal marks at most one of its
path. When the tree has more than one level, the nodes read outnumber the removals,
so some of them are not marked (`setup_stores_marks_iff`).
-/

namespace SmallClientSSE.Qos

open Lib

section

variable {E : Env} {c c' : OmapClient} {w : Str} {z : CInt}

/-! ## Insertions -/

/-- The counter text after `n` insertions. -/
def cntOf (n : Nat) : Str := if n = 0 then [] else pairStr 0 ((n : Int) - 1)

theorem nextCounters_cntOf {n : Nat} {s a : Int} (hn : n ≤ 2 ^ 31)
    (h : nextCounters (cntOf n) = some (s, a)) : s = 0 ∧ a = n ∧ n < 2 ^ 31 := by
  have hnext : nextCounters (cntOf n) = (int ((n : Int) - 1 + 1)).map fun a => (0, a) := by
    by_cases h0 : n = 0
    · subst h0
      rfl
    · rw [cntOf, if_neg h0, nextCounters_of_parsePair
        (parsePair_pairStr (by omega) (by omega) (by omega) (by omega))]
  rw [hnext, Option.map_eq_some_iff] at h
  obtain ⟨b, hb, h⟩ := h
  unfold int at hb
  split at hb
  · next hin =>
    obtain rfl := Option.some.inj hb
    obtain ⟨rfl, rfl⟩ := Prod.mk.inj h
    obtain ⟨-, h2⟩ := hin
    exact ⟨rfl, by omega, by omega⟩
  · cases hb

theorem insert_spec {n : Nat} (hcnt : c.setupOcnt.find (Bid.ofStr w) = cntOf n)
    (hn : n ≤ 2 ^ 31) (hr : c.insert E w z = some c') :
    n < 2 ^ 31 ∧ (mapKey w z.val).length ≤ 16 ∧ c'.height = c.height ∧
      c'.setupOcnt = c.setupOcnt.insert (Bid.ofStr w) (cntOf (n + 1)) ∧
      c'.setupOdel = c.setupOdel.insert (Bid.ofStr (mapKey w z.val)) (intStr n) ∧
      c'.setupOstate = c.setupOstate := by
  simp only [OmapClient.insert, Option.bind_eq_bind, Option.bind_eq_some_iff] at hr
  obtain ⟨key, hkey, ⟨s, a⟩, hnext, newKey, hnew, node, -, hr⟩ := hr
  obtain ⟨-, rfl⟩ := getBid_some hkey
  obtain ⟨hlen, rfl⟩ := getBid_some hnew
  rw [hcnt] at hnext
  obtain ⟨rfl, rfl, hlt⟩ := nextCounters_cntOf hn hnext
  obtain rfl := Option.some.inj hr
  refine ⟨hlt, hlen, rfl, ?_, rfl, rfl⟩
  simp [cntOf]

/-! ## Removals -/

theorem find_touch (m : FMap 16) (k j : Bid 16) : (touch m k).find j = m.find j := by
  by_cases h : j = k
  · rw [touch, h, FMap.find_insert_self]
  · rw [touch, FMap.find_insert_of_ne _ h]

theorem isSome_touch (m : FMap 16) (k j : Bid 16) :
    (touch m k j).isSome ↔ (m j).isSome ∨ j = k := by
  rw [touch, FMap.insert_apply]
  split
  · simp [*]
  · simp [*]

/-- What reading the colours of some nodes changes in the setup phase. -/
structure Touched (c c' : OmapClient) (w : Str) (nodes : List Int) : Prop where
  fit : ∀ i ∈ nodes, (mapKey w i).length ≤ 16
  only : ∃ m, c' = { c with setupOstate := m }
  find : ∀ k, c'.setupOstate.find k = c.setupOstate.find k
  keys : ∀ k, (c'.setupOstate k).isSome ↔
    (c.setupOstate k).isSome ∨ ∃ i ∈ nodes, k = Bid.ofStr (mapKey w i)

/-- **Reading colours** stores a key for every node read. -/
theorem readColors_spec {nodes : List Int} : ∀ {c c' : OmapClient} {colors : List Int},
    readColors true w c nodes = some (colors, c') → Touched c c' w nodes := by
  induction nodes with
  | nil =>
    intro c c' colors h
    obtain ⟨rfl, rfl⟩ := Prod.mk.inj (Option.some.inj h)
    exact ⟨fun i hi => (List.not_mem_nil hi).elim, ⟨_, rfl⟩, fun _ => rfl, fun k => by simp⟩
  | cons i nodes ih =>
    intro c c' colors h
    simp only [readColors, Option.bind_eq_bind, Option.bind_eq_some_iff, if_true] at h
    obtain ⟨key, hkey, color, -, ⟨rest, c2⟩, hrest, h⟩ := h
    obtain ⟨hlen, rfl⟩ := getBid_some hkey
    obtain ⟨rfl, rfl⟩ := Prod.mk.inj (Option.some.inj h)
    obtain ⟨hfit, ⟨m, hm⟩, hfind, hkeys⟩ := ih hrest
    refine ⟨?_, ⟨m, hm⟩, fun k => (hfind k).trans (find_touch _ _ _), fun k => ?_⟩
    · intro j hj
      rcases List.mem_cons.mp hj with rfl | hj
      · exact hlen
      · exact hfit j hj
    · rw [hkeys, isSome_touch]
      simp only [List.mem_cons, exists_eq_or_imp]
      tauto

/-- What a removal changes in the setup phase, and what it marks. -/
structure Removed (c c' : OmapClient) (w : Str) (nodes : List Int) (marked : Option Int) :
    Prop where
  height : c'.height = c.height
  cnt : ∀ k, c'.setupOcnt.find k = c.setupOcnt.find k
  del : ∀ k, c'.setupOdel.find k = c.setupOdel.find k
  fit : ∀ i, i ∈ nodes ∨ (∃ j ∈ nodes, sibling j = some i) → (mapKey w i).length ≤ 16
  keys : ∀ k, (c'.setupOstate k).isSome ↔ (c.setupOstate k).isSome ∨
    ∃ i, (i ∈ nodes ∨ ∃ j ∈ nodes, sibling j = some i) ∧ k = Bid.ofStr (mapKey w i)
  mem : ∀ i, marked = some i → i ∈ nodes
  state : ∀ k, c'.setupOstate.find k =
    if marked.map (fun i => Bid.ofStr (mapKey w i)) = some k then intStr 2
    else c.setupOstate.find k

/-- **A removal in the setup phase.** -/
theorem remove_spec {pos : CInt} {marked : Option Int}
    (hpos : c.setupOdel.find (Bid.ofStr (mapKey w z.val)) = intStr pos.val)
    (hr : c.remove E true w z = some (c', marked)) :
    ∃ nodes, treeNodes c.height pos.val = some nodes ∧ Removed c c' w nodes marked := by
  simp only [OmapClient.remove, Option.bind_eq_bind, Option.bind_eq_some_iff, if_true] at hr
  obtain ⟨key, hkey, src, -, newKey, hnew, p, hp, nodes, hnodes, ⟨colors, c1⟩, h1,
    ⟨sibs, c2⟩, h2, hr⟩ := hr
  obtain ⟨-, rfl⟩ := getBid_some hkey
  obtain ⟨-, rfl⟩ := getBid_some hnew
  have hp' : stoi (intStr pos.val) = some p := hpos ▸ hp
  obtain rfl : pos = p := Option.some.inj ((stoi_intStr_self pos).symm.trans hp')
  refine ⟨nodes, hnodes, ?_⟩
  obtain ⟨hf1, ⟨m1, e1⟩, hfind1, hkeys1⟩ := readColors_spec h1
  obtain ⟨hf2, ⟨m2, e2⟩, hfind2, hkeys2⟩ := readColors_spec h2
  dsimp only at h1 h2 hr hkeys1 hkeys2 hfind1 hfind2 e1 e2
  have hfit : ∀ i, i ∈ nodes ∨ (∃ j ∈ nodes, sibling j = some i) →
      (mapKey w i).length ≤ 16 := by
    rintro i (hi | hi)
    · exact hf1 i hi
    · exact hf2 i (List.mem_filterMap.mpr hi)
  have hkeys : ∀ k, (c2.setupOstate k).isSome ↔ (c.setupOstate k).isSome ∨
      ∃ i, (i ∈ nodes ∨ ∃ j ∈ nodes, sibling j = some i) ∧ k = Bid.ofStr (mapKey w i) := fun k => by
    rw [hkeys2, hkeys1]
    simp only [List.mem_filterMap]
    constructor
    · rintro ((h | ⟨i, hi, hk⟩) | ⟨i, hi, hk⟩)
      · exact .inl h
      · exact .inr ⟨i, .inl hi, hk⟩
      · exact .inr ⟨i, .inr hi, hk⟩
    · rintro (h | ⟨i, hi | hi, hk⟩)
      · exact .inl (.inl h)
      · exact .inl (.inr ⟨i, hi, hk⟩)
      · exact .inr ⟨i, hi, hk⟩
  have hfind : ∀ k, c2.setupOstate.find k = c.setupOstate.find k := fun k =>
    (hfind2 k).trans (hfind1 k)
  have hcnt : ∀ k, c2.setupOcnt.find k = c.setupOcnt.find k := fun k => by
    rw [e2, e1]
    exact find_touch _ _ _
  have hdel : ∀ k, c2.setupOdel.find k = c.setupOdel.find k := fun k => by
    rw [e2, e1]
    exact find_touch _ _ _
  have hheight : c2.height = c.height := by rw [e2, e1]
  cases hch : changed (nodes.zip (colors.zip (2 :: finalColors 2 sibs))) with
  | none =>
    rw [hch] at hr
    obtain ⟨rfl, rfl⟩ := Prod.mk.inj (Option.some.inj hr)
    exact ⟨hheight, hcnt, hdel, hfit, hkeys, fun _ h => (nomatch h), hfind⟩
  | some node =>
    rw [hch] at hr
    simp only [Option.bind_eq_some_iff] at hr
    obtain ⟨k0, hk0, hr⟩ := hr
    obtain ⟨-, rfl⟩ := getBid_some hk0
    obtain ⟨rfl, rfl⟩ := Prod.mk.inj (Option.some.inj hr)
    have hmem : node ∈ nodes := by
      obtain ⟨⟨a, b⟩, hab, rfl⟩ := List.mem_map.mp (mem_of_changed hch)
      exact (List.of_mem_zip hab).1
    refine ⟨hheight, hcnt, hdel, hfit, fun k => ?_, fun i hi => Option.some.inj hi ▸ hmem,
      fun k => ?_⟩
    · show ((c2.setupOstate.insert _ _) k).isSome ↔ _
      rw [FMap.insert_apply, ← hkeys]
      split
      · next hk =>
        refine ⟨fun _ => ?_, fun _ => rfl⟩
        exact (hkeys k).mpr (.inr ⟨node, .inl hmem, hk⟩)
      · exact Iff.rfl
    · show (c2.setupOstate.insert _ _).find k = _
      rw [Option.map_some, ← hfind]
      by_cases hk : k = Bid.ofStr (mapKey w node)
      · rw [hk, FMap.find_insert_self, if_pos rfl]
      · rw [FMap.find_insert_of_ne _ hk, if_neg fun e => hk (Option.some.inj e).symm]

end

/-! ## The invariant -/

/-- The setup maps and the marks after the updates `pre`, in a tree of `h + 1` levels. -/
structure SetupInv (h : Nat) (pre : List SetupCall) (st : OmapClient × List (Str × Int)) :
    Prop where
  height : st.1.height = h + 1
  small : ∀ b, (places pre).next b ≤ 2 ^ 31
  cnt : ∀ b, st.1.setupOcnt.find b = cntOf ((places pre).next b)
  text : ∀ {t p}, (places pre).stored t = some p → t.length ≤ 16 ∧ t.getLast? ≠ some 0 ∧
    p < 2 ^ 31 ∧ st.1.setupOdel.find (Bid.ofStr t) = intStr p
  tree : ∀ {w p}, (w, p) ∈ (places pre).removed → ∃ nodes, treeNodes (h + 1) p = some nodes
  fit : ∀ {w p}, (w, p) ∈ (places pre).removed → ∀ i ∈ readNodes (h + 1) p,
    (mapKey w i).length ≤ 16
  keys : ∀ k, (st.1.setupOstate k).isSome ↔ ∃ w p, (w, p) ∈ (places pre).removed ∧
    ∃ i ∈ readNodes (h + 1) p, k = Bid.ofStr (mapKey w i)
  marked : ∀ {w i}, (w, i) ∈ st.2 → ∃ p nodes, (w, p) ∈ (places pre).removed ∧
    treeNodes (h + 1) p = some nodes ∧ i ∈ nodes
  few : ∀ w, (st.2.filter fun e => e.1 = w).length ≤
    ((places pre).removed.filter fun e => e.1 = w).length
  state : ∀ {w i}, 0 ≤ i → (mapKey w i).length ≤ 16 →
    st.1.setupOstate.find (Bid.ofStr (mapKey w i)) = if (w, i) ∈ st.2 then intStr 2 else []

section

variable {E : Env} {h : Nat} {pre calls : List SetupCall} {st st' : OmapClient × List (Str × Int)}
  {w : Str} {z : CInt}

theorem setupInv_init {N : CInt} {c : OmapClient} (hc : OmapClient.init N = some c) :
    SetupInv (heightOf N - 1) [] (c, []) := by
  unfold OmapClient.init at hc
  split at hc
  · obtain rfl := Option.some.inj hc
    exact ⟨rfl, fun _ => Nat.zero_le _, fun _ => rfl, (nomatch ·),
      fun hm => (List.not_mem_nil hm).elim, fun hm => (List.not_mem_nil hm).elim,
      fun _ => ⟨fun h => (nomatch h), fun ⟨_, _, hm, _⟩ => (List.not_mem_nil hm).elim⟩,
      fun hm => (List.not_mem_nil hm).elim, fun _ => Nat.le_refl _, fun _ _ => rfl⟩
  · cases hc

theorem SetupInv.insert (hI : SetupInv h pre st) {c' : OmapClient}
    (hr : st.1.insert E w z = some c') : SetupInv h (pre ++ [.insert w z]) (c', st.2) := by
  obtain ⟨hlt, hlen, hheight, hcnt, hdel, hstate⟩ :=
    insert_spec (hI.cnt (Bid.ofStr w)) (hI.small _) hr
  have hplaces := places_snoc pre (.insert w z)
  have hremoved : (places (pre ++ [.insert w z])).removed = (places pre).removed := by
    rw [hplaces]
    rfl
  have hnext : ∀ b, (places (pre ++ [.insert w z])).next b =
      if b = Bid.ofStr w then (places pre).next (Bid.ofStr w) + 1 else (places pre).next b :=
    fun b => by
      rw [hplaces]
      exact Function.update_apply _ _ _ _
  refine ⟨hheight.trans hI.height, fun b => ?_, fun b => ?_, fun {t p} hp => ?_, ?_, ?_, ?_, ?_,
    ?_, ?_⟩
  · rw [hnext]
    split
    · omega
    · exact hI.small b
  · rw [hnext, hcnt]
    split
    · next hb => rw [hb, FMap.find_insert_self]
    · next hb => rw [FMap.find_insert_of_ne _ hb, hI.cnt b]
  · rw [hplaces] at hp
    simp only [Places.step, Function.update_apply] at hp
    rw [hdel]
    split at hp
    · next ht =>
      subst ht
      obtain rfl := Option.some.inj hp
      exact ⟨hlen, getLast_mapKey w z.val, hlt, FMap.find_insert_self _ _ _⟩
    · next ht =>
      obtain ⟨hfit, hlast, hp31, hfind⟩ := hI.text hp
      refine ⟨hfit, hlast, hp31, ?_⟩
      rw [FMap.find_insert_of_ne _ fun e => ht ?_, hfind]
      exact ofStr_inj_of_last hlast (getLast_mapKey w z.val) hfit hlen e
  · rw [hremoved]
    exact hI.tree
  · rw [hremoved]
    exact hI.fit
  · rw [hremoved, hstate]
    exact hI.keys
  · rw [hremoved]
    exact hI.marked
  · rw [hremoved]
    exact hI.few
  · rw [hstate]
    exact hI.state

theorem SetupInv.remove (hI : SetupInv h pre st) {p : Nat}
    (hp : (places pre).stored (mapKey w z.val) = some p) {c' : OmapClient} {marked : Option Int}
    (hr : st.1.remove E true w z = some (c', marked)) :
    SetupInv h (pre ++ [.remove w z]) (c', st.2 ++ (marked.map fun node => (w, node)).toList) := by
  obtain ⟨-, -, hlt, hfind⟩ := hI.text hp
  have hin : InInt (p : Int) := ⟨by omega, by omega⟩
  have hfind' : _ = intStr (⟨p, hin⟩ : CInt).val := hfind
  obtain ⟨nodes, hnodes, hR⟩ := remove_spec hfind' hr
  rw [hI.height] at hnodes
  have hread : ∀ i, i ∈ readNodes (h + 1) p ↔ i ∈ nodes ∨ ∃ j ∈ nodes, sibling j = some i :=
    fun i => mem_readNodes hnodes
  have hplaces := places_snoc pre (.remove w z)
  have hremoved : ∀ {v q}, (v, q) ∈ (places (pre ++ [.remove w z])).removed ↔
      (v, q) ∈ (places pre).removed ∨ (v = w ∧ q = p) := fun {v q} => by
    rw [hplaces]
    simp [Places.step, hp]
  have hnext : (places (pre ++ [.remove w z])).next = (places pre).next := by
    rw [hplaces]
    rfl
  have hmarks : ∀ {v i}, (v, i) ∈ st.2 ++ (marked.map fun node => (w, node)).toList ↔
      (v, i) ∈ st.2 ∨ (v = w ∧ marked = some i) := fun {v i} => by
    cases marked with
    | none => simp
    | some j =>
      simp only [Option.map_some, Option.toList_some, List.mem_append, List.mem_singleton,
        Prod.mk.injEq, Option.some.injEq, eq_comm]
  refine ⟨hR.height.trans hI.height, hnext ▸ hI.small, fun b => ?_, fun {t q} hq => ?_,
    fun {v q} hm => ?_, fun {v q} hm i hi => ?_, fun k => ?_, fun {v i} hm => ?_, fun v => ?_,
    fun {v i} hi hlen => ?_⟩
  · rw [hR.cnt, hI.cnt, hnext]
  · rw [hplaces] at hq
    obtain ⟨h1, h2, h3, h4⟩ := hI.text hq
    exact ⟨h1, h2, h3, (hR.del _).trans h4⟩
  · rcases hremoved.mp hm with hm | ⟨rfl, rfl⟩
    · exact hI.tree hm
    · exact ⟨nodes, hnodes⟩
  · rcases hremoved.mp hm with hm | ⟨rfl, rfl⟩
    · exact hI.fit hm i hi
    · exact hR.fit i ((hread i).mp hi)
  · rw [hR.keys, hI.keys]
    constructor
    · rintro (⟨v, q, hm, hk⟩ | ⟨i, hi, hk⟩)
      · exact ⟨v, q, hremoved.mpr (.inl hm), hk⟩
      · exact ⟨w, p, hremoved.mpr (.inr ⟨rfl, rfl⟩), i, (hread i).mpr hi, hk⟩
    · rintro ⟨v, q, hm, i, hi, hk⟩
      rcases hremoved.mp hm with hm | ⟨rfl, rfl⟩
      · exact .inl ⟨v, q, hm, i, hi, hk⟩
      · exact .inr ⟨i, (hread i).mp hi, hk⟩
  · rcases hmarks.mp hm with hm | ⟨rfl, hi⟩
    · obtain ⟨q, ns, h1, h2, h3⟩ := hI.marked hm
      exact ⟨q, ns, hremoved.mpr (.inl h1), h2, h3⟩
    · exact ⟨p, nodes, hremoved.mpr (.inr ⟨rfl, rfl⟩), hnodes, hR.mem i hi⟩
  · -- one removal of `w`, and at most one mark of `w`
    have hfew := hI.few v
    rw [hplaces]
    simp only [Places.step, hp, Option.map_some, Option.toList_some, List.filter_append,
      List.length_append]
    by_cases hv : w = v
    · have hone : (List.filter (fun e : Str × Nat => decide (e.1 = v)) [(w, p)]).length = 1 := by
        simp [hv]
      have hle : (List.filter (fun e : Str × Int => decide (e.1 = v))
          (marked.map fun node => (w, node)).toList).length ≤ 1 := by
        refine (List.length_filter_le _ _).trans ?_
        cases marked <;> simp
      omega
    · have hnone : (List.filter (fun e : Str × Int => decide (e.1 = v))
          (marked.map fun node => (w, node)).toList).length = 0 := by
        cases marked <;> simp [hv]
      omega
  · rw [hR.state, hI.state hi hlen]
    have hiff : marked.map (fun j => (Bid.ofStr (mapKey w j) : Bid 16)) =
        some (Bid.ofStr (mapKey v i)) ↔ v = w ∧ marked = some i := by
      constructor
      · intro e
        obtain ⟨j, hj, hk⟩ := Option.map_eq_some_iff.mp e
        have hjn := hR.mem j hj
        obtain ⟨rfl, rfl⟩ := nodeKey_inj (node_nonneg (Int.natCast_nonneg p) hnodes hjn) hi
          (hR.fit j (.inl hjn)) hlen hk
        exact ⟨rfl, hj⟩
      · rintro ⟨rfl, hm⟩
        rw [hm]
        rfl
    by_cases hnew : v = w ∧ marked = some i
    · rw [if_pos (hiff.mpr hnew), if_pos (hmarks.mpr (.inr hnew))]
    · rw [if_neg fun e => hnew (hiff.mp e)]
      by_cases hold : (v, i) ∈ st.2
      · rw [if_pos hold, if_pos (hmarks.mpr (.inl hold))]
      · rw [if_neg hold, if_neg fun e => (hmarks.mp e).elim hold hnew]

/-- **The invariant of a setup phase.** -/
theorem setupInv_run {N : CInt} {c : OmapClient} (hc : OmapClient.init N = some c)
    (hlive : Each LiveOk calls) (hrun : run (setupStep E) (c, []) calls = some st) :
    SetupInv (heightOf N - 1) calls st := by
  refine run_keeps (SetupInv (heightOf N - 1)) (setupInv_init hc) hrun
    fun pre a t u hpre ht hr => ?_
  have ha := hlive.of_prefix hpre
  cases a with
  | insert w z =>
    obtain ⟨c', hc, rfl⟩ := Option.map_eq_some_iff.mp hr
    exact ht.insert hc
  | remove w z =>
    obtain ⟨p, hp⟩ := Option.isSome_iff_exists.mp (live_stored pre ha).2
    obtain ⟨⟨c', marked⟩, hc, rfl⟩ := Option.map_eq_some_iff.mp hr
    exact ht.remove hp hc

end

/-! ## What is loaded -/

/-- The keys that `endSetup` loads into `Ostate`. -/
def loadedKeys (c : OmapClient) : Set (Bid 16) := {k | (c.setupOstate k).isSome}

def markKeys (marks : List (Str × Int)) : Set (Bid 16) :=
  {k | ∃ e ∈ marks, k = Bid.ofStr (mapKey e.1 e.2)}

def removes (calls : List SetupCall) : Nat := (calls.filter SetupCall.isRemove).length

/-- The setup phase stores the marked nodes only, so at most `N` for at most `N` removals. -/
structure StoresMarks (N : CInt) (calls : List SetupCall) (st : OmapClient × List (Str × Int)) :
    Prop where
  keys : loadedKeys st.1 = markKeys st.2
  fits : removes calls ≤ N.val.toNat → (loadedKeys st.1).encard ≤ N.val.toNat

theorem foldl_insert_isSome (key : Bid 16) (value : Str) (l : List Nat) (m : FMap 16)
    (k : Bid 16) : (l.foldl (fun m _ => m.insert key value) m k).isSome ↔
      (m k).isSome ∨ (l ≠ [] ∧ k = key) := by
  induction l generalizing m with
  | nil => simp
  | cons _ l ih =>
    rw [List.foldl_cons, ih, FMap.insert_apply]
    by_cases h : k = key <;> simp [h]

theorem testInserts_apply (m : FMap 16) (k : Bid 16) :
    (testInserts m k).isSome ↔ (m k).isSome ∨ k = testPair.1 := by
  have hne : List.range 1000 ≠ [] := fun h => absurd (List.range_eq_nil.mp h) (by simp)
  rw [testInserts, foldl_insert_isSome, and_iff_right hne]

theorem endSetup_loads (c : OmapClient) (k : Bid 16) :
    (c.endSetup.Ostate k).isSome ↔
      k ∈ loadedKeys c ∨ (c.Ostate k).isSome ∨ k = testPair.1 := by
  simp only [OmapClient.endSetup]
  rw [testInserts_apply, FMap.setupInsert, Option.isSome_or, Bool.or_eq_true, or_assoc, loadedKeys,
    Set.mem_ofPred_eq]

section

variable {E : Env} {h : Nat} {calls : List SetupCall} {st : OmapClient × List (Str × Int)}
  {w : Str}

/-- The keys loaded are those of the marks when each node read is marked. -/
theorem SetupInv.loaded_iff (hI : SetupInv h calls st) :
    loadedKeys st.1 = markKeys st.2 ↔ ∀ w p, (w, p) ∈ (places calls).removed →
      ∀ i ∈ readNodes (h + 1) p, (w, i) ∈ st.2 := by
  constructor
  · intro he w p hm i hi
    have hk : Bid.ofStr (mapKey w i) ∈ loadedKeys st.1 := (hI.keys _).mpr ⟨w, p, hm, i, hi, rfl⟩
    rw [he] at hk
    obtain ⟨⟨v, j⟩, he, hk⟩ := hk
    obtain ⟨q, nodes, hq, hnodes, hj⟩ := hI.marked he
    obtain ⟨rfl, rfl⟩ := nodeKey_inj (readNodes_nonneg (Int.natCast_nonneg p) hi)
      (node_nonneg (Int.natCast_nonneg q) hnodes hj) (hI.fit hm i hi)
      (hI.fit hq j ((mem_readNodes hnodes).mpr (.inl hj))) hk
    exact he
  · intro hall
    ext k
    constructor
    · intro hk
      obtain ⟨w, p, hm, i, hi, rfl⟩ := (hI.keys k).mp hk
      exact ⟨(w, i), hall w p hm i hi, rfl⟩
    · rintro ⟨⟨w, i⟩, he, rfl⟩
      obtain ⟨p, nodes, hp, hnodes, hi⟩ := hI.marked he
      exact (hI.keys _).mpr ⟨w, p, hp, i, (mem_readNodes hnodes).mpr (.inl hi), rfl⟩

/-- With two levels or more, some node read is not marked: the least leaf removed has a
parent that is no leaf, and there are no more marks than leaves. -/
theorem SetupInv.not_all_marked (hI : SetupInv h calls st)
    (hnodup : (places calls).removed.Nodup) (hh : 1 ≤ h) {p : Nat} (hp : (w, p) ∈ (places calls).removed) :
    ¬ ∀ q, (w, q) ∈ (places calls).removed → ∀ i ∈ readNodes (h + 1) q, (w, i) ∈ st.2 := by
  intro hall
  let leaf : Nat → Int := fun q => (q : Int) + ((2 : Int) ^ (h + 1) - 1).tdiv 2
  have hleaf : Function.Injective leaf := fun a b e => by
    have : (a : Int) + ((2 : Int) ^ (h + 1) - 1).tdiv 2 = b + ((2 : Int) ^ (h + 1) - 1).tdiv 2 := e
    omega
  let own := (places calls).removed.filter fun e => e.1 = w
  let L : Finset Int := (own.map fun e => leaf e.2).toFinset
  let M : Finset Int := ((st.2.filter fun e => e.1 = w).map Prod.snd).toFinset
  have hL : ∀ {x}, x ∈ L ↔ ∃ q, (w, q) ∈ (places calls).removed ∧ leaf q = x := fun {x} => by
    simp only [L, own, List.mem_toFinset, List.mem_map, List.mem_filter, decide_eq_true_eq]
    constructor
    · rintro ⟨⟨v, q⟩, ⟨hm, rfl⟩, hx⟩
      exact ⟨q, hm, hx⟩
    · rintro ⟨q, hm, hx⟩
      exact ⟨(w, q), ⟨hm, rfl⟩, hx⟩
  have hM : ∀ {x}, (w, x) ∈ st.2 → x ∈ M := fun {x} hx => by
    simp only [M, List.mem_toFinset, List.mem_map, List.mem_filter, decide_eq_true_eq]
    exact ⟨(w, x), ⟨hx, rfl⟩, rfl⟩
  have hcard : M.card ≤ L.card := by
    have hown : (own.map fun e => leaf e.2).Nodup := by
      refine List.Nodup.map_on (fun a ha b hb e => ?_) (hnodup.filter _)
      simp only [own, List.mem_filter, decide_eq_true_eq] at ha hb
      exact Prod.ext (ha.2.trans hb.2.symm) (hleaf e)
    calc M.card ≤ ((st.2.filter fun e => e.1 = w).map Prod.snd).length := List.toFinset_card_le _
      _ ≤ own.length := by
        rw [List.length_map]
        exact hI.few w
      _ = L.card := by rw [List.toFinset_card_of_nodup hown, List.length_map]
  -- the path of a removed leaf
  have hpath : ∀ {q}, (w, q) ∈ (places calls).removed → ∀ i, i ≤ h → parent^[i] (leaf q) ∈ M :=
    fun {q} hq i hi => by
      obtain ⟨nodes, hnodes⟩ := hI.tree hq
      refine hM (hall q hq _ ((mem_readNodes hnodes).mpr (.inl ?_)))
      rw [treeNodes_form hnodes]
      exact List.mem_map.mpr ⟨i, List.mem_range.mpr (by omega), rfl⟩
  have hsub : L ⊆ M := fun x hx => by
    obtain ⟨q, hq, rfl⟩ := hL.mp hx
    exact hpath hq 0 (Nat.zero_le _)
  have heq : L = M := Finset.eq_of_subset_of_card_le hsub hcard
  obtain ⟨m, hm, hmin⟩ := L.exists_minimal ⟨leaf p, hL.mpr ⟨p, hp, rfl⟩⟩
  obtain ⟨q, hq, rfl⟩ := hL.mp hm
  have hpar : parent (leaf q) ∈ L := heq ▸ hpath hq 1 hh
  have hpos : (1 : Int) ≤ leaf q := by
    have : (2 : Int) ≤ 2 ^ h := by
      calc (2 : Int) = 2 ^ 1 := rfl
        _ ≤ 2 ^ h := pow_le_pow_right₀ (by norm_num) hh
    show (1 : Int) ≤ (q : Int) + ((2 : Int) ^ (h + 1) - 1).tdiv 2
    rw [half_full]
    omega
  have hlt : parent (leaf q) < leaf q := by
    rw [parent, Int.tdiv_eq_ediv_of_nonneg (by omega)]
    omega
  exact absurd (hmin hpar hlt.le) (not_le.mpr hlt)

/-- With two levels or more the marked nodes are all that is stored only if nothing was removed. -/
theorem SetupInv.loaded_eq_iff (hI : SetupInv h calls st) (hh : 1 ≤ h)
    (hnodup : (places calls).removed.Nodup) :
    loadedKeys st.1 = markKeys st.2 ↔ (places calls).removed = [] := by
  rw [hI.loaded_iff]
  constructor
  · intro hall
    by_contra hne
    obtain ⟨⟨w, p⟩, hp⟩ := List.exists_mem_of_ne_nil _ hne
    exact hI.not_all_marked hnodup hh hp fun q hq => hall w q hq
  · intro hnil w p hp
    rw [hnil] at hp
    exact (List.not_mem_nil hp).elim

theorem SetupInv.marks_le (hI : SetupInv h calls st) :
    st.2.length ≤ (places calls).removed.length := by
  have hsub : (st.2.map Prod.fst).Subperm ((places calls).removed.map Prod.fst) := by
    refine List.subperm_ext_iff.mpr fun v _ => ?_
    have := hI.few v
    rw [← List.countP_eq_length_filter, ← List.countP_eq_length_filter] at this
    rw [List.count, List.countP_map, List.countP_map]
    simpa only [Function.comp_def, beq_eq_decide] using this
  simpa using hsub.length_le

theorem removed_length {calls : List SetupCall} (hlive : Each LiveOk calls) :
    (places calls).removed.length = removes calls := by
  induction calls using List.reverseRecOn with
  | nil => rfl
  | append_singleton calls a ih =>
    have ha := hlive.of_prefix (List.prefix_refl _)
    rw [places_snoc, removes, List.filter_append, List.length_append, ← removes, ← ih hlive.left]
    cases a with
    | insert w z => rfl
    | remove w z =>
      obtain ⟨p, hp⟩ := Option.isSome_iff_exists.mp (live_stored calls ha).2
      simp only [Places.step, hp, Option.map_some, Option.toList_some, List.length_append]
      rfl

theorem encard_markKeys_le (marks : List (Str × Int)) :
    (markKeys marks).encard ≤ marks.length := by
  have hsub : markKeys marks ⊆
      ↑(marks.map fun e => (Bid.ofStr (mapKey e.1 e.2) : Bid 16)).toFinset := by
    rintro k ⟨e, he, rfl⟩
    rw [Finset.mem_coe, List.mem_toFinset]
    exact List.mem_map_of_mem he
  calc (markKeys marks).encard ≤ _ := Set.encard_le_encard hsub
    _ ≤ marks.length := by
      rw [Set.encard_coe_eq_coe_finsetCard]
      exact_mod_cast (List.toFinset_card_le _).trans (List.length_map _).le

theorem one_le_height {N : CInt} {c : OmapClient} (hc : OmapClient.init N = some c) :
    1 ≤ heightOf N - 1 := by
  unfold OmapClient.init at hc
  split at hc
  · next h =>
    have : 1 < N.val.toNat := by omega
    exact Nat.clog_pos (by decide) this
  · cases hc

/-- **Setup stores the marked nodes only** when there was no removal; with distinct texts for the
pairs, only then. -/
theorem setup_stores_marks_iff (E : Env) (N : CInt) (calls : List SetupCall) (c : OmapClient)
    (st : OmapClient × List (Str × Int)) (hc : OmapClient.init N = some c)
    (hlive : Each LiveOk calls) (hrun : run (setupStep E) (c, []) calls = some st) :
    (removes calls = 0 → StoresMarks N calls st) ∧
      (DistinctPairs calls → (StoresMarks N calls st ↔ removes calls = 0)) := by
  have hI := setupInv_run hc hlive hrun
  have hnil : removes calls = 0 ↔ (places calls).removed = [] := by
    rw [← removed_length hlive, List.length_eq_zero_iff]
  have henough : removes calls = 0 → StoresMarks N calls st := fun h => by
    have hrem := hnil.mp h
    have hkeys := (hI.loaded_eq_iff (one_le_height hc) (hrem ▸ List.nodup_nil)).mpr hrem
    refine ⟨hkeys, fun hle => ?_⟩
    rw [hkeys]
    refine (encard_markKeys_le _).trans ?_
    exact_mod_cast (hI.marks_le.trans (removed_length hlive).le).trans hle
  refine ⟨henough, fun hpairs => ⟨fun h => ?_, henough⟩⟩
  exact hnil.mpr ((hI.loaded_eq_iff (one_le_height hc) (placesOk hlive hpairs).nodup).mp h.keys)

def threePairs : List SetupCall :=
  [.insert [97] (cint 1), .insert [98] (cint 1), .insert [97] (cint 2)]

theorem setup_stores_marks_three :
    ∃ c st, OmapClient.init ⟨4, by decide⟩ = some c ∧
      run (setupStep sampleEnv) (c, []) threePairs = some st ∧
      StoresMarks ⟨4, by decide⟩ threePairs st := by
  have hrun : ((OmapClient.init ⟨4, by decide⟩).bind fun c =>
      run (setupStep sampleEnv) (c, []) threePairs).isSome := by decide +kernel
  obtain ⟨st, hst⟩ := Option.isSome_iff_exists.mp hrun
  obtain ⟨c, hc, hst⟩ := Option.bind_eq_some_iff.mp hst
  exact ⟨c, st, hc, hst, (setup_stores_marks_iff sampleEnv _ threePairs c st hc (by decide +kernel)
    hst).1 (by decide)⟩

def oneRemoval : List SetupCall := [.insert [97] (cint 1), .remove [97] (cint 1)]

/-- With `N = 4` one removal marks one node and stores five keys. -/
theorem setup_stores_unmarked :
    Each LiveOk oneRemoval ∧ DistinctPairs oneRemoval ∧ removes oneRemoval ≤ 4 ∧
      ∃ c st, OmapClient.init ⟨4, by decide⟩ = some c ∧
        run (setupStep sampleEnv) (c, []) oneRemoval = some st ∧ st.2 = [([97], 3)] ∧
        (∀ i ∈ [0, 1, 2, 3, 4], Bid.ofStr (mapKey [97] i) ∈ loadedKeys st.1) ∧
        ¬ StoresMarks ⟨4, by decide⟩ oneRemoval st := by
  refine ⟨by decide +kernel, by unfold DistinctPairs; decide +kernel, by decide, ?_⟩
  have hrun : ((OmapClient.init ⟨4, by decide⟩).bind fun c =>
      run (setupStep sampleEnv) (c, []) oneRemoval).any
      (fun st => st.2 = [([97], 3)] ∧ ∀ i ∈ [0, 1, 2, 3, 4],
        (st.1.setupOstate (Bid.ofStr (mapKey [97] i))).isSome = true) = true := by decide +kernel
  obtain ⟨st, hst, h⟩ := (Option.any_eq_true _ _).mp hrun
  obtain ⟨c, hc, hst⟩ := Option.bind_eq_some_iff.mp hst
  obtain ⟨hmarks, hloaded⟩ := of_decide_eq_true h
  refine ⟨c, st, hc, hst, hmarks, hloaded, fun hS => ?_⟩
  have hroot : Bid.ofStr (mapKey [97] 0) ∈ markKeys st.2 := hS.keys ▸ hloaded 0 (by decide)
  obtain ⟨e, he, hk⟩ := hroot
  rw [hmarks, List.mem_singleton] at he
  subst he
  exact absurd hk (by decide)

end

/-! ## The online path -/

section

variable {E : Env} {c c' : OmapClient} {w : Str}

theorem readColors_online {nodes : List Int} : ∀ {colors : List Int},
    readColors false w c nodes = some (colors, c') → c' = c := by
  induction nodes with
  | nil => exact fun h => ((Prod.mk.inj (Option.some.inj h)).2).symm
  | cons i nodes ih =>
    intro colors h
    simp only [readColors, Option.bind_eq_bind, Option.bind_eq_some_iff, Bool.false_eq_true,
      if_false] at h
    obtain ⟨_, -, _, -, ⟨rest, c2⟩, hrest, h⟩ := h
    obtain ⟨rfl, rfl⟩ := Prod.mk.inj (Option.some.inj h)
    exact ih hrest

/-- A removal without `setup` stores the key of the node it marks. -/
theorem remove_online {z : CInt} {marked : Option Int}
    (hr : c.remove E false w z = some (c', marked)) (k : Bid 16) :
    (c'.Ostate k).isSome ↔
      (c.Ostate k).isSome ∨ ∃ node, marked = some node ∧ k = Bid.ofStr (mapKey w node) := by
  simp only [OmapClient.remove, Option.bind_eq_bind, Option.bind_eq_some_iff, Bool.false_eq_true,
    if_false] at hr
  obtain ⟨_, -, _, -, _, -, _, -, nodes, -, ⟨colors, c1⟩, h1, ⟨sibs, c2⟩, h2, hr⟩ := hr
  obtain rfl := readColors_online h1
  obtain rfl := readColors_online h2
  split at hr
  · next node hch =>
    simp only [Option.bind_eq_some_iff] at hr
    obtain ⟨k0, hk0, hr⟩ := hr
    obtain ⟨-, rfl⟩ := getBid_some hk0
    obtain ⟨rfl, rfl⟩ := Prod.mk.inj (Option.some.inj hr)
    simp only [FMap.insert_apply]
    split
    · simp [*]
    · simp [*]
  · obtain ⟨rfl, rfl⟩ := Prod.mk.inj (Option.some.inj hr)
    simp

/-- **Without `setup` only the marked nodes are stored.** -/
theorem online_stores_marks {pairs : List (Str × CInt)} {st : OmapClient × List (Str × Int)}
    (hrun : run (onlineStep E) (c, []) pairs = some st) (k : Bid 16) :
    (st.1.Ostate k).isSome ↔ (c.Ostate k).isSome ∨ k ∈ markKeys st.2 := by
  refine run_keeps (fun _ t => (t.1.Ostate k).isSome ↔ (c.Ostate k).isSome ∨ k ∈ markKeys t.2)
    ?_ hrun fun pre a t u _ ht hr => ?_
  · simp [markKeys]
  · obtain ⟨⟨c', marked⟩, hc, rfl⟩ := Option.map_eq_some_iff.mp hr
    rw [remove_online hc, ht, or_assoc]
    refine or_congr_right ?_
    simp only [markKeys, Set.mem_ofPred_eq, List.mem_append, or_and_right, exists_or]
    refine or_congr_right ?_
    cases marked <;> simp

end

end SmallClientSSE.Qos
