import SmallClientSSE.Qos.Steps

/-!
# One search of the QOS client

The leaves a search reaches are the live positions (`found_live`), so it returns
their ids in the order of insertion (`search_eq`). What it met goes back under the
next `src_cnt`: the ciphers of the live leaves, and the marks above the others,
which is all the next search needs (`search_step`).
-/

namespace SmallClientSSE.Qos

open Lib Dyadic

theorem foldl_insert (items : List (Block × Block)) : ∀ s : Server,
    (items.foldl (fun s e => s.insert e.1 e.2) s).height = s.height ∧
    (items.foldl (fun s e => s.insert e.1 e.2) s).Dstate = s.Dstate ∧
    (∀ a, a ∉ items.map Prod.fst → (items.foldl (fun s e => s.insert e.1 e.2) s).I a = s.I a) ∧
    ((items.map Prod.fst).Nodup → ∀ e ∈ items,
      (items.foldl (fun s e => s.insert e.1 e.2) s).I e.1 = some e.2) := by
  induction items with
  | nil => exact fun s => ⟨rfl, rfl, fun _ _ => rfl, fun _ e he => absurd he List.not_mem_nil⟩
  | cons d items ih =>
    intro s
    obtain ⟨h1, h2, h3, h4⟩ := ih (s.insert d.1 d.2)
    refine ⟨h1, h2, fun a ha => ?_, fun hnd e he => ?_⟩
    · rw [List.map_cons, List.mem_cons, not_or] at ha
      exact (h3 a ha.2).trans (Function.update_of_ne ha.1 _ _)
    · obtain ⟨hd, hnd⟩ := List.nodup_cons.mp hnd
      rcases List.mem_cons.mp he with rfl | he
      · exact (h3 _ hd).trans (Function.update_self ..)
      · exact h4 hnd e he

theorem foldl_insertInDstate (items : List (Block × Block)) : ∀ s : Server,
    (items.foldl (fun s e => s.insertInDstate e.1 e.2) s).height = s.height ∧
    (items.foldl (fun s e => s.insertInDstate e.1 e.2) s).I = s.I ∧
    (∀ a, a ∉ items.map Prod.fst →
      (items.foldl (fun s e => s.insertInDstate e.1 e.2) s).Dstate a = s.Dstate a) ∧
    (∀ a, a ∈ items.map Prod.fst →
      ((items.foldl (fun s e => s.insertInDstate e.1 e.2) s).Dstate a).isSome) := by
  induction items with
  | nil => exact fun s => ⟨rfl, rfl, fun _ _ => rfl, fun _ he => absurd he List.not_mem_nil⟩
  | cons d items ih =>
    intro s
    obtain ⟨h1, h2, h3, h4⟩ := ih (s.insertInDstate d.1 d.2)
    refine ⟨h1, h2, fun a ha => ?_, fun a ha => ?_⟩
    · rw [List.map_cons, List.mem_cons, not_or] at ha
      exact (h3 a ha.2).trans (Function.update_of_ne ha.1 _ _)
    · by_cases hmem : a ∈ items.map Prod.fst
      · exact h4 a hmem
      · rw [List.map_cons, List.mem_cons] at ha
        obtain rfl := ha.resolve_right hmem
        refine (congrArg Option.isSome (h3 _ hmem)).trans ?_
        show (Function.update s.Dstate d.1 (some d.2) d.1).isSome = true
        rw [Function.update_self]
        rfl

section

variable {E : Env} {S : Nat} {c : Client} {w v : Str} {src : Nat} {g : Slots} {ks : List Str}

/-- **The leaves a search reaches** are the live positions. -/
theorem found_live (he : Entry E S c w src g) :
    found (markedIn E.aes c.height (bitwiseXOR DKey (getAESRandomValue E w src)) c.server.Dstate)
      0 g.n = (List.range g.n).filter g.live := by
  have hmark : ∀ j i, markedIn E.aes c.height (bitwiseXOR DKey (getAESRandomValue E w src))
      c.server.Dstate j i = true → g.Dead j i := fun j i hM => by
    simp only [markedIn, Bool.and_eq_true, decide_eq_true_eq] at hM
    exact he.marked j i hM.1 hM.2
  refine (found_sorted (aligned_zero _)).eq_of_mem_iff
    (List.Pairwise.sublist List.filter_sublist List.pairwise_lt_range) fun p => ?_
  rw [mem_found fun j i hM => (hmark j i hM).1, List.mem_filter, List.mem_range]
  refine and_congr_right fun hp => ⟨fun hno => ?_, fun hl j => ?_⟩
  · by_contra hdead
    obtain ⟨m, hm, hs⟩ := he.covered p hp (eq_false_of_ne_true hdead)
    have := hno m
    simp only [markedIn, Bool.and_eq_false_iff, decide_eq_false_iff_not] at this
    rcases this with h | h
    · exact h (inTree_above (lt_of_lt_of_le hp he.fit) hm)
    · rw [show addr E.aes c.height (bitwiseXOR DKey (getAESRandomValue E w src))
        (m, p / 2 ^ m) = spot E c.height DKey w src m (p / 2 ^ m) from rfl] at h
      rw [h] at hs
      cases hs
  · refine eq_false_of_ne_true fun hM => ?_
    have := (hmark j _ hM).2 p rfl
    rw [hl] at this
    cases this

/-- The marks a search meets. -/
def met (E : Env) (c : Client) (w : Str) (src n : Nat) : List Node :=
  marks (markedIn E.aes c.height (bitwiseXOR DKey (getAESRandomValue E w src)) c.server.Dstate) 0 n

def searched (E : Env) (c : Client) (w : Str) (src : Nat) (g : Slots) : Client :=
  let leaves := (List.range g.n).filter g.live
  { c with
    LOcnt := Function.update c.LOcnt w (some (pairStr (src + 1 : Nat) ((g.n : Int) - 1)))
    server := Server.insertAll { c.server with
        I := without c.server.I (leaves.map fun p => spot E c.height IKey w src 0 p)
        Dstate := without c.server.Dstate
          ((met E c w src g.n).map fun d => spot E c.height DKey w src d.1 d.2) }
      (leaves.map fun p => (spot E c.height IKey w (src + 1) 0 p, cipherOf E w (g.idAt p)))
      ((met E c w src g.n).map fun d => (spot E c.height DKey w (src + 1) d.1 d.2, markValue E)) }

/-- **What a search returns**, and what it stores. -/
theorem search_eq (hh : c.height ≤ 31) (hpos : 0 < c.height)
    (hsh : c.server.height = c.height) (he : Entry E S c w src g) (hn : 0 < g.n)
    (hS : S < 2 ^ 31) (hsrc : src + 1 ≤ S) :
    search E c w = some (g.ids, searched E c w src g) := by
  have hn31 : g.n < 2 ^ 31 :=
    lt_of_le_of_lt he.fit (Nat.pow_lt_pow_right (by decide) (by omega))
  have hcnt : parsePair ((c.LOcnt w).getD []) = some ((src : Int), (g.n : Int) - 1) := by
    rw [he.cnt, if_neg (by omega), Option.getD_some]
    exact parsePair_pairStr (by omega) (by omega) (by omega) (by omega)
  have hin : int ((src : Int) + 1) = some ((src + 1 : Nat) : Int) :=
    if_pos ⟨by omega, by omega⟩
  have hfound := found_live he
  obtain ⟨⟨sheight, I, Dstate⟩, height, LOcnt, LOstate, LOdel, rands⟩ := c
  dsimp only at hsh
  subst hsh
  have hserver := @Server.search_spec E.aes ⟨sheight, I, Dstate⟩
    (bitwiseXOR IKey (getAESRandomValue E w src)) (bitwiseXOR DKey (getAESRandomValue E w src)) g.n
    (fun p => cipherOf E w (g.idAt p)) hh hpos he.fit (by
      rw [hfound]
      intro p hp
      obtain ⟨hp, hl⟩ := List.mem_filter.mp hp
      exact he.stored p (List.mem_range.mp hp) hl)
  unfold search
  rw [hcnt]
  simp only [searchServer, Option.bind_eq_bind, Option.bind_some]
  rw [hserver]
  simp only [Option.bind_some, hin]
  rw [hfound]
  simp only [List.map_map, Function.comp_def, decode_cipherOf]
  rfl

theorem insertAll_spec (s : Server) (items ditems : List (Block × Block)) :
    (s.insertAll items ditems).height = s.height ∧
    (∀ a, a ∉ items.map Prod.fst → (s.insertAll items ditems).I a = s.I a) ∧
    ((items.map Prod.fst).Nodup → ∀ e ∈ items, (s.insertAll items ditems).I e.1 = some e.2) ∧
    (∀ a, a ∉ ditems.map Prod.fst → (s.insertAll items ditems).Dstate a = s.Dstate a) ∧
    ∀ a, a ∈ ditems.map Prod.fst → ((s.insertAll items ditems).Dstate a).isSome := by
  obtain ⟨h1, h2, h3, h4⟩ := foldl_insert items s
  obtain ⟨d1, d2, d3, d4⟩ :=
    foldl_insertInDstate ditems (items.foldl (fun s e => s.insert e.1 e.2) s)
  refine ⟨d1.trans h1, fun a ha => (congrFun d2 a).trans (h3 a ha),
    fun hnd e he => (congrFun d2 _).trans (h4 hnd e he), fun a ha => (d3 a ha).trans ?_, d4⟩
  rw [h2]

theorem met_inTree {n : Nat} {d : Node} (hd : d ∈ met E c w src n) : InTree c.height d.1 d.2 := by
  have hM := marked_of_mem (j := d.1) (i := d.2) hd
  simp only [markedIn, Bool.and_eq_true, decide_eq_true_eq] at hM
  exact hM.1

variable (hE : EnvOk E c.height ks S) (hh : c.height ≤ 31) (hpos : 0 < c.height) (hw : w ∈ ks)
  (he : Entry E S c w src g)

include hpos he

theorem live_inTree {p : Nat} (hp : p ∈ (List.range g.n).filter g.live) : InTree c.height 0 p :=
  he.inTree hpos (List.mem_range.mp (List.mem_filter.mp hp).1)

include hE hh hw

omit hpos in
/-- Marks away from the two keys of a search stay. -/
theorem searched_marks (hsrc : src + 1 ≤ S) {s m k : Nat} (hv : v ∈ ks) (hs : s ≤ S)
    (ht : InTree c.height m k) (hne : v = w → s ≠ src ∧ s ≠ src + 1) :
    (searched E c w src g).server.Dstate (spot E c.height DKey v s m k) =
      c.server.Dstate (spot E c.height DKey v s m k) := by
  have hnot : ∀ t, t ≤ S → (v = w → s ≠ t) → spot E c.height DKey v s m k ∉
      (met E c w src g.n).map fun d => spot E c.height DKey w t d.1 d.2 := by
    intro t ht' hst hmem
    obtain ⟨d, hd, e⟩ := List.mem_map.mp hmem
    obtain ⟨e1, e2, -⟩ := spot_inj hE hh hv hw hs ht' ht (met_inTree hd) e.symm
    exact hst e1 e2
  refine ((insertAll_spec _ _ _).2.2.2.1 _ ?_).trans (if_neg ?_)
  · rw [List.map_map]
    exact hnot (src + 1) hsrc fun e => (hne e).2
  · exact hnot src he.src_le fun e => (hne e).1

theorem searched_items (hsrc : src + 1 ≤ S) {s p : Nat} (hv : v ∈ ks) (hvw : v ≠ w) (hs : s ≤ S)
    (ht : InTree c.height 0 p) :
    (searched E c w src g).server.I (spot E c.height IKey v s 0 p) =
      c.server.I (spot E c.height IKey v s 0 p) := by
  have hnot : ∀ t, t ≤ S → spot E c.height IKey v s 0 p ∉
      ((List.range g.n).filter g.live).map fun q => spot E c.height IKey w t 0 q := by
    intro t ht' hmem
    obtain ⟨q, hq, e⟩ := List.mem_map.mp hmem
    exact hvw (spot_inj hE hh hv hw hs ht' ht (live_inTree hpos he hq) e.symm).1
  refine ((insertAll_spec _ _ _).2.1 _ ?_).trans (if_neg (hnot src he.src_le))
  rw [List.map_map]
  exact hnot (src + 1) hsrc

/-- **A search** moves the entry on to the next `src_cnt`. -/
theorem search_step (hn : 0 < g.n) (hsrc : src + 1 ≤ S) :
    Entry E S (searched E c w src g) w (src + 1) g ∧
      ∀ v ∈ ks, v ≠ w → Same E S c (searched E c w src g) v := by
  have hspec := insertAll_spec { c.server with
        I := without c.server.I (((List.range g.n).filter g.live).map
          fun p => spot E c.height IKey w src 0 p)
        Dstate := without c.server.Dstate
          ((met E c w src g.n).map fun d => spot E c.height DKey w src d.1 d.2) }
      (((List.range g.n).filter g.live).map
        fun p => (spot E c.height IKey w (src + 1) 0 p, cipherOf E w (g.idAt p)))
      ((met E c w src g.n).map fun d => (spot E c.height DKey w (src + 1) d.1 d.2, markValue E))
  have hdead : ∀ j i, markedIn E.aes c.height (bitwiseXOR DKey (getAESRandomValue E w src))
      c.server.Dstate j i = true → g.Dead j i := fun j i hM => by
    simp only [markedIn, Bool.and_eq_true, decide_eq_true_eq] at hM
    exact he.marked j i hM.1 hM.2
  refine ⟨⟨he.fit, hsrc, fun h => absurd h (by omega), ?_, he.colour, ?_, ?_, ?_, ?_, he.last⟩, ?_⟩
  · show Function.update c.LOcnt w _ w = _
    rw [Function.update_self, if_neg (by omega)]
  · -- new marks are the ones met
    intro m k ht hm
    by_cases hmem : (m, k) ∈ met E c w src g.n
    · exact hdead m k (marked_of_mem hmem)
    · have hnot : ∀ t, t ≤ S → spot E c.height DKey w (src + 1) m k ∉
          (met E c w src g.n).map fun d => spot E c.height DKey w t d.1 d.2 := by
        intro t ht' hin
        obtain ⟨d, hd, e⟩ := List.mem_map.mp hin
        obtain ⟨-, -, e1, e2⟩ :=
          spot_inj hE hh hw hw hsrc ht' ht (met_inTree hd) e.symm
        exact hmem (by rw [e1, e2]; exact hd)
      have hnone : (searched E c w src g).server.Dstate (spot E c.height DKey w (src + 1) m k) =
          none := by
        refine ((hspec.2.2.2.1 _ ?_).trans (if_neg (hnot src he.src_le))).trans
          (he.later (src + 1) (by omega) hsrc m k ht)
        rw [List.map_map]
        exact hnot (src + 1) hsrc
      exact absurd ((congrArg Option.isSome hnone).symm.trans hm) (by decide)
  · intro p hp hl
    obtain ⟨m, hm, hsome⟩ := he.covered p hp hl
    obtain ⟨i, hi⟩ := exists_mark (fun j i hM => (hdead j i hM).1) hp (j := m) (by
      simp only [markedIn, Bool.and_eq_true, decide_eq_true_eq]
      exact ⟨inTree_above (lt_of_lt_of_le hp he.fit) hm, hsome⟩)
    refine ⟨i, (met_inTree hi).1, hspec.2.2.2.2 _ ?_⟩
    rw [List.map_map]
    exact List.mem_map.mpr ⟨(i, p / 2 ^ i), hi, rfl⟩
  · intro s h1 h2 m k ht
    rw [← he.later s (by omega) h2 m k ht]
    exact searched_marks hE hh hw he hsrc hw h2 ht fun _ => ⟨by omega, by omega⟩
  · intro p hp hl
    have hmem : p ∈ (List.range g.n).filter g.live :=
      List.mem_filter.mpr ⟨List.mem_range.mpr hp, hl⟩
    refine hspec.2.2.1 ?_ _ (List.mem_map.mpr ⟨p, hmem, rfl⟩)
    rw [List.map_map]
    refine List.Nodup.map_on (fun q hq r hr e => ?_) (List.nodup_range.filter _)
    exact (spot_inj hE hh hw hw hsrc hsrc (live_inTree hpos he hq) (live_inTree hpos he hr) e).2.2.2
  · intro v hv hvw
    exact ⟨rfl, Function.update_of_ne hvw _ _, fun _ _ _ => rfl, fun _ _ => rfl,
      fun s hs m k ht => searched_marks hE hh hw he hsrc hv hs ht fun e => absurd e hvw,
      fun s hs p ht => searched_items hE hh hpos hw he hsrc hv hvw hs ht⟩

end

end SmallClientSSE.Qos
