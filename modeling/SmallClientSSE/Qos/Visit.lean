import SmallClientSSE.Qos.Walk

/-!
# What the server's search visits

For any marks at all in `Dstate` the covering set partitions the positions used, and the
walks down it list every leaf that lies below no mark of its covering subtree, and every
topmost mark, once each (`search_visits`). Nodes need numbers of type `int`, which the
leaves of a tree of 32 levels do not have (`no_cover_at_32`).
-/

namespace SmallClientSSE.Qos

open Lib Dyadic

/-- Subtrees whose leaf ranges partition the first `n` leaves. -/
structure Partition (cs : List Node) (n : Nat) : Prop where
  covers : ∀ p, p < n ↔ ∃ c ∈ cs, p / 2 ^ c.1 = c.2
  disjoint : cs.Pairwise fun c d => ∀ p, p / 2 ^ c.1 = c.2 → p / 2 ^ d.1 ≠ d.2

/-- No mark lies above the leaf `p` in the subtree of `c`. -/
def Unmarked (M : Nat → Nat → Bool) (c : Node) (p : Nat) : Prop :=
  ∀ j, j ≤ c.1 → M j (p / 2 ^ j) = false

/-- A mark in the subtree of `c` with none above it there. -/
structure Topmost (M : Nat → Nat → Bool) (c : Node) (j i : Nat) : Prop where
  le : j ≤ c.1
  below : i / 2 ^ (c.1 - j) = c.2
  marked : M j i = true
  top : ∀ l, j < l → l ≤ c.1 → M l (i / 2 ^ (l - j)) = false

/-- What the recursion leaves in `result`, `deletes` and `Dstate`. -/
structure Visited (A : Aes) (h : Nat) (key : Block) (D : Block → Option Block) (cs : List Node)
    (w : Server.Walk) : Prop where
  result_nodup : w.result.Nodup
  result : ∀ x, x ∈ w.result ↔
    ∃ c ∈ cs, ∃ p, p / 2 ^ c.1 = c.2 ∧ x = 2 ^ (h - 1) - 1 + p ∧ Unmarked (markedIn A h key D) c p
  deletes_nodup : w.deletes.Nodup
  deletes : ∀ x, x ∈ w.deletes ↔
    ∃ c ∈ cs, ∃ j i, x = index h j i ∧ Topmost (markedIn A h key D) c j i
  erased : ∀ a, w.Dstate a =
    if a ∈ w.deletes.map fun x => A.encodeBlock (atNode key x) none then none else D a

theorem cover_partition (n : Nat) : Partition (cover 0 n) n where
  covers p := by
    rw [mem_cover (aligned_zero n)]
    omega
  disjoint := cover_disjoint (aligned_zero n)

theorem mem_visit_unmarked {M : Nat → Nat → Bool} {c : Node} {p : Nat} :
    p ∈ (visit M c.1 c.2).1 ↔ p / 2 ^ c.1 = c.2 ∧ Unmarked M c p := by
  rw [mem_visit_leaves]
  refine and_congr_right fun _ => ⟨fun hno j hj => ?_, ?_⟩
  · exact eq_false_of_ne_true fun hM => hno ⟨j, hj, hM⟩
  · rintro hno ⟨j, hj, hM⟩
    rw [hno j hj] at hM
    cases hM

theorem mem_visit_topmost {M : Nat → Nat → Bool} {c : Node} {j i : Nat} :
    (j, i) ∈ (visit M c.1 c.2).2 ↔ Topmost M c j i := by
  rw [mem_visit_marks_iff]
  exact ⟨fun ⟨h1, h2, h3, h4⟩ => ⟨h1, h2, h3, h4⟩, fun ⟨h1, h2, h3, h4⟩ => ⟨h1, h2, h3, h4⟩⟩

section

variable {A : Aes} {h : Nat} {key : Block} {D : Block → Option Block} {n : Nat}

theorem cover_inTree (hpos : 0 < h) (hn : n ≤ 2 ^ (h - 1)) : ∀ c ∈ cover 0 n, InTree h c.1 c.2 :=
  fun c hc => inTree_of_end hpos ((cover_end (aligned_zero n) hc).trans (by omega))

theorem index_zero_inj {p q : Nat} (e : index h 0 p = index h 0 q) : p = q := by
  simp only [index] at e
  omega

theorem visited_cover :
    Visited A h key D (cover 0 n)
      { Dstate := without D ((marks (markedIn A h key D) 0 n).map (addr A h key))
        result := (found (markedIn A h key D) 0 n).map (index h 0)
        deletes := (marks (markedIn A h key D) 0 n).map fun c => index h c.1 c.2 } where
  result_nodup := by
    have hnd : (found (markedIn A h key D) 0 n).Nodup :=
      (found_sorted (aligned_zero n)).imp fun hlt => Nat.ne_of_lt hlt
    exact hnd.map fun p q => index_zero_inj
  result x := by
    simp only [List.mem_map, found, List.mem_flatMap, mem_visit_unmarked]
    constructor
    · rintro ⟨p, ⟨c, hc, hp, hno⟩, rfl⟩
      exact ⟨c, hc, p, hp, by rw [index, Nat.sub_zero], hno⟩
    · rintro ⟨c, hc, p, hp, rfl, hno⟩
      exact ⟨p, ⟨c, hc, hp, hno⟩, by rw [index, Nat.sub_zero]⟩
  deletes_nodup := by
    refine List.Nodup.map_on (fun c hc d hd e => ?_) (marks_nodup (aligned_zero n))
    have hin : ∀ c ∈ marks (markedIn A h key D) 0 n, InTree h c.1 c.2 := fun c hc => by
      have hM := marked_of_mem (j := c.1) (i := c.2) hc
      rw [markedIn, Bool.and_eq_true, decide_eq_true_eq] at hM
      exact hM.1
    obtain ⟨h1, h2⟩ := index_inj (hin c hc) (hin d hd) e
    exact Prod.ext h1 h2
  deletes x := by
    simp only [List.mem_map, marks, List.mem_flatMap]
    constructor
    · rintro ⟨⟨j, i⟩, ⟨c, hc, hmem⟩, rfl⟩
      exact ⟨c, hc, j, i, rfl, mem_visit_topmost.mp hmem⟩
    · rintro ⟨c, hc, j, i, rfl, htop⟩
      exact ⟨(j, i), ⟨c, hc, mem_visit_topmost.mpr htop⟩, rfl⟩
  erased a := by
    rw [List.map_map]
    rfl

/-- **A search visits exactly the right leaves.** -/
theorem search_visits (s : Server) (Dkey : Block) (a_w : Nat) (hpos : 1 ≤ s.height)
    (hh : s.height ≤ 31) (ha : a_w < 2 ^ (s.height - 1)) :
    ∃ cs : List Node, (∀ c ∈ cs, InTree s.height c.1 c.2) ∧ Partition cs (a_w + 1) ∧
      Server.findCoveringSet s.height a_w = some (cs.map fun c => index s.height c.1 c.2) ∧
      ∃ w, (cs.map fun c => index s.height c.1 c.2).foldlM
          (fun w index => Server.recursiveSearch A s.height Dkey s.height index w)
          ⟨s.Dstate, [], []⟩ = some w ∧
        Visited A s.height Dkey s.Dstate cs w ∧
        ∀ Ikey, ∃ result I, s.search A Ikey Dkey a_w =
          some (result, w.deletes, { s with I := I, Dstate := w.Dstate }) := by
  have hcover := findCoveringSet_eq hh hpos (n := a_w + 1) (by omega)
  rw [show ((a_w + 1 : Nat) : Int) - 1 = a_w by omega] at hcover
  have hwalk := @walks_spec A _ Dkey hh (cover 0 (a_w + 1)) ⟨s.Dstate, [], []⟩
    (cover_inTree hpos (by omega)) (cover_disjoint (aligned_zero _))
  simp only [List.nil_append] at hwalk
  refine ⟨cover 0 (a_w + 1), cover_inTree hpos (by omega), cover_partition _, hcover, _, hwalk,
    visited_cover, fun Ikey => ?_⟩
  unfold Server.search
  rw [hcover]
  simp only [Option.bind_eq_bind, Option.bind_some]
  rw [hwalk]
  exact ⟨_, _, rfl⟩

end

/-- A mark at the second leaf of a tree with three levels. -/
def markedServer : Server where
  height := 3
  I _ := none
  Dstate := Function.update (fun _ => none) (addr plainAes 3 Buf.zero (0, 1)) (some Buf.zero)

theorem search_visits_marked :
    ∃ cs : List Node, (∀ c ∈ cs, InTree 3 c.1 c.2) ∧ Partition cs 3 ∧
      Server.findCoveringSet 3 2 = some (cs.map fun c => index 3 c.1 c.2) ∧
      ∃ w, (cs.map fun c => index 3 c.1 c.2).foldlM
          (fun w index => Server.recursiveSearch plainAes 3 Buf.zero 3 index w)
          ⟨markedServer.Dstate, [], []⟩ = some w ∧
        Visited plainAes 3 Buf.zero markedServer.Dstate cs w ∧
        ∀ Ikey, ∃ result I, Server.search plainAes markedServer Ikey Buf.zero 2 =
          some (result, w.deletes, { markedServer with I := I, Dstate := w.Dstate }) :=
  search_visits markedServer Buf.zero 2 (by decide) (by decide) (by decide)

/-- A server for more than `2^30` items has a tree of 32 levels, and
`(int)(pow(2, height) - 1)` leaves the range of `int`. -/
theorem no_cover_at_32 : (Server.init ⟨2 ^ 30 + 1, by decide⟩).height = 32 ∧
    Server.findCoveringSet 32 0 = none := by
  refine ⟨heightOf_large, ?_⟩
  unfold Server.findCoveringSet
  rw [show ((0 : Int) + 1).toNat + 1 = 1 + 1 from rfl]
  unfold Server.coverLoop
  simp [getNodeOnPath_32]

end SmallClientSSE.Qos
