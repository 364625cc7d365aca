import SmallClientSSE.Qos.Tree

/-!
# The server's search

Under one key the nodes of the tree have distinct addresses, so the recursion of
`search` is the walk `visit` over the marks it finds in `Dstate`. `search_spec`
puts the walks down the covering set together: the leaves reached come back in
ascending order, and what was met leaves both maps.
-/

namespace SmallClientSSE.Qos

open Lib Dyadic

/-! ## Addresses -/

/-- The bytes of a key in front of the node number. -/
def head11 (b : Block) : Buf 11 := fun i => b ⟨i.val, by omega⟩

theorem head11_at (b : Block) {i : Nat} (hi : i < 11) : (head11 b).at' i = b.at' i := by
  rw [Buf.at'_of_lt _ hi, Buf.at'_of_lt _ (by omega)]
  rfl

theorem encodeBlock_inj {A : Aes} {a b : Block} {k : Option Block}
    (h : A.encodeBlock a k = A.encodeBlock b k) : head15 a = head15 b := by
  rw [← A.head15_decode a k, h, A.head15_decode]

theorem atNode_inj {A : Aes} {a b : Block} {x y : Int} (hx : InInt x) (hy : InInt y)
    (h : A.encodeBlock (atNode a x) none = A.encodeBlock (atNode b y) none) :
    head11 a = head11 b ∧ x = y := by
  have hat := head15_ext.mp (encodeBlock_inj h)
  simp only [atNode] at hat
  constructor
  · refine Buf.ext_at fun i hi => ?_
    have := hat i (by omega)
    rwa [Buf.putInt_at _ _ _ _ (by omega), Buf.putInt_at _ _ _ _ (by omega), if_neg (by omega),
      if_neg (by omega), ← head11_at a hi, ← head11_at b hi] at this
  · refine Buf.leByte_inj hx hy fun k hk => ?_
    have := hat (11 + k) (by omega)
    rwa [Buf.putInt_at _ _ _ _ (by omega), Buf.putInt_at _ _ _ _ (by omega), if_pos (by omega),
      if_pos (by omega), Nat.add_sub_cancel_left] at this

theorem InTree.inInt {h m k : Nat} (hh : h ≤ 31) (ht : InTree h m k) : InInt (index h m k) := by
  have h1 := index_nonneg (h := h) (m := m) (k := k)
  have h2 := ht.index_lt
  have h3 := pow_le_int hh
  exact ⟨by omega, by omega⟩

def without (D : Block → Option Block) (as : List Block) : Block → Option Block := fun a =>
  if a ∈ as then none else D a

theorem without_nil (D : Block → Option Block) : without D [] = D := by
  funext a
  simp [without]

theorem without_append (D : Block → Option Block) (as bs : List Block) :
    without (without D as) bs = without D (as ++ bs) := by
  funext a
  simp only [without, List.mem_append]
  by_cases h1 : a ∈ as <;> by_cases h2 : a ∈ bs <;> simp [h1, h2]

theorem update_none (D : Block → Option Block) (a : Block) :
    Function.update D a none = without D [a] := by
  funext b
  simp [without, Function.update_apply]

section

variable (A : Aes) (h : Nat) (key : Block)

def addr (c : Node) : Block := A.encodeBlock (atNode key (index h c.1 c.2)) none

def markedIn (D : Block → Option Block) (j i : Nat) : Bool :=
  decide (InTree h j i) && (D (addr A h key (j, i))).isSome

variable {A h key} (hh : h ≤ 31)

include hh

theorem addr_inj {m k j i : Nat} (h1 : InTree h m k) (h2 : InTree h j i)
    (e : addr A h key (m, k) = addr A h key (j, i)) : m = j ∧ k = i :=
  index_inj h1 h2 (atNode_inj (h1.inInt hh) (h2.inInt hh) e).2

/-- The marks met below one node are not below a disjoint one. -/
theorem markedIn_without {D : Block → Option Block} {cs : List Node} {j i : Nat}
    (hcs : ∀ c ∈ cs, InTree h c.1 c.2) (ht : InTree h j i) (hne : (j, i) ∉ cs) :
    markedIn A h key (without D (cs.map (addr A h key))) j i = markedIn A h key D j i := by
  unfold markedIn without
  rw [if_neg]
  intro hmem
  obtain ⟨c, hc, e⟩ := List.mem_map.mp hmem
  obtain ⟨e1, e2⟩ := addr_inj hh (hcs c hc) ht e
  exact hne (by rw [← e1, ← e2]; exact hc)

omit hh in
theorem visit_inTree {M : Nat → Nat → Bool} {m k : Nat} (ht : InTree h m k) :
    ∀ c ∈ (visit M m k).2, InTree h c.1 c.2 := fun c hc => by
  obtain ⟨h1, h2, -⟩ := mem_visit_marks (j := c.1) (i := c.2) hc
  exact ht.below h1 h2

/-- **The recursion** is the walk over the marks. -/
theorem recursiveSearch_spec {m k : Nat} (ht : InTree h m k) : ∀ {fuel : Nat} {w : Server.Walk},
    m < fuel → Server.recursiveSearch A h key fuel (index h m k) w = some
      { Dstate := without w.Dstate ((visit (markedIn A h key w.Dstate) m k).2.map (addr A h key))
        result := w.result ++ (visit (markedIn A h key w.Dstate) m k).1.map (index h 0)
        deletes := w.deletes ++
          (visit (markedIn A h key w.Dstate) m k).2.map fun c => index h c.1 c.2 } := by
  induction m generalizing k with
  | zero =>
    rintro (_ | fuel) w hlt
    · omega
    unfold Server.recursiveSearch visit
    have haddr : A.encodeBlock (atNode key (index h 0 k)) none = addr A h key (0, k) := rfl
    cases hD : w.Dstate (addr A h key (0, k)) with
    | none =>
      have hM : markedIn A h key w.Dstate 0 k = false := by simp [markedIn, hD]
      simp only [haddr, hD, if_true, (leaf_iff ht).mpr rfl, hM,
        Bool.false_eq_true, if_false, List.map_nil, without_nil, List.append_nil, List.map_cons]
    | some v =>
      have hM : markedIn A h key w.Dstate 0 k = true := by simp [markedIn, hD, ht]
      simp only [haddr, hD, reduceCtorEq, if_false, hM, if_true,
        List.map_nil, List.append_nil, List.map_cons, update_none]
  | succ m ih =>
    rintro (_ | fuel) w hlt
    · omega
    unfold Server.recursiveSearch visit
    have haddr : A.encodeBlock (atNode key (index h (m + 1) k)) none = addr A h key (m + 1, k) := rfl
    cases hD : w.Dstate (addr A h key (m + 1, k)) with
    | none =>
      have hleaf : ¬ index h (m + 1) k ≥ 2 ^ (h - 1) - 1 := fun e =>
        absurd ((leaf_iff ht).mp e) (by omega)
      have hM : markedIn A h key w.Dstate (m + 1) k = false := by simp [markedIn, hD]
      simp only [haddr, hD, if_true, hleaf, if_false, hM, Bool.false_eq_true,
        index_left ht.1, index_right ht.1]
      rw [ih ht.left (by omega)]
      simp only [Option.bind_eq_bind, Option.bind_some]
      rw [ih ht.right (by omega)]
      -- the marks met on the left are not below the right child
      have hright : visit (markedIn A h key (without w.Dstate
          ((visit (markedIn A h key w.Dstate) m (2 * k)).2.map (addr A h key)))) m (2 * k + 1) =
          visit (markedIn A h key w.Dstate) m (2 * k + 1) := by
        refine visit_congr fun j i hj hi => ?_
        refine markedIn_without hh (visit_inTree ht.left) (ht.right.below hj hi) fun hmem => ?_
        have := (mem_visit_marks hmem).2.1
        omega
      simp only [hright, without_append, List.map_append, List.append_assoc]
    | some v =>
      have hM : markedIn A h key w.Dstate (m + 1) k = true := by simp [markedIn, hD, ht]
      simp only [haddr, hD, reduceCtorEq, if_false, hM, if_true, List.map_nil, List.append_nil,
        List.map_cons, update_none]

theorem walks_spec : ∀ (cs : List Node) (w : Server.Walk), (∀ c ∈ cs, InTree h c.1 c.2) →
    (cs.Pairwise fun c d => ∀ p, p / 2 ^ c.1 = c.2 → p / 2 ^ d.1 ≠ d.2) →
    (cs.map fun c => index h c.1 c.2).foldlM
        (fun w index => Server.recursiveSearch A h key h index w) w = some
      { Dstate := without w.Dstate
          ((cs.flatMap fun c => (visit (markedIn A h key w.Dstate) c.1 c.2).2).map (addr A h key))
        result := w.result ++
          (cs.flatMap fun c => (visit (markedIn A h key w.Dstate) c.1 c.2).1).map (index h 0)
        deletes := w.deletes ++
          (cs.flatMap fun c => (visit (markedIn A h key w.Dstate) c.1 c.2).2).map
            fun c => index h c.1 c.2 } := by
  intro cs
  induction cs with
  | nil =>
    intro w _ _
    simp only [List.map_nil, List.foldlM_nil, List.flatMap_nil, without_nil, List.append_nil]
    rfl
  | cons c cs ih =>
    intro w hcs hd
    obtain ⟨hd1, hd2⟩ := List.pairwise_cons.mp hd
    have hc := hcs c List.mem_cons_self
    have hcs' := fun d hd => hcs d (List.mem_cons_of_mem _ hd)
    rw [List.map_cons, List.foldlM_cons, recursiveSearch_spec hh hc hc.1]
    simp only [Option.bind_eq_bind, Option.bind_some]
    rw [ih _ hcs' hd2]
    have hrest : ∀ d ∈ cs, visit (markedIn A h key (without w.Dstate
        ((visit (markedIn A h key w.Dstate) c.1 c.2).2.map (addr A h key)))) d.1 d.2 =
        visit (markedIn A h key w.Dstate) d.1 d.2 := fun d hdm => by
      refine visit_congr fun j i hj hi => ?_
      refine markedIn_without hh (visit_inTree hc) ((hcs' d hdm).below hj hi) fun hmem => ?_
      -- the first leaf of a common node would be below both
      obtain ⟨hjc, hic, -⟩ := mem_visit_marks hmem
      exact hd1 d hdm (i * 2 ^ j) ((first_leaf_above hjc).trans hic) ((first_leaf_above hj).trans hi)
    have h1 : (cs.flatMap fun d => (visit (markedIn A h key (without w.Dstate
        ((visit (markedIn A h key w.Dstate) c.1 c.2).2.map (addr A h key)))) d.1 d.2).1) =
        cs.flatMap fun d => (visit (markedIn A h key w.Dstate) d.1 d.2).1 :=
      List.flatMap_congr fun d hdm => by rw [hrest d hdm]
    have h2 : (cs.flatMap fun d => (visit (markedIn A h key (without w.Dstate
        ((visit (markedIn A h key w.Dstate) c.1 c.2).2.map (addr A h key)))) d.1 d.2).2) =
        cs.flatMap fun d => (visit (markedIn A h key w.Dstate) d.1 d.2).2 :=
      List.flatMap_congr fun d hdm => by rw [hrest d hdm]
    simp only [h1, h2, List.flatMap_cons, List.map_append, without_append, List.append_assoc]

end

/-! ## Taking the leaves -/

theorem assign_last {x : Int} {v : Block} : ∀ {m : List (Int × Block)}, (∀ e ∈ m, e.1 < x) →
    assign x v m = m ++ [(x, v)]
  | [], _ => rfl
  | (j, u) :: m, hm => by
    have hj := hm _ List.mem_cons_self
    simp only at hj
    rw [assign, if_neg (by omega), if_neg (by omega),
      assign_last fun e he => hm e (List.mem_cons_of_mem _ he), List.cons_append]

theorem take_spec {A : Aes} {h : Nat} {Ikey : Block} (hh : h ≤ 31) (cipher : Nat → Block) :
    ∀ (ps : List Nat) (I : Block → Option Block) (m : List (Int × Block)),
    (∀ p ∈ ps, InTree h 0 p) → ps.Pairwise (· < ·) →
    (∀ p ∈ ps, I (addr A h Ikey (0, p)) = some (cipher p)) →
    (∀ e ∈ m, ∀ p ∈ ps, e.1 < index h 0 p) →
    (ps.map (index h 0)).foldl (Server.take A Ikey) (I, m) =
      (without I (ps.map fun p => addr A h Ikey (0, p)),
        m ++ ps.map fun p => (index h 0 p, cipher p)) := by
  intro ps
  induction ps with
  | nil =>
    intro I m _ _ _ _
    simp [without_nil]
  | cons p ps ih =>
    intro I m ht hs hI hm
    obtain ⟨hs1, hs2⟩ := List.pairwise_cons.mp hs
    have hp := hI p List.mem_cons_self
    have hstep : Server.take A Ikey (I, m) (index h 0 p) =
        (without I [addr A h Ikey (0, p)], m ++ [(index h 0 p, cipher p)]) := by
      unfold Server.take
      simp only [show A.encodeBlock (atNode Ikey (index h 0 p)) none = addr A h Ikey (0, p) from rfl,
        hp, update_none]
      rw [assign_last fun e he => hm e he p List.mem_cons_self]
    have hlt : ∀ q ∈ ps, index h 0 p < index h 0 q := fun q hq => by
      have := hs1 q hq
      simp only [index]
      omega
    rw [List.map_cons, List.foldl_cons, hstep, ih _ _ (fun q hq => ht q (List.mem_cons_of_mem _ hq))
      hs2 (fun q hq => ?_) fun e he q hq => ?_]
    · simp only [without_append, List.map_cons, List.append_assoc, List.singleton_append]
    · have hne : addr A h Ikey (0, q) ≠ addr A h Ikey (0, p) := fun e => by
        have := (addr_inj hh (ht q (List.mem_cons_of_mem _ hq)) (ht p List.mem_cons_self) e).2
        have := hs1 q hq
        omega
      rw [without, if_neg (by simpa using hne)]
      exact hI q (List.mem_cons_of_mem _ hq)
    · rcases List.mem_append.mp he with he | he
      · exact hm e he q (List.mem_cons_of_mem _ hq)
      · rw [List.mem_singleton.mp he]
        exact hlt q hq

/-- **What a search finds**: the leaves below no mark, with their ciphers. -/
theorem Server.search_spec {A : Aes} {s : Server} {Ikey Dkey : Block} {n : Nat} {cipher : Nat → Block}
    (hh : s.height ≤ 31) (hpos : 0 < s.height) (hn : n ≤ 2 ^ (s.height - 1))
    (hI : ∀ p ∈ found (markedIn A s.height Dkey s.Dstate) 0 n,
      s.I (addr A s.height Ikey (0, p)) = some (cipher p)) :
    s.search A Ikey Dkey ((n : Int) - 1) = some
      ((found (markedIn A s.height Dkey s.Dstate) 0 n).map
          fun p => (index s.height 0 p, cipher p),
        (marks (markedIn A s.height Dkey s.Dstate) 0 n).map fun c => index s.height c.1 c.2,
        { s with
          I := without s.I ((found (markedIn A s.height Dkey s.Dstate) 0 n).map
            fun p => addr A s.height Ikey (0, p))
          Dstate := without s.Dstate
            ((marks (markedIn A s.height Dkey s.Dstate) 0 n).map (addr A s.height Dkey)) }) := by
  have htree : ∀ c ∈ cover 0 n, InTree s.height c.1 c.2 := fun c hc =>
    inTree_of_end hpos ((cover_end (aligned_zero n) hc).trans (by omega))
  have hleaf : ∀ p ∈ found (markedIn A s.height Dkey s.Dstate) 0 n, InTree s.height 0 p := by
    intro p hp
    obtain ⟨c, hc, hp⟩ := List.mem_flatMap.mp hp
    have := (mem_cover (aligned_zero n)).mp ⟨c, hc, (mem_visit_leaves.mp hp).1⟩
    refine ⟨hpos, ?_⟩
    rw [Nat.sub_zero]
    omega
  unfold Server.search
  rw [findCoveringSet_eq hh hpos hn]
  simp only [Option.bind_eq_bind, Option.bind_some]
  rw [walks_spec hh _ _ htree (cover_disjoint (aligned_zero n))]
  simp only [Option.bind_some, List.nil_append]
  have htake := take_spec hh cipher (found (markedIn A s.height Dkey s.Dstate) 0 n) s.I [] hleaf
    (found_sorted (aligned_zero n)) hI fun e he => absurd he List.not_mem_nil
  simp only [found, List.nil_append] at htake
  rw [htake]
  rfl

end SmallClientSSE.Qos
