import Mathlib.Order.CompletePartialOrder
import SmallClientSSE.Omap.Exact

/-!
# What the server sees

The server sees which buckets an operation reads. Every node is at the leaf of a draw of
its own (`Drawn`), and no operation has shown it (`Unshown`): an operation shows the
leaves of the nodes it touches and those of its fake reads, and ends with new draws for
the nodes touched (`finish_shows`). So no draw is shown by two operations of a run
(`views_disjoint`).
-/

namespace SmallClientSSE.Omap

open Lib ORAM BinaryTree

variable {n : Nat}

/-- Every node is at the leaf of a draw of its own. -/
structure Drawn (E : Env n) (V : Bid n → Option (Node n)) (o : ORAM n) (src : Bid n → Nat) :
    Prop where
  pos : ∀ {k nd}, V k = some nd → nd.pos = E.tape (src k)
  lt : ∀ {k nd}, V k = some nd → src k < o.draws
  inj : ∀ {j k md nd}, V j = some md → V k = some nd → src j = src k → j = k

/-- The draws of `A` were made, and no node is at one of them. -/
structure Unshown (E : Env n) (V : Bid n → Option (Node n)) (o : ORAM n) (src : Bid n → Nat)
    (A : Set Nat) : Prop extends Drawn E V o src where
  past : ∀ i ∈ A, i < o.draws
  hidden : ∀ {k nd}, V k = some nd → src k ∉ A

/-- The buckets `view` are the ones on the paths of the draws `S`. -/
def Shows (tape : Nat → Int) (depth : Nat) (view : List Int) (S : Set Nat) : Prop :=
  ∀ b, b ∈ view ↔ ∃ i ∈ S, OnPath depth (tape i) b

/-- Position updates that began at `o`, with nodes `V` at the draws `src`: nodes keep
their draw or, if touched, have a new one, as those of `K` do. -/
structure Redrawn (E : Env n) (o : ORAM n) (V : Bid n → Option (Node n)) (src : Bid n → Nat)
    (K : Set (Bid n)) (o' : ORAM n) (V' : Bid n → Option (Node n)) (src' : Bid n → Nat) :
    Prop where
  loaded : Loaded E V' o'
  steady : Steady o o'
  same : Same V V'
  drawn : Drawn E V' o' src'
  draws : o.draws ≤ o'.draws
  moved : ∀ k, src' k = src k ∨ k ∈ o.modified ∧ o.draws ≤ src' k
  fresh : ∀ k ∈ K, k ∈ o.modified → o.draws ≤ src' k

section

variable {E : Env n} {P : Bid n → Int} {V V' V1 : Bid n → Option (Node n)} {o o' o1 : ORAM n}
  {src src1 : Bid n → Nat} {K K' : Set (Bid n)} {k : Bid n} {i : Nat} {find : Bool}

/-! ## Fake reads -/

theorem fakeRead_draws (h : fakeRead E o = some o') : o'.draws = o.draws + 1 ∧
    ∀ l, l ∈ o'.leafList ↔ l = E.tape o.draws ∨ l ∈ o.leafList := by
  simp only [fakeRead, randomPath, ORAM.fetchPath] at h
  obtain ⟨w, -, rfl⟩ := Option.map_eq_some_iff.mp h
  refine ⟨?_, fun l => mem_addLeaf⟩
  rw [addLeaf_eq]

theorem pad_draws (h : pad E find o = some o') (hb : o.batchWrite = false) :
    o.draws ≤ o'.draws ∧ ∀ l, l ∈ o'.leafList ↔
      l ∈ o.leafList ∨ ∃ i, o.draws ≤ i ∧ i < o'.draws ∧ E.tape i = l := by
  simp only [pad, hb, Bool.false_eq_true, if_false] at h
  refine run_keeps (fun _ o' => o.draws ≤ o'.draws ∧ ∀ l, l ∈ o'.leafList ↔
    l ∈ o.leafList ∨ ∃ i, o.draws ≤ i ∧ i < o'.draws ∧ E.tape i = l) ⟨le_rfl, fun l => ?_⟩ h
    fun _ _ o1 o2 _ hI hstep => ?_
  · refine ⟨.inl, fun hl => hl.elim (fun hl => hl) ?_⟩
    rintro ⟨i, h1, h2, -⟩
    exact absurd h1 (Nat.not_le.mpr h2)
  · obtain ⟨hle, hI⟩ := hI
    obtain ⟨hd, hl⟩ := fakeRead_draws hstep
    refine ⟨by omega, fun l => ?_⟩
    rw [hl, hI]
    constructor
    · rintro (rfl | hl | ⟨i, h1, h2, e⟩)
      · exact .inr ⟨o1.draws, hle, by omega, rfl⟩
      · exact .inl hl
      · exact .inr ⟨i, h1, by omega, e⟩
    · rintro (hl | ⟨i, h1, h2, rfl⟩)
      · exact .inr (.inl hl)
      · by_cases hi : i = o1.draws
        · exact .inl (hi ▸ rfl)
        · exact .inr (.inr ⟨i, h1, by omega, rfl⟩)

/-! ## The position updates -/

theorem refreshNode_cases (E : Env n) (i : Nat) (o : ORAM n) (k : Bid n) :
    (refreshNode E i o k = o ∧ ∀ tmp, o.cache.lookup k = some tmp → tmp.height ≠ i) ∨
      ∃ tmp lp rp, o.cache.lookup k = some tmp ∧ tmp.height = i ∧ refreshNode E i o k = { o with
        cache := o.cache.put k { tmp with
          pos := if tmp.key ∈ o.modified then E.tape o.draws else tmp.pos
          leftPos := lp
          rightPos := rp }
        draws := if tmp.key ∈ o.modified then o.draws + 1 else o.draws } := by
  cases hlook : o.cache.lookup k with
  | none => exact .inl ⟨by simp [refreshNode, hlook], fun _ h => by cases h⟩
  | some tmp =>
    by_cases hi : tmp.height = i
    · subst hi
      obtain ⟨p, d, hp, hd, hdraw⟩ : ∃ p d, p = (if tmp.key ∈ o.modified then E.tape o.draws
          else tmp.pos) ∧ d = (if tmp.key ∈ o.modified then o.draws + 1 else o.draws) ∧
          (if tmp.key ∈ o.modified then randomPath E o else (tmp.pos, o)) =
            (p, { o with draws := d }) := by
        refine ⟨_, _, rfl, rfl, ?_⟩
        split <;> rfl
      let o2 : ORAM n := { o with
        cache := o.cache.put k { tmp with pos := p }
        draws := d }
      refine .inr ⟨tmp, childPos o2 tmp.leftID tmp.leftPos, childPos o2 tmp.rightID tmp.rightPos,
        rfl, rfl, ?_⟩
      rw [← hp, ← hd]
      simp only [refreshNode, hlook, if_true, hdraw]
      congr 1
      exact AList.insert_insert ..
    · refine .inl ⟨by simp [refreshNode, hlook, hi], fun md h => ?_⟩
      rwa [← Option.some.inj h]

theorem Redrawn.mono (h : Redrawn E o V src K o1 V1 src1)
    (hK : ∀ k ∈ K', k ∈ o.modified → k ∈ K) : Redrawn E o V src K' o1 V1 src1 :=
  ⟨h.loaded, h.steady, h.same, h.drawn, h.draws, h.moved,
    fun k hk hm => h.fresh k (hK k hk hm) hm⟩

theorem Redrawn.tick (h : Redrawn E o V src K o1 V1 src1) (time : Nat) :
    Redrawn E o V src K { o1 with time := time } V1 src1 :=
  ⟨⟨h.loaded.keeps, h.loaded.reads, h.loaded.view, h.loaded.leaves, h.loaded.pos⟩,
    ⟨h.steady.depth, h.steady.maxHeight, h.steady.batch, h.steady.store, h.steady.leafs,
      h.steady.view, h.steady.written, h.steady.modified, h.steady.count, h.steady.cache⟩,
    h.same, ⟨h.drawn.pos, h.drawn.lt, h.drawn.inj⟩, h.draws, h.moved, h.fresh⟩

theorem Round.same_node (hout : ∀ j, j ≠ k → V' j = V j) (hr : Round V o i k (V' k)) :
    Same V V' := by
  intro j
  by_cases hj : j = k
  · subst hj
    refine ⟨hr.gone, fun nd hV => ?_⟩
    by_cases hc : j ∈ o.cache ∧ nd.height = i
    · obtain ⟨nd', hx, ⟨p, lp, rp, rfl⟩, -⟩ := hr.fresh hV hc.1 hc.2
      exact ⟨p, lp, rp, hx⟩
    · exact ⟨_, _, _, hr.kept hV (by tauto)⟩
  · rw [hout j hj]
    exact Same.refl V j

/-- **One node** is updated. -/
theorem Redrawn.node (h : Redrawn E o V src K o1 V1 src1) (htape : ∀ i, Leaf o.depth (E.tape i))
    (i : Nat) (k : Bid n) : ∃ V2 src2, Redrawn E o V src
      (K ∪ {j | j = k ∧ k ∈ o.cache ∧ ∃ nd, V j = some nd ∧ nd.height = i})
      (refreshNode E i o1 k) V2 src2 := by
  obtain ⟨V2, h2, hs2, hout, hround⟩ := refreshNode_spec (i := i) (k := k) h.loaded
    (h.steady.depth ▸ htape)
  have hsame := h.same.trans (Round.same_node hout hround)
  rcases refreshNode_cases E i o1 k with ⟨heq, hno⟩ | ⟨tmp, lp, rp, hlook, hi, heq⟩
  · -- nothing changes
    rw [heq]
    refine ⟨V1, src1, h.loaded, h.steady, h.same, h.drawn, h.draws, h.moved, fun j hj hm => ?_⟩
    rcases hj with hj | ⟨rfl, hk, nd, hV, hi⟩
    · exact h.fresh j hj hm
    · obtain ⟨p, lp, rp, hV1⟩ := (h.same j).2 nd hV
      exact (hno _ (h.loaded.lookup hV1 ((h.steady.cache j).mpr hk)) hi).elim
  · have hkey : tmp.key = k := h.loaded.keeps.keyed hlook
    have hk1 : k ∈ o1.cache := AList.lookup_isSome.mp (by rw [hlook]; rfl)
    by_cases hm : tmp.key ∈ o1.modified
    · -- a new draw
      rw [if_pos hm, if_pos hm] at heq
      have hlook2 : (refreshNode E i o1 k).cache.lookup k = some { tmp with
          pos := E.tape o1.draws
          leftPos := lp
          rightPos := rp } := by
        rw [heq]
        exact AList.lookup_insert _
      have hdraws : (refreshNode E i o1 k).draws = o1.draws + 1 := by rw [heq]
      have hmo : k ∈ o.modified := hkey ▸ h.steady.modified ▸ hm
      refine ⟨V2, Function.update src1 k o1.draws, h2, h.steady.trans hs2, hsame,
        ⟨fun {j nd} hV => ?_, fun {j nd} hV => ?_, fun {j j' md nd} hVj hVj' he => ?_⟩,
        h.draws.trans (by rw [hdraws]; exact Nat.le_succ _), fun j => ?_, fun j hj hmj => ?_⟩
      · by_cases hj : j = k
        · subst hj
          have := h2.lookup hV ((hs2.cache j).mpr hk1)
          rw [hlook2] at this
          rw [← Option.some.inj this, Function.update_self]
        · rw [Function.update_of_ne hj]
          exact h.drawn.pos (hout j hj ▸ hV)
      · rw [hdraws]
        by_cases hj : j = k
        · subst hj
          rw [Function.update_self]
          exact Nat.lt_succ_self _
        · rw [Function.update_of_ne hj]
          exact (h.drawn.lt (hout j hj ▸ hV)).trans (Nat.lt_succ_self _)
      · by_cases hj : j = k <;> by_cases hj' : j' = k
        · rw [hj, hj']
        · rw [hj, Function.update_self, Function.update_of_ne hj'] at he
          exact absurd he (h.drawn.lt (hout j' hj' ▸ hVj')).ne'
        · rw [hj', Function.update_self, Function.update_of_ne hj] at he
          exact absurd he (h.drawn.lt (hout j hj ▸ hVj)).ne
        · rw [Function.update_of_ne hj, Function.update_of_ne hj'] at he
          exact h.drawn.inj (hout j hj ▸ hVj) (hout j' hj' ▸ hVj') he
      · by_cases hj : j = k
        · subst hj
          rw [Function.update_self]
          exact .inr ⟨hmo, h.draws⟩
        · rw [Function.update_of_ne hj]
          exact h.moved j
      · by_cases hjk : j = k
        · subst hjk
          rw [Function.update_self]
          exact h.draws
        · rw [Function.update_of_ne hjk]
          exact h.fresh j (hj.resolve_right fun hj => hjk hj.1) hmj
    · -- a node that was not touched keeps its draw
      rw [if_neg hm, if_neg hm] at heq
      have hlook2 : (refreshNode E i o1 k).cache.lookup k = some { tmp with
          pos := tmp.pos
          leftPos := lp
          rightPos := rp } := by
        rw [heq]
        exact AList.lookup_insert _
      have hdraws : (refreshNode E i o1 k).draws = o1.draws := by rw [heq]
      have hV1 : ∀ {j nd}, V2 j = some nd → ∃ nd1, V1 j = some nd1 ∧ nd.pos = nd1.pos := by
        intro j nd hV
        by_cases hj : j = k
        · subst hj
          cases hV1 : V1 j with
          | none =>
            rw [hround.gone hV1] at hV
            cases hV
          | some nd1 =>
            obtain rfl := Option.some.inj ((h.loaded.lookup hV1 hk1).symm.trans hlook)
            have := h2.lookup hV ((hs2.cache j).mpr hk1)
            rw [hlook2] at this
            exact ⟨nd1, rfl, by rw [← Option.some.inj this]⟩
        · exact ⟨nd, hout j hj ▸ hV, rfl⟩
      refine ⟨V2, src1, h2, h.steady.trans hs2, hsame,
        ⟨fun {j nd} hV => ?_, fun {j nd} hV => ?_, fun {j j' md nd} hVj hVj' he => ?_⟩,
        by rw [hdraws]; exact h.draws, h.moved, fun j hj hmj => ?_⟩
      · obtain ⟨nd1, hV', hpos⟩ := hV1 hV
        exact hpos.trans (h.drawn.pos hV')
      · obtain ⟨nd1, hV', -⟩ := hV1 hV
        rw [hdraws]
        exact h.drawn.lt hV'
      · obtain ⟨md1, hVj1, -⟩ := hV1 hVj
        obtain ⟨nd1, hVj1', -⟩ := hV1 hVj'
        exact h.drawn.inj hVj1 hVj1' he
      · rcases hj with hj | ⟨rfl, -⟩
        · exact h.fresh j hj hmj
        · rw [hkey, h.steady.modified] at hm
          exact absurd hmj hm

theorem Redrawn.foldNodes (htape : ∀ i, Leaf o.depth (E.tape i)) (i : Nat) (ks : List (Bid n)) :
    ∀ {K o1 V1 src1}, Redrawn E o V src K o1 V1 src1 → ∃ V2 src2, Redrawn E o V src
      (K ∪ {j | j ∈ ks ∧ j ∈ o.cache ∧ ∃ nd, V j = some nd ∧ nd.height = i})
      (ks.foldl (refreshNode E i) o1) V2 src2 := by
  induction ks with
  | nil => exact fun h => ⟨_, _, h.mono fun k hk _ => hk.resolve_right fun h => by cases h.1⟩
  | cons k ks ih =>
    intro K o1 V1 src1 h
    obtain ⟨V2, src2, h2⟩ := h.node htape i k
    obtain ⟨V3, src3, h3⟩ := ih h2
    refine ⟨V3, src3, h3.mono fun j hj _ => ?_⟩
    rcases hj with hj | ⟨hj, hc, hn⟩
    · exact .inl (.inl hj)
    · rcases List.mem_cons.mp hj with rfl | hj
      exacts [.inl (.inr ⟨rfl, hc, hn⟩), .inr ⟨hj, hc, hn⟩]

/-- **One round** of the position updates. -/
theorem Redrawn.round (h : Redrawn E o V src K o1 V1 src1)
    (htape : ∀ i, Leaf o.depth (E.tape i)) (htouched : ∀ k ∈ o.modified, k ∈ o.cache) (i : Nat) :
    ∃ V2 src2, Redrawn E o V src (K ∪ {j | ∃ nd, V j = some nd ∧ nd.height = i})
      (refreshHeight E o1 i) V2 src2 := by
  have hperm := (E.order.perm o1.time 0 o1.cache.pairs).map Prod.fst
  obtain ⟨V2, src2, h2⟩ := Redrawn.foldNodes htape i
    ((E.order.order o1.time 0 o1.cache.pairs).map Prod.fst) (h.tick (o1.time + 1))
  refine ⟨V2, src2, h2.mono fun j hj hm => hj.imp_right fun hn => ?_⟩
  have hc := htouched j hm
  obtain ⟨b, hb⟩ :=
    Option.isSome_iff_exists.mp (AList.lookup_isSome.mpr ((h.steady.cache j).mpr hc))
  exact ⟨hperm.symm.subset (List.mem_map_of_mem (f := Prod.fst) (Table.mem_pairs.mpr hb)), hc, hn⟩

/-- **The position updates** draw new leaves for the nodes touched. -/
theorem refresh_redrawn (h : Loaded E V o) (hd : Drawn E V o src)
    (htape : ∀ i, Leaf o.depth (E.tape i)) (htouched : ∀ k ∈ o.modified, k ∈ o.cache) :
    ∃ V' src', Redrawn E o V src
      {j | ∃ nd, V j = some nd ∧ 1 ≤ nd.height ∧ nd.height ≤ o.maxHeightOfAVLTree}
      (refresh E o) V' src' := by
  have key : ∀ H, ∃ V' src', Redrawn E o V src
      {j | ∃ nd, V j = some nd ∧ 1 ≤ nd.height ∧ nd.height ≤ H}
      ((List.range' 1 H).foldl (refreshHeight E) o) V' src' := by
    intro H
    induction H with
    | zero =>
      refine ⟨V, src, h, Steady.refl o, Same.refl V, hd, le_rfl, fun _ => .inl rfl, ?_⟩
      rintro k ⟨nd, -, h1, h2⟩
      omega
    | succ H ih =>
      obtain ⟨V1, src1, h1⟩ := ih
      rw [List.range'_1_concat, List.foldl_append, Nat.add_comm 1 H]
      obtain ⟨V2, src2, h2⟩ := h1.round htape htouched (H + 1)
      refine ⟨V2, src2, h2.mono ?_⟩
      rintro j ⟨nd, hV, hlo, hhi⟩ -
      by_cases hH : nd.height ≤ H
      · exact .inl ⟨nd, hV, hlo, hH⟩
      · exact .inr ⟨nd, hV, by omega⟩
  exact key o.maxHeightOfAVLTree

/-! ## Operations -/

theorem Repr.heights {id : Bid n} {pos : Int} {t : Tree n} (hr : Repr V id pos t) (hok : AVL.Ok t)
    (hk : k ∈ keys t) : ∃ nd, V k = some nd ∧ 1 ≤ nd.height ∧ nd.height ≤ AVL.height t := by
  induction t generalizing id pos with
  | nil => cases hk
  | node e l r ihl ihr =>
    obtain ⟨he, -, -, hokl, hokr⟩ := hok
    obtain ⟨nd, hV, -, rfl, hl, hrr⟩ := hr
    replace he : nd.height = max (AVL.height l) (AVL.height r) + 1 := he
    show ∃ md, V k = some md ∧ 1 ≤ md.height ∧ md.height ≤ nd.height
    rw [keys_node, List.mem_append, List.mem_cons] at hk
    rcases hk with hk | rfl | hk
    · obtain ⟨md, hmd, h1, h2⟩ := ihl hl hokl hk
      exact ⟨md, hmd, h1, by omega⟩
    · exact ⟨nd, hV, by omega, le_rfl⟩
    · obtain ⟨md, hmd, h1, h2⟩ := ihr hrr hokr hk
      exact ⟨md, hmd, h1, by omega⟩

section

variable {t u : Tree n} {m m1 m' : OMAP n} {A : Set Nat} {T : Set (Bid n)} {c d : Nat} {key : Bid n}

theorem finish_parts {o1 o3 : ORAM n} (ho1 : pad E find m.oram = some o1)
    (ho3 : evict E (refresh E o1) = some o3) (hfin : OMAP.finish E find m = some m') :
    m'.oram = o3 := by
  obtain ⟨⟨pos', o'⟩, hfin, hm'⟩ := Option.bind_eq_some_iff.mp hfin
  obtain ⟨o1', ho1', hfin⟩ := Option.bind_eq_some_iff.mp hfin
  obtain rfl := Option.some.inj (ho1.symm.trans ho1')
  obtain ⟨root, -, hfin⟩ := Option.bind_eq_some_iff.mp hfin
  obtain ⟨o3', ho3', hfin⟩ := Option.bind_eq_some_iff.mp hfin
  obtain rfl := Option.some.inj (ho3.symm.trans ho3')
  obtain ⟨-, rfl⟩ := Prod.mk.inj (Option.some.inj hfin)
  rw [← Option.some.inj hm']

/-- **The end of an operation** shows the draws of the nodes touched and some new ones;
then the nodes touched are at newer ones. -/
theorem finish_shows (h : Working E P V t m) (hb : m.oram.batchWrite = false)
    (hw : m.oram.writeviewmap = []) (htape : ∀ i, Leaf m.oram.depth (E.tape i)) (ht : t ≠ .nil)
    (hH : t.height ≤ m.oram.maxHeightOfAVLTree) (hd : Drawn E V m.oram src)
    (honly : ∀ l ∈ m.oram.leafList, ∃ k ∈ m.oram.modified, P k = l)
    (hkeys : ∀ k ∈ m.oram.modified, k ∈ keys t) (hfin : OMAP.finish E find m = some m') :
    ∃ V' src' d, Rest E V' m'.oram ∧ Drawn E V' m'.oram src' ∧ m.oram.draws ≤ d ∧
      d ≤ m'.oram.draws ∧ Shows E.tape m.oram.depth m'.oram.readviewmap
        {i | (∃ k ∈ m.oram.modified, src k = i) ∨ m.oram.draws ≤ i ∧ i < d} ∧
      ∀ k nd, V' k = some nd →
        d ≤ src' k ∨ src' k = src k ∧ k ∉ m.oram.modified ∧ V k ≠ none := by
  obtain ⟨o1, ho1, h1, hg1, hmod1, -⟩ := pad_spec find h.mid hb htape
  obtain ⟨hle, hleafs⟩ := pad_draws ho1 hb
  have hb1 : o1.batchWrite = false := hg1.batch.trans hb
  have hd1 : Drawn E V o1 src := ⟨hd.pos, fun hV => (hd.lt hV).trans_le hle, hd.inj⟩
  obtain ⟨V', src', hr⟩ := refresh_redrawn h1.toLoaded hd1 (hg1.depth ▸ htape) h1.touched
  obtain ⟨o3, ho3, hrest, -⟩ := evict_spec hr.loaded
    (hr.steady.written.trans (hg1.written.trans hw))
    (hr.steady.lost.trans (lost_eq_empty (h1.reads hb1)))
  have hrepr := h.rooted.repr ht
  have hnode : ∀ k ∈ m.oram.modified, ∃ nd, V k = some nd ∧ 1 ≤ nd.height ∧
      nd.height ≤ m.oram.maxHeightOfAVLTree := fun k hk => by
    obtain ⟨nd, hV, hlo, hhi⟩ := hrepr.heights h.ok (hkeys k hk)
    exact ⟨nd, hV, hlo, hhi.trans (h.ok.height_eq ▸ hH)⟩
  obtain rfl := finish_parts ho1 ho3 hfin
  obtain ⟨hview, hdraws⟩ : m'.oram.readviewmap = o1.readviewmap ∧
      m'.oram.draws = (refresh E o1).draws := by
    obtain ⟨w, -, he⟩ := Option.map_eq_some_iff.mp ho3
    rw [← he]
    exact ⟨hr.steady.view, rfl⟩
  refine ⟨V', src', o1.draws, hrest, ⟨hr.drawn.pos, fun hV => hdraws ▸ hr.drawn.lt hV,
    hr.drawn.inj⟩, hle, hdraws ▸ hr.draws, fun b => ?_, fun k nd hV => ?_⟩
  · rw [hview]
    constructor
    · intro hmem
      obtain ⟨l, hl, hon⟩ := h1.view b hmem
      rw [hg1.depth] at hon
      rcases (hleafs l).mp hl with hl | ⟨i, hi, hi', rfl⟩
      · obtain ⟨k, hk, rfl⟩ := honly l hl
        obtain ⟨nd, hV, -⟩ := hnode k hk
        exact ⟨src k, .inl ⟨k, hk, rfl⟩, by rwa [← hd.pos hV, h.mid.place hV]⟩
      · exact ⟨i, .inr ⟨hi, hi'⟩, hon⟩
    · rintro ⟨i, hi, hon⟩
      rw [← hg1.depth] at hon
      refine h1.reads hb1 (E.tape i) ((hleafs _).mpr ?_) b hon
      rcases hi with ⟨k, hk, rfl⟩ | ⟨hi, hi'⟩
      · obtain ⟨nd, hV, -⟩ := hnode k hk
        rw [← hd.pos hV, h.mid.place hV]
        exact .inl (h.mid.seen k hk)
      · exact .inr ⟨i, hi, hi', rfl⟩
  · have hVk : V k ≠ none := fun hn => by
      rw [(hr.same k).1 hn] at hV
      cases hV
    by_cases hk : k ∈ m.oram.modified
    · exact .inl (hr.fresh k (hg1.maxHeight ▸ hnode k hk) (hmod1 ▸ hk))
    · rcases hr.moved k with he | ⟨hm, -⟩
      · exact .inr ⟨he, hk, hVk⟩
      · exact absurd (hmod1 ▸ hm) hk

/-- The draws of the nodes, of which at most `key` is new, at the draw `i`. -/
theorem Drawn.add {i : Nat} (h : Drawn E V o src) (hi : o.draws = i)
    (hplace : ∀ {k nd}, V1 k = some nd → nd.pos = places E V o k)
    (hnew : ∀ k, V k = none → V1 k ≠ none → k = key ∧ i < o1.draws) (hle : i ≤ o1.draws) :
    Drawn E V1 o1 fun k => if V k = none then i else src k := by
  have hsrc : ∀ {k}, V k ≠ none → src k < i := fun {k} hV => by
    obtain ⟨nd, hnd⟩ := Option.ne_none_iff_exists'.mp hV
    exact hi ▸ h.lt hnd
  refine ⟨fun {k nd} hV1 => ?_, fun {k nd} hV1 => ?_, fun {j k md nd} hj hk he => ?_⟩
  · rw [hplace hV1]
    cases hV : V k with
    | none =>
      rw [if_pos rfl, ← hi, places, hV]
      rfl
    | some nd0 =>
      rw [if_neg (Option.some_ne_none _), ← h.pos hV, places, hV]
      rfl
  · by_cases hV : V k = none
    · rw [if_pos hV]
      exact (hnew k hV (by rw [hV1]; exact Option.some_ne_none _)).2
    · rw [if_neg hV]
      exact (hsrc hV).trans_le hle
  · by_cases hVj : V j = none <;> by_cases hVk : V k = none
    · rw [(hnew j hVj (by rw [hj]; exact Option.some_ne_none _)).1,
        (hnew k hVk (by rw [hk]; exact Option.some_ne_none _)).1]
    · rw [if_pos hVj, if_neg hVk] at he
      exact absurd he (hsrc hVk).ne'
    · rw [if_neg hVj, if_pos hVk] at he
      exact absurd he (hsrc hVj).ne
    · rw [if_neg hVj, if_neg hVk] at he
      obtain ⟨nj, hnj⟩ := Option.ne_none_iff_exists'.mp hVj
      obtain ⟨nk, hnk⟩ := Option.ne_none_iff_exists'.mp hVk
      exact h.inj hnj hnk he

/-- **One operation** shows draws that were not shown before. -/
theorem Unshown.operation (h : Unshown E V m.oram src A) (hrest : Rest E V m.oram)
    (hw : Working E (places E V m.oram) V1 u m1)
    (hd : Does E (places E V m.oram) V1 (ORAM.start false m.oram) m1.oram T c d)
    (hT : ∀ k ∈ T, k ∈ keys u)
    (hnew : ∀ k, V k = none → V1 k ≠ none → k = key ∧ m.oram.draws < m1.oram.draws)
    (htape : ∀ i, Leaf m.oram.depth (E.tape i)) (hu : u ≠ .nil)
    (hH : u.height ≤ m.oram.maxHeightOfAVLTree) (hfin : OMAP.finish E find m1 = some m') :
    ∃ V' src' S, Rest E V' m'.oram ∧ Unshown E V' m'.oram src' (A ∪ S) ∧ Disjoint A S ∧
      Shows E.tape m.oram.depth m'.oram.readviewmap S := by
  have hmod : ∀ k, k ∈ m1.oram.modified ↔ k ∈ T := fun k => by
    rw [hd.modified]
    show _ ∨ k ∈ m.oram.modified ↔ _
    rw [hrest.modified]
    simp
  have hle : m.oram.draws ≤ m1.oram.draws := hd.grows.draws
  let src1 : Bid n → Nat := fun k => if V k = none then m.oram.draws else src k
  have hold : ∀ {k}, V k ≠ none → src1 k = src k := fun hV => if_neg hV
  have hfirst : ∀ {k}, V k = none → src1 k = m.oram.draws := fun hV => if_pos hV
  have hd1 : Drawn E V1 m1.oram src1 := h.toDrawn.add rfl hw.mid.place hnew hle
  have hA : ∀ k, src1 k ∉ A := fun k hk => by
    by_cases hV : V k = none
    · rw [hfirst hV] at hk
      exact absurd (h.past _ hk) (lt_irrefl _)
    · rw [hold hV] at hk
      obtain ⟨nd, hnd⟩ := Option.ne_none_iff_exists'.mp hV
      exact h.hidden hnd hk
  have honly : ∀ l ∈ m1.oram.leafList, ∃ k ∈ m1.oram.modified, places E V m.oram k = l := by
    intro l hl
    obtain ⟨k, hk, e⟩ := (hd.only l hl).resolve_left fun hl => by
      replace hl : l ∈ m.oram.leafList := hl
      rw [hrest.leafs] at hl
      cases hl
    exact ⟨k, (hmod k).mpr hk, e⟩
  obtain ⟨V', src', d, hrest', hdrawn, hd0, hd', hshows, hsrc'⟩ := finish_shows hw
    hd.grows.batch hd.grows.written (hd.grows.depth ▸ htape) hu (hd.grows.maxHeight ▸ hH) hd1 honly
    (fun k hk => hT k ((hmod k).mp hk)) hfin
  have hkey : ∀ k ∈ m1.oram.modified, V1 k ≠ none := fun k hk => by
    obtain ⟨nd, hV⟩ := (hw.rooted.repr hu).mem (hT k ((hmod k).mp hk))
    rw [hV]
    exact Option.some_ne_none _
  have hlt : ∀ k, V1 k ≠ none → src1 k < m1.oram.draws := fun k hV => by
    obtain ⟨nd, hnd⟩ := Option.ne_none_iff_exists'.mp hV
    exact hd1.lt hnd
  refine ⟨V', src', _, hrest', ⟨hdrawn, fun i hi => ?_, fun {k nd} hV hk => ?_⟩, ?_,
    hd.grows.depth ▸ hshows⟩
  · rcases hi with hi | ⟨k, hk, rfl⟩ | ⟨-, hi⟩
    · exact (h.past i hi).trans_le (hle.trans (hd0.trans hd'))
    · exact (hlt k (hkey k hk)).trans_le (hd0.trans hd')
    · exact hi.trans_le hd'
  · rcases hsrc' k nd hV with hge | ⟨he, hnot, hV1⟩
    · rcases hk with hk | ⟨j, hj, he⟩ | ⟨-, hi⟩
      · exact absurd (h.past _ hk) (by omega)
      · exact absurd (hlt j (hkey j hj)) (by omega)
      · omega
    · rw [he] at hk
      rcases hk with hk | ⟨j, hj, he⟩ | ⟨hi, -⟩
      · exact hA k hk
      · obtain ⟨nj, hnj⟩ := Option.ne_none_iff_exists'.mp (hkey j hj)
        obtain ⟨nk, hnk⟩ := Option.ne_none_iff_exists'.mp hV1
        exact hnot (hd1.inj hnj hnk he ▸ hj)
      · exact absurd (hlt k hV1) (Nat.not_lt.mpr hi)
  · refine Set.disjoint_left.mpr fun i hi hS => ?_
    rcases hS with ⟨k, -, rfl⟩ | ⟨hge, -⟩
    · exact hA k hi
    · exact absurd (h.past i hi) (by omega)

/-- Between operations: what is stored, and the draws `A` shown. -/
structure Concealed (E : Env n) (t : Tree n) (m : OMAP n) (A : Set Nat) : Prop where
  nodes : ∃ V src, Stored E V t m ∧ Unshown E V m.oram src A

variable {fuel : Nat} {value : Str} (hlive : ∀ k, E.live k = true)
  (htape : ∀ i, Leaf m.oram.depth (E.tape i))

include hlive htape

theorem find_shows (key : Bid n) (hfuel : t.height < fuel) (h : Concealed E t m A)
    (hH : t.height ≤ m.oram.maxHeightOfAVLTree) (ht : t ≠ .nil) :
    ∃ m' S, OMAP.find E fuel key m = some ((contents t).find key, m') ∧
      Concealed E t m' (A ∪ S) ∧ Disjoint A S ∧ Shows E.tape m.oram.depth m'.oram.readviewmap S ∧
      Settings m.oram m'.oram := by
  obtain ⟨V, src, hst, hun⟩ := h.nodes
  obtain ⟨V', m', hm', hst', -, hset, -⟩ := find_spec hlive htape key hfuel hst (.inl hH)
  have hw := hst.start false
  obtain ⟨r, o1, ho1, hw1, hn1, -, hres⟩ := search_text key hw hfuel
  have hroot : m.rootKey.isZero = false := by
    obtain ⟨-, hV, -⟩ := hw.root ht
    obtain ⟨nd, hV⟩ := Option.ne_none_iff_exists'.mp hV
    exact isZero_of_real (hw.mid.real hV)
  have hfin : OMAP.finish E true { m with oram := o1 } = some m' := by
    simp only [OMAP.find, hroot, Bool.false_eq_true, if_false, ho1, Option.bind_eq_bind,
      Option.bind_some, Option.pure_def] at hm'
    have hend : ∀ {res}, ((finilize E true m.rootKey o1).bind fun c =>
        some (res, (⟨m.rootKey, c.1, c.2⟩ : OMAP n))) = some ((contents t).find key, m') →
        OMAP.finish E true { m with oram := o1 } = some m' := by
      intro res he
      obtain ⟨⟨pos', o'⟩, hfin, he⟩ := Option.bind_eq_some_iff.mp he
      obtain ⟨-, rfl⟩ := Prod.mk.inj (Option.some.inj he)
      simp only [OMAP.finish, hfin, Option.bind_eq_bind, Option.bind_some, Option.pure_def]
    cases r with
    | none => exact hend hm'
    | some k =>
      obtain ⟨res, -, hm'⟩ := Option.bind_eq_some_iff.mp hm'
      exact hend hm'
  have hold : ∀ k, V k = none → V k ≠ none → k = key ∧ m.oram.draws < o1.draws :=
    fun k hV hV' => absurd hV hV'
  obtain ⟨V2, src', S, hrest, hun', hdisj, hshows⟩ := hun.operation hst.rest hw1 hn1
    (fun k hk => mem_keys_of_searched hk) hold htape ht hH hfin
  obtain rfl := hst'.rest.unique hrest
  exact ⟨m', S, hm', ⟨_, src', hst', hun'⟩, hdisj, hshows, hset⟩

theorem insert_shows (key : Bid n) (hv : value.length ≤ 16) (hkey : key.isZero = false)
    (hfuel : t.height < fuel) (h : Concealed E t m A)
    (hu : AVL.insert key (Buf.zero.copyStr value) t = some u)
    (hH : u.height ≤ m.oram.maxHeightOfAVLTree) :
    ∃ m' S, OMAP.insert E fuel key value m = some m' ∧
      Concealed E u m' (A ∪ S) ∧ Disjoint A S ∧ Shows E.tape m.oram.depth m'.oram.readviewmap S ∧
      Settings m.oram m'.oram := by
  obtain ⟨V, src, hst, hun⟩ := h.nodes
  obtain ⟨V', m', hm', -, -, hst', hset, -⟩ :=
    insert_refines hlive htape key hv hkey hfuel hst hu
  have hw := hst.start false
  have hreal : real E key = true := by simp [real, hkey, hlive]
  have hnone : key ∉ keys t → V key = none := fun hk => by
    by_contra hV
    exact hk (hst.dom key hV)
  have hnew : key ∉ keys t → V key = none ∧ places E V m.oram key = E.tape m.oram.draws ∧
      Leaf m.oram.depth (places E V m.oram key) := fun hk => by
    rw [places_of_none (hnone hk)]
    exact ⟨hnone hk, rfl, htape _⟩
  obtain ⟨V1, o1, id1, u', hu', ho1, hd, hi, -⟩ := insert_spec hv hreal hw.mid
    (hw.rooted.orNull hw.mid) hst.ok hst.sorted hfuel hnew hw.upward
  obtain rfl : u' = u := Option.some.inj (hu'.symm.trans hu)
  have hmem : ∀ k, k ∈ keys u' ↔ k = key ∨ k ∈ keys t := fun k => mem_keys_insert hst.sorted hu
  have hune : u' ≠ .nil := by
    rintro rfl
    exact absurd ((hmem key).mpr (.inl rfl)) (by simp)
  have hold : ∀ k, k ≠ key → k ∉ keys t → V1 k = none := fun k hkk hkt => by
    rw [hi.frame k hkk hkt]
    by_contra hV
    exact hkt (hst.dom k hV)
  obtain ⟨u'', hu'', hok, -⟩ := AVL.insert_ok key (Buf.zero.copyStr value) hst.ok
  obtain rfl : u'' = u' := Option.some.inj (hu''.symm.trans hu)
  have hw1 : Working E (places E V m.oram) V1 u'' ⟨id1, places E V m.oram id1, o1⟩ :=
    ⟨hd.mid, hi.repr.rooted, fun k hk => (hmem k).mpr (by
      by_contra hne
      rw [not_or] at hne
      exact hk (hold k hne.1 hne.2)), hok,
      by rw [AVL.insert_pairs hst.sorted hu]; exact hst.sorted.assign, hi.upward⟩
  have hfin : OMAP.finish E false ⟨id1, places E V m.oram id1, o1⟩ = some m' := by
    simpa only [OMAP.insert, OMAP.insertOne, ho1, Option.bind_eq_bind, Option.bind_some,
      Option.pure_def] using hm'
  have hfirst : ∀ k, V k = none → V1 k ≠ none → k = key ∧ m.oram.draws < o1.draws := by
    intro k hV hV1
    have hkt : k ∉ keys t := fun hkt => by
      have ht : t ≠ .nil := by
        rintro rfl
        cases hkt
      obtain ⟨nd, hnd⟩ := (hst.rooted.repr ht).mem hkt
      rw [hV] at hnd
      cases hnd
    have hkk : k = key := by
      by_contra hkk
      exact hV1 (hold k hkk hkt)
    refine ⟨hkk, ?_⟩
    rw [hd.drawn]
    exact Nat.lt_add_of_pos_right (insertDraws_pos (hkk ▸ hkt))
  obtain ⟨V2, src', S, hrest, hun', hdisj, hshows⟩ := hun.operation hst.rest hw1 hd
    (fun k hk => (hmem k).mpr (hk.imp_right mem_keys_of_visited)) hfirst htape hune hH hfin
  replace hst' := hst' (.inl hH)
  obtain rfl := hst'.rest.unique hrest
  exact ⟨m', S, hm', ⟨_, src', hst', hun'⟩, hdisj, hshows, hset⟩

end

end

/-! ## Runs -/

/-- The buckets that a call reads; a search of an empty tree reads none. -/
def callView (m m' : OMAP n) : Call n → List Int
  | .insert _ _ => m'.oram.readviewmap
  | .find _ => if m.rootKey.isZero then [] else m'.oram.readviewmap

/-- A call, with the buckets read by the calls so far, each with the leaves drawn then. -/
def viewCall (E : Env n) (fuel : Nat) (s : List (List Int × Nat) × OMAP n) (c : Call n) :
    Option (List (List Int × Nat) × OMAP n) :=
  (call E fuel ([], s.2) c).map fun r => (s.1 ++ [(callView s.2 r.2 c, r.2.oram.draws)], r.2)

theorem init_concealed (E : Env n) (depth maxHeight : Nat) :
    Concealed E .nil (OMAP.init depth maxHeight) ∅ :=
  ⟨fun _ => none, fun _ => 0, init_stored E depth maxHeight,
    ⟨⟨fun h => (by cases h), fun h => (by cases h), fun h => (by cases h)⟩, fun _ h => h.elim,
      fun h => (by cases h)⟩⟩

structure Showed (E : Env n) (depth : Nat) (views : List (List Int × Nat)) (S : List (Set Nat))
    (A : Set Nat) : Prop where
  shows : List.Forall₂ (fun v s => Shows E.tape depth v.1 s ∧ ∀ i ∈ s, i < v.2) views S
  disjoint : S.Pairwise Disjoint
  inside : ∀ s ∈ S, s ⊆ A

theorem Showed.snoc {E : Env n} {depth d : Nat} {views : List (List Int × Nat)}
    {S : List (Set Nat)} {A s : Set Nat} {view : List Int} (h : Showed E depth views S A)
    (hs : Shows E.tape depth view s) (hdisj : Disjoint A s) (hd : ∀ i ∈ s, i < d) :
    Showed E depth (views ++ [(view, d)]) (S ++ [s]) (A ∪ s) := by
  refine ⟨List.rel_append h.shows (.cons ⟨hs, hd⟩ .nil), ?_, fun s' hs' => ?_⟩
  · refine List.pairwise_append.mpr ⟨h.disjoint, List.pairwise_singleton _ _, fun s1 h1 s2 h2 => ?_⟩
    rw [List.mem_singleton.mp h2]
    exact hdisj.mono_left (h.inside s1 h1)
  · rcases List.mem_append.mp hs' with hs' | hs'
    · exact (h.inside s' hs').trans Set.subset_union_left
    · rw [List.mem_singleton.mp hs']
      exact Set.subset_union_right

/-- **One call.** -/
theorem viewCall_spec {E : Env n} {fuel : Nat} {s : List (List Int × Nat) × OMAP n} {c : Call n}
    {t u : Tree n} {S : List (Set Nat)} {A : Set Nat} (hlive : ∀ k, E.live k = true)
    (htape : ∀ i, Leaf s.2.oram.depth (E.tape i)) (hc : CallOk c) (h : Concealed E t s.2 A)
    (hs : Showed E s.2.oram.depth s.1 S A) (hu : treeCall t c = some u) (hfuel : t.height < fuel)
    (hH : u.height ≤ s.2.oram.maxHeightOfAVLTree) :
    ∃ s' S' A', viewCall E fuel s c = some s' ∧ Concealed E u s'.2 A' ∧
      Showed E s.2.oram.depth s'.1 S' A' ∧ Settings s.2.oram s'.2.oram := by
  have hpast : ∀ {t : Tree n} {m : OMAP n} {A B : Set Nat}, Concealed E t m (A ∪ B) →
      ∀ i ∈ B, i < m.oram.draws := fun h i hi => by
    obtain ⟨V, src, -, hun⟩ := h.nodes
    exact hun.past i (.inr hi)
  cases c with
  | insert key value =>
    obtain ⟨m', B, hm', hcon, hdisj, hshows, hset⟩ :=
      insert_shows hlive htape key hc.2.2 hc.1 hfuel h hu hH
    exact ⟨(s.1 ++ [(m'.oram.readviewmap, m'.oram.draws)], m'), S ++ [B], A ∪ B,
      by simp only [viewCall, call, hm', Option.map_some, callView], hcon,
      hs.snoc hshows hdisj (hpast hcon), hset⟩
  | find key =>
    obtain rfl : t = u := Option.some.inj hu
    by_cases ht : t = .nil
    · -- nothing is read
      subst ht
      obtain ⟨V, src, hst, hun⟩ := h.nodes
      have hz : s.2.rootKey.isZero = true := by
        obtain ⟨-, hnr⟩ := hst.rooted.resolve_left fun h => h.2 rfl
        simpa [real, hlive] using hnr
      refine ⟨(s.1 ++ [([], s.2.oram.draws)], s.2), S ++ [∅], A ∪ ∅, ?_, by rwa [Set.union_empty],
        hs.snoc (fun b => by simp) (Set.disjoint_empty A) (fun i hi => hi.elim), rfl, rfl⟩
      simp only [viewCall, call, OMAP.find, hz, if_true, Option.map_some, callView]
    · obtain ⟨m', B, hm', hcon, hdisj, hshows, hset⟩ := find_shows hlive htape key hfuel h hH ht
      obtain ⟨V, src, hst, -⟩ := h.nodes
      have hz : s.2.rootKey.isZero = false := by
        obtain ⟨-, hV, -⟩ := (hst.start false).root ht
        obtain ⟨nd, hV⟩ := Option.ne_none_iff_exists'.mp hV
        exact isZero_of_real ((hst.start false).mid.real hV)
      refine ⟨(s.1 ++ [(m'.oram.readviewmap, m'.oram.draws)], m'), S ++ [B], A ∪ B, ?_, hcon,
        hs.snoc hshows hdisj (hpast hcon), hset⟩
      simp only [viewCall, call, hm', Option.map_some, callView, hz, Bool.false_eq_true, if_false]

/-- **No draw is shown twice.** In every run whose trees stay within `maxHeightOfAVLTree`,
the buckets that a call reads are the paths of random leaves drawn so far, and no draw
serves two calls. -/
theorem views_disjoint (maxSize : Nat) (tape : Nat → Int)
    (htape : ∀ i, Leaf (depthOf maxSize) (tape i)) (order : HashOrder) (fuel : Nat)
    (hfuel : maxHeightOfAVLTree maxSize < fuel) (calls : List (Call n))
    (hok : ∀ c ∈ calls, CallOk c) (hheight : HeightOk (maxHeightOfAVLTree maxSize) calls) :
    ∃ views m S, run (viewCall (plain tape order) fuel)
        ([], OMAP.init (depthOf maxSize) (maxHeightOfAVLTree maxSize)) calls = some (views, m) ∧
      List.Forall₂ (fun v s => Shows tape (depthOf maxSize) v.1 s ∧ ∀ i ∈ s, i < v.2)
        views S ∧ S.Pairwise Disjoint := by
  obtain ⟨s, hs, t, S, A, -, hshowed, -⟩ := run_inv (f := viewCall (plain tape order) fuel)
    (s := ([], OMAP.init (depthOf maxSize) (maxHeightOfAVLTree maxSize))) (l := calls)
    (fun pre s => ∃ t S A, Concealed (plain tape order) t s.2 A ∧
      Showed (plain tape order) (depthOf maxSize) s.1 S A ∧
      AVL.insertAll (inserted pre) = some t ∧ s.2.oram.depth = depthOf maxSize ∧
      s.2.oram.maxHeightOfAVLTree = maxHeightOfAVLTree maxSize)
    ⟨.nil, [], ∅, init_concealed _ _ _, ⟨.nil, .nil, fun _ h => by cases h⟩, rfl, rfl, rfl⟩
    fun pre c s hpre _ hI => by
      obtain ⟨t, S, A, hcon, hshowed, hbuilt, hd, hmh⟩ := hI
      obtain ⟨V, src, hst, -⟩ := hcon.nodes
      obtain ⟨u, hu⟩ := exists_treeCall c hst.ok
      have hbuilt' := insertAll_snoc_call hbuilt hu
      have ht := hheight pre ((List.prefix_append pre [c]).trans hpre) t hbuilt
      obtain ⟨s', S', A', hs', hcon', hshowed', hset⟩ := viewCall_spec (fun _ => rfl) (hd ▸ htape)
        (hok c (hpre.subset (by simp))) hcon (hd.symm ▸ hshowed) hu (show t.height < fuel by omega)
        (hmh ▸ hheight _ hpre u hbuilt')
      exact ⟨s', hs', u, S', A', hcon', hd ▸ hshowed', hbuilt', hset.1.trans hd, hset.2.trans hmh⟩
  exact ⟨s.1, s.2, S, hs, hshowed.shows, hshowed.disjoint⟩

theorem views_disjoint_sample : ∃ views m S,
    run (viewCall (plain (fun i => i % 8) HashOrder.stored) 7)
      ([], OMAP.init (depthOf 32) (maxHeightOfAVLTree 32)) sampleCalls = some (views, m) ∧
    List.Forall₂ (fun v s => Shows (fun i => i % 8) (depthOf 32) v.1 s ∧
      ∀ i ∈ s, i < v.2) views S ∧ S.Pairwise Disjoint :=
  views_disjoint 32 (fun i => i % 8) (fun i => ⟨Int.emod_nonneg _ (by decide),
      show (i : Int) % 8 < 8 from Int.emod_lt_of_pos _ (by decide)⟩) HashOrder.stored 7 (by decide)
    sampleCalls (by decide) (heightOk_of_length (by decide))

end SmallClientSSE.Omap
