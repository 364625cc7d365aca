import SmallClientSSE.Lib.Run
import SmallClientSSE.Lib.Stash
import SmallClientSSE.Omap.Layout

/-!
# Paths of buckets

Every ORAM of the repository moves its blocks in the same way: the buckets on the
path of a leaf are copied to the stash, and they are written back from the deepest
level up, each with the first blocks of the stash whose own path meets it. `Work`
is the state of these loops. The theorems say what they do to the blocks that the
stash and the buckets hold (`fetchPath_spec`, `writePaths_spec`).
-/

namespace SmallClientSSE.Omap

open Lib

/-! ## The bucket of a level -/

def parent (leaf : Int) : Int := (leaf + 1).tdiv 2 - 1

/-- `GetNodeOnPath`: the bucket at depth `curDepth` on the way to `leaf`. -/
def getNodeOnPath (depth : Nat) (leaf : Int) (curDepth : Nat) : Int :=
  parent^[depth - curDepth] (leaf + (bucketCount depth / 2 : Nat))

/-- Leaves of a tree. -/
def Leaf (depth : Nat) (leaf : Int) : Prop := 0 ≤ leaf ∧ leaf < 2 ^ depth

instance (depth : Nat) (leaf : Int) : Decidable (Leaf depth leaf) :=
  inferInstanceAs (Decidable (_ ∧ _))

/-- The buckets on the way to a leaf. -/
def OnPath (depth : Nat) (leaf node : Int) : Prop :=
  ∃ d, d ≤ depth ∧ getNodeOnPath depth leaf d = node

section

variable {depth d : Nat} {leaf : Int}

theorem iterate_parent (n : Nat) : ∀ x : Int, -1 ≤ x → parent^[n] x = (x + 1) / 2 ^ n - 1 := by
  induction n with
  | zero => intro x _; simp
  | succ n ih =>
    intro x hx
    have hp : parent x = (x + 1) / 2 - 1 := by
      unfold parent
      rw [Int.tdiv_eq_ediv_of_nonneg (by omega)]
    have h0 : -1 ≤ parent x := by rw [hp]; omega
    rw [Function.iterate_succ_apply, ih _ h0, hp, Int.sub_add_cancel,
      Int.ediv_ediv_of_nonneg (by decide), pow_succ, mul_comm]

theorem half_bucketCount (depth : Nat) : bucketCount depth / 2 = 2 ^ depth - 1 := by
  unfold bucketCount
  rw [pow_succ]
  omega

theorem getNodeOnPath_eq (hl : Leaf depth leaf) (hd : d ≤ depth) :
    getNodeOnPath depth leaf d = 2 ^ d - 1 + leaf / 2 ^ (depth - d) := by
  have h1 : (1 : Int) ≤ 2 ^ depth := one_le_pow₀ (by decide)
  have hcast : ((2 ^ depth - 1 : Nat) : Int) = 2 ^ depth - 1 := by
    rw [Nat.cast_sub Nat.one_le_two_pow]
    push_cast
    rfl
  obtain ⟨h0, -⟩ := hl
  unfold getNodeOnPath
  rw [half_bucketCount, hcast, iterate_parent _ _ (by omega)]
  have hsplit : leaf + (2 ^ depth - 1) + 1 = leaf + 2 ^ d * 2 ^ (depth - d) := by
    rw [← pow_add, Nat.add_sub_cancel' hd]
    ring
  rw [hsplit, Int.add_mul_ediv_right _ _ (pow_ne_zero _ (by decide))]
  ring

theorem getNodeOnPath_bounds (hl : Leaf depth leaf) (hd : d ≤ depth) :
    (2 : Int) ^ d - 1 ≤ getNodeOnPath depth leaf d ∧ getNodeOnPath depth leaf d < 2 ^ (d + 1) - 1 := by
  rw [getNodeOnPath_eq hl hd]
  have h0 : 0 ≤ leaf / 2 ^ (depth - d) := Int.ediv_nonneg hl.1 (by positivity)
  have h1 : leaf / 2 ^ (depth - d) < 2 ^ d := by
    apply Int.ediv_lt_of_lt_mul (by positivity)
    rw [← pow_add, Nat.add_sub_cancel' hd]
    exact hl.2
  rw [pow_succ]
  omega

theorem getNodeOnPath_range (hl : Leaf depth leaf) (hd : d ≤ depth) :
    0 ≤ getNodeOnPath depth leaf d ∧ getNodeOnPath depth leaf d < bucketCount depth := by
  obtain ⟨h1, h2⟩ := getNodeOnPath_bounds hl hd
  have h3 : (1 : Int) ≤ 2 ^ d := one_le_pow₀ (by decide)
  have h4 : (2 : Int) ^ (d + 1) ≤ 2 ^ (depth + 1) := pow_le_pow_right₀ (by decide) (by omega)
  have hcast : ((bucketCount depth : Nat) : Int) = 2 ^ (depth + 1) - 1 := by
    unfold bucketCount
    rw [Nat.cast_sub Nat.one_le_two_pow]
    push_cast
    rfl
  omega

theorem OnPath.range {node : Int} (hl : Leaf depth leaf) (h : OnPath depth leaf node) :
    ∃ i, i < bucketCount depth ∧ (i : Int) = node := by
  obtain ⟨d, hd, rfl⟩ := h
  obtain ⟨h1, h2⟩ := getNodeOnPath_range hl hd
  exact ⟨(getNodeOnPath depth leaf d).toNat, by omega, by omega⟩

theorem getNodeOnPath_inj {d' : Nat} (hl : Leaf depth leaf) (hd : d ≤ depth) (hd' : d' ≤ depth)
    (h : getNodeOnPath depth leaf d = getNodeOnPath depth leaf d') : d = d' := by
  have key : ∀ {a b : Nat}, a < b → b ≤ depth →
      getNodeOnPath depth leaf a ≠ getNodeOnPath depth leaf b := by
    intro a b hab hb e
    have h1 := (getNodeOnPath_bounds hl (hab.le.trans hb)).2
    have h2 := (getNodeOnPath_bounds hl hb).1
    have h3 : (2 : Int) ^ (a + 1) ≤ 2 ^ b := pow_le_pow_right₀ (by decide) (by omega)
    omega
  rcases lt_trichotomy d d' with hlt | rfl | hlt
  exacts [absurd h (key hlt hd'), rfl, absurd h.symm (key hlt hd)]

end

/-! ## Reading and writing paths -/

/-- What a kind of ORAM stores: the key and the leaf of a block, the padding of
buckets, the keys that are not padding, and the order in which iterations over the
stash visit it. -/
structure Blocks (κ β : Type) where
  key : β → κ
  pos : β → Int
  dummy : β
  real : κ → Bool
  order : Nat → List (κ × β) → List (κ × β)
  real_dummy : real (key dummy) = false
  perm : ∀ t l, (order t l).Perm l

/-- The stash, the buckets, the buckets visited, and the number of iterations over
the stash so far. -/
structure Work (κ β : Type) where
  stash : Table κ β
  store : Int → List β
  view : List Int
  time : Nat

section

variable {κ β : Type} [DecidableEq κ] (B : Blocks κ β) (depth : Nat)

def readBucket (store : Int → List β) (index : Int) : Option (List β) :=
  if 0 ≤ index ∧ index < bucketCount depth then some (store index) else none

def writeBucket (store : Int → List β) (index : Int) (bucket : List β) :
    Option (Int → List β) :=
  if 0 ≤ index ∧ index < bucketCount depth then some (Function.update store index bucket) else none

/-- The body of the loop of `FetchPath`; `useView` skips the buckets visited. -/
def fetchLevel (useView : Bool) (leaf : Int) (w : Work κ β) (d : Nat) : Option (Work κ β) :=
  let node := getNodeOnPath depth leaf d
  if useView = true ∧ node ∈ w.view then some w
  else do
    let bucket ← readBucket depth w.store node
    pure { w with
      view := if useView then w.view ++ [node] else w.view
      stash := Stash.fetch B.key B.real w.stash bucket }

def fetchPath (useView : Bool) (leaf : Int) (w : Work κ β) : Option (Work κ β) :=
  run (fetchLevel B depth useView leaf) w (List.range (depth + 1))

/-- `GetIntersectingBlocks`: the first blocks of the stash whose path meets a bucket. -/
def getIntersectingBlocks (w : Work κ β) (x : Int) (curDepth : Nat) : List (κ × β) :=
  let node := getNodeOnPath depth x curDepth
  ((B.order w.time w.stash.pairs).filter fun b =>
    getNodeOnPath depth (B.pos b.2) curDepth = node).take Z

def writePath (leaf : Int) (d : Nat) (w : Work κ β) : Option (Work κ β) :=
  let node := getNodeOnPath depth leaf d
  if node ∈ w.view then some w
  else do
    let validBlocks := getIntersectingBlocks B depth w leaf d
    let store ← writeBucket depth w.store node
      (validBlocks.map Prod.snd ++ List.replicate (Z - validBlocks.length) B.dummy)
    pure ⟨Stash.spill w.stash (validBlocks.map Prod.fst), store, w.view ++ [node], w.time + 1⟩

/-- The paths of some leaves, written level by level from the deepest. -/
def writePaths (leaves : List Int) (w : Work κ β) : Option (Work κ β) :=
  run (fun w d => run (fun w leaf => writePath B depth leaf d w) w leaves) w
    (List.range (depth + 1)).reverse

/-- The stash and the buckets outside `dead` hold `V`, every block on its path. -/
abbrev Keeps (V : κ → Option β) (dead : Set Int) (w : Work κ β) : Prop :=
  Stash.Holds B.key B.real (fun b i => OnPath depth (B.pos b) i) V dead w.stash w.store

end

section

variable {κ β : Type} [DecidableEq κ] {B : Blocks κ β} {depth : Nat} {V : κ → Option β}
  {dead : Set Int} {w : Work κ β} {leaf : Int}

theorem readBucket_path (hl : Leaf depth leaf) {d : Nat} (hd : d ≤ depth)
    (store : Int → List β) : readBucket depth store (getNodeOnPath depth leaf d) =
      some (store (getNodeOnPath depth leaf d)) := if_pos (getNodeOnPath_range hl hd)

theorem writeBucket_path (hl : Leaf depth leaf) {d : Nat} (hd : d ≤ depth)
    (store : Int → List β) (bucket : List β) :
    writeBucket depth store (getNodeOnPath depth leaf d) bucket =
      some (Function.update store (getNodeOnPath depth leaf d) bucket) :=
  if_pos (getNodeOnPath_range hl hd)

theorem lt_of_range {pre : List Nat} {d n : Nat} (h : pre ++ [d] <+: List.range n) : d < n :=
  List.mem_range.mp (h.subset (by simp))

/-- **Reading a path** while the buckets visited are dead. -/
theorem fetchPath_spec (hl : Leaf depth leaf) (h : Keeps B depth V {i | i ∈ w.view} w) :
    ∃ w', fetchPath B depth true leaf w = some w' ∧ Keeps B depth V {i | i ∈ w'.view} w' ∧
      w'.store = w.store ∧ w'.time = w.time ∧
      (∀ i, i ∈ w'.view ↔ i ∈ w.view ∨ OnPath depth leaf i) ∧
      ∀ {k b}, w.stash.lookup k = some b → w'.stash.lookup k = some b := by
  obtain ⟨w', hw, h1, h2, h3, h4, h5⟩ := run_inv (l := List.range (depth + 1))
    (f := fetchLevel B depth true leaf) (s := w)
    (fun ds w' => Keeps B depth V {i | i ∈ w'.view} w' ∧ w'.store = w.store ∧ w'.time = w.time ∧
      (∀ i, i ∈ w'.view ↔ i ∈ w.view ∨ ∃ d ∈ ds, getNodeOnPath depth leaf d = i) ∧
      ∀ {k b}, w.stash.lookup k = some b → w'.stash.lookup k = some b)
    ⟨h, rfl, rfl, by simp, id⟩ fun ds d t hds _ ⟨h1, h2, h3, h4, h5⟩ => by
      have hd : d ≤ depth := Nat.lt_succ_iff.mp (lt_of_range hds)
      by_cases hv : getNodeOnPath depth leaf d ∈ t.view
      · refine ⟨t, by simp [fetchLevel, hv], h1, h2, h3, fun i => ?_, h5⟩
        rw [h4 i]
        constructor
        · rintro (hi | ⟨d', hd', e⟩)
          exacts [.inl hi, .inr ⟨d', List.mem_append_left _ hd', e⟩]
        · rintro (hi | ⟨d', hd', rfl⟩)
          · exact .inl hi
          · rcases List.mem_append.mp hd' with hd' | hd'
            · exact .inr ⟨d', hd', rfl⟩
            · rw [List.mem_singleton.mp hd']
              exact (h4 _).mp hv
      · refine ⟨{ t with
          view := t.view ++ [getNodeOnPath depth leaf d]
          stash := Stash.fetch B.key B.real t.stash (t.store (getNodeOnPath depth leaf d)) }, ?_,
          ?_, h2, h3, fun i => ?_, fun hk => Stash.lookup_fetch_of_some (h5 hk)⟩
        · simp [fetchLevel, hv, readBucket_path hl hd]
        · have hset : {i | i ∈ t.view ++ [getNodeOnPath depth leaf d]} =
              insert (getNodeOnPath depth leaf d) {i | i ∈ t.view} := by
            ext i
            simp [or_comm]
          show Stash.Holds _ _ _ _ {i | i ∈ t.view ++ [_]} _ _
          rw [hset]
          exact Stash.Holds.fetch h1 hv
        · simp only [List.mem_append, List.mem_singleton, h4 i]
          constructor
          · rintro ((hi | ⟨d', hd', e⟩) | rfl)
            exacts [.inl hi, .inr ⟨d', .inl hd', e⟩, .inr ⟨d, .inr rfl, rfl⟩]
          · rintro (hi | ⟨d', hd' | rfl, e⟩)
            exacts [.inl (.inl hi), .inl (.inr ⟨d', hd', e⟩), .inr e.symm]
  refine ⟨w', hw, h1, h2, h3, fun i => ?_, h5⟩
  rw [h4 i]
  simp only [List.mem_range, Nat.lt_succ_iff, OnPath]

theorem fetchPath_whole (hl : Leaf depth leaf) (h : Keeps B depth V ∅ w) :
    ∃ w', fetchPath B depth false leaf w = some w' ∧
      Keeps B depth V {i | OnPath depth leaf i} w' ∧ w'.store = w.store ∧ w'.time = w.time ∧
      w'.view = w.view := by
  obtain ⟨w', hw, h1, h2, h3, h4⟩ := run_inv (l := List.range (depth + 1))
    (f := fetchLevel B depth false leaf) (s := w)
    (fun ds w' => Keeps B depth V {i | ∃ d ∈ ds, getNodeOnPath depth leaf d = i} w' ∧
      w'.store = w.store ∧ w'.time = w.time ∧ w'.view = w.view)
    ⟨by simpa using h, rfl, rfl, rfl⟩ fun ds d t hds _ ⟨h1, h2, h3, h4⟩ => by
      have hd : d ≤ depth := Nat.lt_succ_iff.mp (lt_of_range hds)
      refine ⟨{ t with
        stash := Stash.fetch B.key B.real t.stash (t.store (getNodeOnPath depth leaf d)) }, ?_, ?_,
        h2, h3, h4⟩
      · simp [fetchLevel, readBucket_path hl hd]
      · have hset : {i | ∃ d' ∈ ds ++ [d], getNodeOnPath depth leaf d' = i} =
            insert (getNodeOnPath depth leaf d) {i | ∃ d ∈ ds, getNodeOnPath depth leaf d = i} := by
          ext i
          simp only [List.mem_append, List.mem_singleton, Set.mem_ofPred_eq, Set.mem_insert_iff]
          constructor
          · rintro ⟨d', hd' | rfl, e⟩
            exacts [.inr ⟨d', hd', e⟩, .inl e.symm]
          · rintro (e | ⟨d', hd', e⟩)
            exacts [⟨d, .inr rfl, e.symm⟩, ⟨d', .inl hd', e⟩]
        rw [hset]
        refine Stash.Holds.fetch h1 ?_
        rintro ⟨d', hd', e⟩
        have hlt : d' ≤ depth := Nat.lt_succ_iff.mp (List.mem_range.mp (hds.subset (by simp [hd'])))
        obtain rfl := getNodeOnPath_inj hl hlt hd e
        exact (List.nodup_append.mp (List.nodup_range.sublist hds.sublist)).2.2 d' hd' d' (by simp)
          rfl
  refine ⟨w', hw, ?_, h2, h3, h4⟩
  have hset : {i | ∃ d ∈ List.range (depth + 1), getNodeOnPath depth leaf d = i} =
      {i | OnPath depth leaf i} := by
    ext i
    simp only [List.mem_range, Nat.lt_succ_iff, OnPath]
  rwa [hset] at h1

/-- **Writing one bucket** back. -/
theorem writePath_spec (hl : Leaf depth leaf) {d : Nat} (hd : d ≤ depth)
    (hdead : getNodeOnPath depth leaf d ∈ dead) (h : Keeps B depth V (dead \ {i | i ∈ w.view}) w) :
    ∃ w', writePath B depth leaf d w = some w' ∧ Keeps B depth V (dead \ {i | i ∈ w'.view}) w' ∧
      (∀ i, i ∈ w'.view ↔ i ∈ w.view ∨ getNodeOnPath depth leaf d = i) ∧
      ∀ {k b}, w'.stash.lookup k = some b → w.stash.lookup k = some b := by
  by_cases hv : getNodeOnPath depth leaf d ∈ w.view
  · refine ⟨w, by simp [writePath, hv], h, fun i => ⟨.inl, ?_⟩, id⟩
    rintro (hi | rfl)
    exacts [hi, hv]
  · obtain ⟨hnd, hes⟩ := Stash.entries_of_perm (B.perm w.time w.stash.pairs)
      (fun b => getNodeOnPath depth (B.pos b.2) d = getNodeOnPath depth leaf d) Z
    refine ⟨_, by simp [writePath, hv, writeBucket_path hl hd]; rfl, ?_, fun i => ?_,
      fun hk => ((Stash.lookup_spill _).mp hk).1⟩
    · have hset : dead \ {i | i ∈ w.view ++ [getNodeOnPath depth leaf d]} =
          (dead \ {i | i ∈ w.view}) \ {getNodeOnPath depth leaf d} := by
        ext i
        simp only [Set.mem_sdiff, Set.mem_ofPred_eq, List.mem_append, List.mem_singleton,
          Set.mem_singleton_iff]
        tauto
      show Stash.Holds _ _ _ _ (dead \ {i | i ∈ w.view ++ [_]}) _ _
      rw [hset]
      refine Stash.Holds.spill h _ _ hnd (fun e he => (hes e he).1) (fun e he => ?_) (fun b hb => ?_)
        ⟨hdead, hv⟩
      · exact ⟨d, hd, of_decide_eq_true (hes e he).2⟩
      · rw [List.eq_of_mem_replicate hb]
        exact B.real_dummy
    · simp [eq_comm]

/-- **Writing back** every bucket that was read. -/
theorem writePaths_spec {leaves : List Int} (hl : ∀ leaf ∈ leaves, Leaf depth leaf)
    (hview : w.view = []) (h : Keeps B depth V {i | ∃ leaf ∈ leaves, OnPath depth leaf i} w) :
    ∃ w', writePaths B depth leaves w = some w' ∧ Keeps B depth V ∅ w' ∧
      ∀ {k b}, w'.stash.lookup k = some b → w.stash.lookup k = some b := by
  generalize hdead : {i | ∃ leaf ∈ leaves, OnPath depth leaf i} = dead at h
  have hmem : ∀ leaf ∈ leaves, ∀ d, d ≤ depth → getNodeOnPath depth leaf d ∈ dead := by
    rintro leaf hleaf d hd
    rw [← hdead]
    exact ⟨leaf, hleaf, d, hd, rfl⟩
  have hlevel : ∀ d, d ≤ depth → ∀ t, Keeps B depth V (dead \ {i | i ∈ t.view}) t →
      ∃ t', run (fun w leaf => writePath B depth leaf d w) t leaves = some t' ∧
        Keeps B depth V (dead \ {i | i ∈ t'.view}) t' ∧
        (∀ i, i ∈ t'.view ↔ i ∈ t.view ∨ ∃ leaf ∈ leaves, getNodeOnPath depth leaf d = i) ∧
        ∀ {k b}, t'.stash.lookup k = some b → t.stash.lookup k = some b := by
    intro d hd t ht
    refine run_inv (fun ls t' => Keeps B depth V (dead \ {i | i ∈ t'.view}) t' ∧
      (∀ i, i ∈ t'.view ↔ i ∈ t.view ∨ ∃ leaf ∈ ls, getNodeOnPath depth leaf d = i) ∧
      ∀ {k b}, t'.stash.lookup k = some b → t.stash.lookup k = some b)
      ⟨ht, by simp, id⟩ fun ls leaf u hls _ ⟨h1, h2, h3⟩ => ?_
    have hleaf : leaf ∈ leaves := hls.subset (by simp)
    obtain ⟨u', hu, h1', h2', h3'⟩ := writePath_spec (hl leaf hleaf) hd (hmem leaf hleaf d hd) h1
    refine ⟨u', hu, h1', fun i => ?_, fun hk => h3 (h3' hk)⟩
    rw [h2', h2]
    simp only [List.mem_append, List.mem_singleton]
    constructor
    · rintro ((hi | ⟨l, hl, e⟩) | e)
      exacts [.inl hi, .inr ⟨l, .inl hl, e⟩, .inr ⟨leaf, .inr rfl, e⟩]
    · rintro (hi | ⟨l, hl | rfl, e⟩)
      exacts [.inl (.inl hi), .inl (.inr ⟨l, hl, e⟩), .inr e]
  obtain ⟨w', hw, h1, h2, h3⟩ := run_inv (l := (List.range (depth + 1)).reverse)
    (f := fun w d => run (fun w leaf => writePath B depth leaf d w) w leaves) (s := w)
    (fun ds t => Keeps B depth V (dead \ {i | i ∈ t.view}) t ∧
      (∀ i, (∃ d ∈ ds, ∃ leaf ∈ leaves, getNodeOnPath depth leaf d = i) → i ∈ t.view) ∧
      ∀ {k b}, t.stash.lookup k = some b → w.stash.lookup k = some b)
    ⟨by simpa [hview] using h, by simp, id⟩ fun ds d t hds _ ⟨h1, h2, h3⟩ => by
      have hd : d ≤ depth := by
        have : d ∈ (List.range (depth + 1)).reverse := hds.subset (by simp)
        simpa [Nat.lt_succ_iff] using this
      obtain ⟨t', ht, h1', h2', h3'⟩ := hlevel d hd t h1
      refine ⟨t', ht, h1', fun i => ?_, fun hk => h3 (h3' hk)⟩
      rintro ⟨d', hd', hi⟩
      rw [h2']
      rcases List.mem_append.mp hd' with hd' | hd'
      · exact .inl (h2 i ⟨d', hd', hi⟩)
      · rw [List.mem_singleton.mp hd'] at hi
        exact .inr hi
  refine ⟨w', hw, ?_, h3⟩
  have hset : dead \ {i | i ∈ w'.view} = ∅ := by
    rw [Set.sdiff_eq_empty, ← hdead]
    rintro i ⟨leaf, hleaf, d, hd, rfl⟩
    exact h2 _ ⟨d, by simpa [Nat.lt_succ_iff] using hd, leaf, hleaf, rfl⟩
  rwa [hset] at h1

end

end SmallClientSSE.Omap
