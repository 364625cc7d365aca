import Mathlib.Data.List.Sort
import SmallClientSSE.Omap.Path

/-!
# Bulk loading

`setupInsert` sorts the blocks by leaf and fills the buckets of one path after the
other, from the deepest up. A block that meets a full bucket on a path without
room goes to the stash. Whatever the order, every block ends up in the stash or
in a bucket on its path, once (`setupInsert_spec`).
-/

namespace SmallClientSSE.Omap

open Lib

/-- A sort by leaf; the order of blocks with one leaf is not specified. -/
structure PosSort {κ β : Type} (B : Blocks κ β) where
  sort : List β → List β
  perm : ∀ l, (sort l).Perm l
  sorted : ∀ l, (sort l).Pairwise fun a b => B.pos a ≤ B.pos b

def PosSort.insertion {κ β : Type} (B : Blocks κ β) : PosSort B where
  sort l := l.insertionSort fun a b => B.pos a ≤ B.pos b
  perm l := List.perm_insertionSort _ l
  sorted l :=
    have : Std.Total fun a b => B.pos a ≤ B.pos b := ⟨fun a b => le_total (B.pos a) (B.pos b)⟩
    have : IsTrans β fun a b => B.pos a ≤ B.pos b := ⟨fun _ _ _ => le_trans⟩
    List.pairwise_insertionSort _ l

/-- The variables of the loop of `setupInsert`; `rest` are the blocks from `i` on. -/
structure Load (κ β : Type) where
  buckets : Table Int (List β)
  stash : Table κ β
  rest : List β
  cannotInsert : Bool

section

variable {κ β : Type} [DecidableEq κ] (B : Blocks κ β) (depth : Nat)

/-- Up to `n` blocks of the leaf `curPos`, and the others. -/
def takePos (curPos : Int) : Nat → List β → List β × List β
  | n + 1, b :: bs =>
    if B.pos b = curPos then
      let r := takePos curPos n bs
      (b :: r.1, r.2)
    else ([], b :: bs)
  | _, bs => ([], bs)

def loadLevel (curPos : Int) (s : Load κ β) (d : Nat) : Load κ β :=
  match s.rest with
  | [] => s
  | b :: _ =>
    if curPos ≠ B.pos b then s
    else
      let nodeIndex := getNodeOnPath depth curPos d
      match s.buckets.lookup nodeIndex with
      | none =>
        let r := takePos B curPos Z s.rest
        { s with
          buckets := s.buckets.put nodeIndex r.1
          rest := r.2 }
      | some bucket =>
        if bucket.length < Z then
          let r := takePos B curPos (Z - bucket.length) s.rest
          { s with
            buckets := s.buckets.put nodeIndex (bucket ++ r.1)
            rest := r.2 }
        else { s with cannotInsert := true }

def loadRound (s : Load κ β) : Load κ β :=
  match s.rest with
  | [] => s
  | b :: _ =>
    let s := (List.range (depth + 1)).reverse.foldl (loadLevel B depth (B.pos b)) s
    match s.rest with
    | [] => s
    | b :: bs =>
      if s.cannotInsert then
        { s with
          stash := s.stash.put (B.key b) b
          rest := bs
          cannotInsert := false }
      else s

/-- The outer loop; every round places a block (`loadRound_rest`). -/
def loadLoop : Nat → Load κ β → Load κ β
  | 0, s => s
  | n + 1, s => if s.rest.isEmpty then s else loadLoop n (loadRound B depth s)

def writeBuckets (buckets : List (Int × List β)) (store : Int → List β) :
    Option (Int → List β) :=
  run (fun store buk =>
    writeBucket depth store buk.1 (buk.2 ++ List.replicate (Z - buk.2.length) B.dummy))
    store buckets

def setupInsert (S : PosSort B) (nodes : List β) (w : Work κ β) : Option (Work κ β) := do
  let s := loadLoop B depth nodes.length ⟨∅, w.stash, S.sort nodes, false⟩
  let store ← writeBuckets B depth s.buckets.pairs w.store
  pure { w with
    stash := s.rest.foldl (fun stash b => stash.put (B.key b) b) s.stash
    store := store }

end

section

variable {κ β : Type} {B : Blocks κ β} {curPos : Int}

theorem takePos_append (n : Nat) : ∀ bs : List β, (takePos B curPos n bs).1 ++
    (takePos B curPos n bs).2 = bs := by
  induction n with
  | zero => exact fun _ => rfl
  | succ n ih =>
    intro bs
    cases bs with
    | nil => rfl
    | cons b bs =>
      simp only [takePos]
      split
      · rw [List.cons_append, ih]
      · rfl

theorem takePos_pos (n : Nat) : ∀ bs : List β, ∀ b ∈ (takePos B curPos n bs).1,
    B.pos b = curPos := by
  induction n with
  | zero => exact fun _ b hb => absurd hb List.not_mem_nil
  | succ n ih =>
    intro bs b hb
    cases bs with
    | nil => cases hb
    | cons c bs =>
      simp only [takePos] at hb
      split at hb
      · next hc =>
        rcases List.mem_cons.mp hb with rfl | hb
        exacts [hc, ih bs b hb]
      · cases hb

theorem length_takePos_le (n : Nat) : ∀ bs : List β, (takePos B curPos n bs).1.length ≤ n := by
  induction n with
  | zero => exact fun _ => le_rfl
  | succ n ih =>
    intro bs
    cases bs with
    | nil => exact Nat.zero_le _
    | cons c bs =>
      simp only [takePos]
      split
      · exact Nat.succ_le_succ (ih bs)
      · exact Nat.zero_le _

end

section

variable {κ β : Type} {B : Blocks κ β} {depth : Nat} {s : Load κ β} {nodes : List β} {curPos : Int}

/-- The blocks placed so far are on their paths, and none is lost. -/
structure LoadInv (B : Blocks κ β) (depth : Nat) (nodes : List β) (s : Load κ β) : Prop where
  perm : (s.buckets.items.map Prod.snd ++ s.stash.pairs.map Prod.snd ++ s.rest).Perm nodes
  keyed : ∀ e ∈ s.stash.pairs, B.key e.2 = e.1
  fits : ∀ e ∈ s.buckets.items, OnPath depth (B.pos e.2) e.1
  range : ∀ i ∈ s.buckets, 0 ≤ i ∧ i < bucketCount depth
  size : ∀ e ∈ s.buckets.pairs, e.2.length ≤ Z

/-- Some blocks of `rest` put into a bucket of their path. -/
theorem LoadInv.push (h : LoadInv B depth nodes s) (hl : Leaf depth curPos) {d : Nat}
    (hd : d ≤ depth) (n : Nat)
    (hn : (s.buckets.get (getNodeOnPath depth curPos d)).length + n ≤ Z) :
    LoadInv B depth nodes { s with
      buckets := s.buckets.put (getNodeOnPath depth curPos d)
        (s.buckets.get (getNodeOnPath depth curPos d) ++ (takePos B curPos n s.rest).1)
      rest := (takePos B curPos n s.rest).2 } := by
  have hitems := Table.items_push s.buckets (getNodeOnPath depth curPos d)
    (takePos B curPos n s.rest).1
  refine ⟨?_, h.keyed, fun e he => ?_, fun i hi => ?_, fun e he => ?_⟩
  · have h1 : (((s.buckets.push (getNodeOnPath depth curPos d)
        (takePos B curPos n s.rest).1).items.map Prod.snd)).Perm
        (s.buckets.items.map Prod.snd ++ (takePos B curPos n s.rest).1) := by
      refine (hitems.map Prod.snd).trans ?_
      rw [List.map_append, List.map_map]
      simp [Function.comp_def]
    refine (((h1.append_right _).append_right _).trans ?_).trans h.perm
    conv_rhs => rw [← @takePos_append _ _ B curPos n s.rest]
    simp only [List.append_assoc]
    exact List.Perm.append_left _ (by
      rw [← List.append_assoc, ← List.append_assoc]
      exact List.perm_append_comm.append_right _)
  · rcases List.mem_append.mp (hitems.subset he) with he | he
    · exact h.fits e he
    · obtain ⟨b, hb, rfl⟩ := List.mem_map.mp he
      exact ⟨d, hd, by rw [takePos_pos _ _ _ hb]⟩
  · rcases Table.mem_push.mp hi with rfl | hi
    · exact getNodeOnPath_range hl hd
    · exact h.range i hi
  · obtain ⟨i, l⟩ := e
    rw [Table.mem_pairs] at he
    by_cases hi : i = getNodeOnPath depth curPos d
    · rw [hi, AList.lookup_insert] at he
      rw [← Option.some.inj he, List.length_append]
      have := @length_takePos_le _ _ B curPos n s.rest
      omega
    · rw [AList.lookup_insert_ne hi] at he
      exact h.size _ (Table.mem_pairs.mpr he)

theorem LoadInv.level (h : LoadInv B depth nodes s) (hl : Leaf depth curPos) {d : Nat}
    (hd : d ≤ depth) : LoadInv B depth nodes (loadLevel B depth curPos s d) := by
  unfold loadLevel
  split
  · exact h
  · split
    · exact h
    · simp only
      split
      · next hlook =>
        have hget : s.buckets.get (getNodeOnPath depth curPos d) = [] := by
          simp [Table.get, hlook]
        have := h.push hl hd Z (by rw [hget]; simp)
        rwa [hget, List.nil_append] at this
      · next bucket hlook =>
        have hget : s.buckets.get (getNodeOnPath depth curPos d) = bucket := by
          simp [Table.get, hlook]
        split
        · have := h.push hl hd (Z - bucket.length) (by rw [hget]; omega)
          rwa [hget] at this
        · exact ⟨h.perm, h.keyed, h.fits, h.range, h.size⟩

theorem LoadInv.levels (hl : Leaf depth curPos) (ds : List Nat) (hds : ∀ d ∈ ds, d ≤ depth) :
    ∀ {s : Load κ β}, LoadInv B depth nodes s →
      LoadInv B depth nodes (ds.foldl (loadLevel B depth curPos) s) := by
  induction ds with
  | nil => exact id
  | cons d ds ih =>
    intro s h
    exact ih (fun e he => hds e (List.mem_cons_of_mem _ he)) (h.level hl (hds d List.mem_cons_self))

variable [DecidableEq κ]

theorem LoadInv.stash {b : β} {bs : List β} (h : LoadInv B depth nodes s) (hs : s.rest = b :: bs)
    (hnd : (nodes.map B.key).Nodup) (c : Bool) : LoadInv B depth nodes { s with
      stash := s.stash.put (B.key b) b
      rest := bs
      cannotInsert := c } := by
  have hfresh : B.key b ∉ s.stash := by
    intro hmem
    obtain ⟨c, hc⟩ := Option.isSome_iff_exists.mp (AList.lookup_isSome.mpr hmem)
    have hcm := Table.mem_pairs.mpr hc
    have hnd' := ((h.perm.map B.key).nodup_iff.mpr hnd)
    rw [hs, List.map_append, List.map_append] at hnd'
    exact (List.nodup_append.mp hnd').2.2 _ (List.mem_append_right _
      (List.mem_map_of_mem (List.mem_map_of_mem (f := Prod.snd) hcm))) _
      (List.mem_map_of_mem List.mem_cons_self) (h.keyed _ hcm)
  refine ⟨?_, fun e he => ?_, h.fits, h.range, h.size⟩
  · refine List.Perm.trans ?_ (hs ▸ h.perm)
    simp only [Table.pairs_put hfresh, List.map_cons, List.append_assoc]
    exact List.Perm.append_left _ List.perm_middle.symm
  · rw [Table.pairs_put hfresh] at he
    rcases List.mem_cons.mp he with rfl | he
    exacts [rfl, h.keyed e he]

variable (hnd : (nodes.map B.key).Nodup) (hleaf : ∀ b ∈ nodes, Leaf depth (B.pos b))

include hnd hleaf

theorem LoadInv.round (h : LoadInv B depth nodes s) : LoadInv B depth nodes (loadRound B depth s) := by
  unfold loadRound
  split
  · exact h
  · next b bs hs =>
    have hb : Leaf depth (B.pos b) := hleaf b (h.perm.subset (by simp [hs]))
    have h' := h.levels hb (List.range (depth + 1)).reverse
      (fun d hd => by simpa [Nat.lt_succ_iff] using hd)
    simp only
    split
    · exact h'
    · next c cs hs' =>
      split
      · exact h'.stash hs' hnd false
      · exact h'

theorem LoadInv.loop (n : Nat) : ∀ {s : Load κ β}, LoadInv B depth nodes s →
    LoadInv B depth nodes (loadLoop B depth n s) := by
  induction n with
  | zero => exact id
  | succ n ih =>
    intro s h
    unfold loadLoop
    split
    · exact h
    · exact ih (h.round hnd hleaf)

end

/-! ## The loop places every block -/

section

variable {κ β : Type} {B : Blocks κ β} {depth : Nat}

theorem loadLevel_rest_le (curPos : Int) (s : Load κ β) (d : Nat) :
    (loadLevel B depth curPos s d).rest.length ≤ s.rest.length := by
  have hle : ∀ n, (takePos B curPos n s.rest).2.length ≤ s.rest.length := fun n => by
    conv_rhs => rw [← @takePos_append _ _ B curPos n s.rest, List.length_append]
    omega
  unfold loadLevel
  split
  · exact le_rfl
  · split
    · exact le_rfl
    · simp only
      split
      · exact hle _
      · split
        · exact hle _
        · exact le_rfl

theorem levels_rest_le (curPos : Int) (ds : List Nat) : ∀ s : Load κ β,
    (ds.foldl (loadLevel B depth curPos) s).rest.length ≤ s.rest.length := by
  induction ds with
  | nil => exact fun _ => le_rfl
  | cons d ds ih => exact fun s => (ih _).trans (loadLevel_rest_le curPos s d)

theorem levels_cannotInsert (curPos : Int) (ds : List Nat) : ∀ s : Load κ β,
    s.cannotInsert = true → (ds.foldl (loadLevel B depth curPos) s).cannotInsert = true := by
  induction ds with
  | nil => exact fun _ h => h
  | cons d ds ih =>
    intro s h
    refine ih _ ?_
    unfold loadLevel
    split
    · exact h
    · split
      · exact h
      · simp only
        split
        · exact h
        · split
          · exact h
          · rfl

/-- The first level of a round places a block or finds a full bucket. -/
theorem loadLevel_progress {s : Load κ β} {b : β} {bs : List β} (hs : s.rest = b :: bs) (d : Nat) :
    (loadLevel B depth (B.pos b) s d).rest.length < s.rest.length ∨
      (loadLevel B depth (B.pos b) s d).cannotInsert = true := by
  have hlt : ∀ n, 0 < n → (takePos B (B.pos b) n s.rest).2.length < s.rest.length := by
    intro n hn
    obtain ⟨n, rfl⟩ := Nat.exists_eq_succ_of_ne_zero hn.ne'
    have := congrArg List.length (@takePos_append _ _ B (B.pos b) n bs)
    rw [List.length_append] at this
    simp only [hs, takePos, if_true, List.length_cons]
    omega
  unfold loadLevel
  simp only [hs, ne_eq, not_true_eq_false, if_false]
  rw [← hs]
  split
  · exact .inl (hlt Z (by decide))
  · split
    · exact .inl (hlt _ (by omega))
    · exact .inr rfl

variable [DecidableEq κ]

/-- **Every round** places at least one block. -/
theorem loadRound_rest {s : Load κ β} (hs : s.rest ≠ []) :
    (loadRound B depth s).rest.length < s.rest.length := by
  unfold loadRound
  split
  · next h => exact absurd h hs
  · next b bs hb =>
    rw [List.range_succ, List.reverse_append, List.reverse_singleton, List.singleton_append,
      List.foldl_cons]
    generalize hlev : loadLevel B depth (B.pos b) s depth = t
    have hprog := @loadLevel_progress _ _ B depth _ _ _ hb depth
    rw [hlev] at hprog
    have hle := @levels_rest_le _ _ B depth (B.pos b) (List.range depth).reverse t
    have hst := @loadLevel_rest_le _ _ B depth (B.pos b) s depth
    rw [hlev] at hst
    simp only
    split
    · next hnil =>
      rw [hnil, hb]
      exact Nat.succ_pos _
    · next c cs hc =>
      rw [hc, List.length_cons] at hle
      split
      · show cs.length < _
        omega
      · next hno =>
        rcases hprog with hprog | hprog
        · show (List.foldl _ t _).rest.length < _
          rw [hc, List.length_cons]
          omega
        · exact absurd (levels_cannotInsert (B.pos b) _ t hprog) hno

theorem loadLoop_rest (n : Nat) : ∀ s : Load κ β, s.rest.length ≤ n →
    (loadLoop B depth n s).rest = [] := by
  induction n with
  | zero =>
    intro s h
    exact List.length_eq_zero_iff.mp (Nat.le_zero.mp h)
  | succ n ih =>
    intro s h
    unfold loadLoop
    split
    · next he => exact List.isEmpty_iff.mp he
    · next he =>
      have := @loadRound_rest _ _ B depth _ s fun e => he (List.isEmpty_iff.mpr e)
      exact ih _ (by omega)

end

/-! ## The result -/

section

variable {κ β : Type} [DecidableEq κ] {B : Blocks κ β} {depth : Nat} {nodes : List β}
  {w : Work κ β}

omit [DecidableEq κ] in
theorem writeBuckets_spec (l : List (Int × List β)) :
    ∀ store : Int → List β, (l.map Prod.fst).Nodup →
      (∀ e ∈ l, 0 ≤ e.1 ∧ e.1 < bucketCount depth) →
      ∃ store', writeBuckets B depth l store = some store' ∧
        (∀ e ∈ l, store' e.1 = e.2 ++ List.replicate (Z - e.2.length) B.dummy) ∧
        ∀ i, i ∉ l.map Prod.fst → store' i = store i := by
  induction l with
  | nil => exact fun store _ _ => ⟨store, rfl, by simp, fun _ _ => rfl⟩
  | cons e l ih =>
    intro store hnd hr
    obtain ⟨hne, hnd⟩ := List.nodup_cons.mp hnd
    obtain ⟨store', h1, h2, h3⟩ := ih (Function.update store e.1
      (e.2 ++ List.replicate (Z - e.2.length) B.dummy)) hnd
      fun d hd => hr d (List.mem_cons_of_mem _ hd)
    refine ⟨store', ?_, fun d hd => ?_, fun i hi => ?_⟩
    · have hw : writeBucket depth store e.1 (e.2 ++ List.replicate (Z - e.2.length) B.dummy) =
          some (Function.update store e.1 (e.2 ++ List.replicate (Z - e.2.length) B.dummy)) :=
        if_pos (hr e List.mem_cons_self)
      show run _ store (e :: l) = _
      rw [run_cons, hw]
      exact h1
    · rcases List.mem_cons.mp hd with rfl | hd
      · rw [h3 _ hne, Function.update_self]
      · exact h2 d hd
    · rw [List.map_cons, List.mem_cons, not_or] at hi
      rw [h3 i hi.2, Function.update_of_ne hi.1]

/-- What the loops leave: all blocks in buckets or in the stash. -/
theorem setupInsert_load (S : PosSort B) (hnd : (nodes.map B.key).Nodup)
    (hleaf : ∀ b ∈ nodes, Leaf depth (B.pos b)) (hstash : w.stash = ∅) :
    ∃ s store, setupInsert B depth S nodes w = some { w with
        stash := s.stash
        store := store } ∧
      s.rest = [] ∧ LoadInv B depth nodes s ∧
      (∀ e ∈ s.buckets.pairs, store e.1 = e.2 ++ List.replicate (Z - e.2.length) B.dummy) ∧
      ∀ i, i ∉ s.buckets.pairs.map Prod.fst → store i = w.store i := by
  have hinit : LoadInv B depth nodes ⟨∅, w.stash, S.sort nodes, false⟩ := by
    rw [hstash]
    refine ⟨?_, fun e he => absurd he List.not_mem_nil, fun e he => absurd he List.not_mem_nil,
      fun i hi => absurd hi (AList.notMem_empty i), fun e he => absurd he List.not_mem_nil⟩
    simpa using S.perm nodes
  have hrest := @loadLoop_rest _ _ B depth _ nodes.length ⟨∅, w.stash, S.sort nodes, false⟩
    (S.perm nodes).length_eq.le
  generalize hs : loadLoop B depth nodes.length ⟨∅, w.stash, S.sort nodes, false⟩ = s at hrest
  have h := hs ▸ hinit.loop hnd hleaf nodes.length
  obtain ⟨store, h1, h2, h3⟩ := @writeBuckets_spec _ _ B depth s.buckets.pairs w.store
    s.buckets.nodup_pairs fun e he => h.range e.1 (by
      rw [AList.mem_keys, ← Table.keys_pairs]
      exact List.mem_map_of_mem he)
  refine ⟨s, store, ?_, hrest, h, h2, h3⟩
  simp only [setupInsert, hs, h1, Option.bind_eq_bind, Option.bind_some, hrest, List.foldl_nil]
  rfl

/-- **Bulk loading** keeps every block on its path or in the stash. -/
theorem setupInsert_spec (S : PosSort B) (hnd : (nodes.map B.key).Nodup)
    (hreal : ∀ b ∈ nodes, B.real (B.key b) = true) (hleaf : ∀ b ∈ nodes, Leaf depth (B.pos b))
    (hstash : w.stash = ∅) (hstore : ∀ i, ∀ b ∈ w.store i, B.real (B.key b) = false) :
    ∃ w', setupInsert B depth S nodes w = some w' ∧ w'.view = w.view ∧ w'.time = w.time ∧
      Keeps B depth (fun k => nodes.find? fun b => B.key b = k) ∅ w' := by
  obtain ⟨s, store, hset, hrest, h, h2, h3⟩ := setupInsert_load S hnd hleaf hstash
  refine ⟨_, hset, rfl, rfl, ?_⟩
  refine Stash.Holds.load hnd hreal (T := s.buckets) ?_ h.keyed h.fits fun i => ?_
  · have := h.perm
    rwa [hrest, List.append_nil] at this
  · cases hi : s.buckets.lookup i with
    | none =>
      have hnot : i ∉ s.buckets.pairs.map Prod.fst := by
        rw [Table.keys_pairs, ← AList.mem_keys]
        exact AList.lookup_eq_none.mp hi
      refine ⟨w.store i, ?_, hstore i⟩
      rw [Table.get, hi]
      exact h3 i hnot
    | some l =>
      refine ⟨List.replicate (Z - l.length) B.dummy, ?_, fun b hb => ?_⟩
      · rw [Table.get, hi]
        exact h2 _ (Table.mem_pairs.mpr hi)
      · rw [List.eq_of_mem_replicate hb]
        exact B.real_dummy

omit [DecidableEq κ] in
theorem nodup_buckets (depth : Nat) :
    ((List.range (bucketCount depth)).map fun i : Nat => (i : Int)).Nodup :=
  List.Nodup.map (fun _ _ h => Int.ofNat_inj.mp h) List.nodup_range

/-- **Every block has one place**, whatever its key: the blocks `placed` in the buckets
and the ones in the stash are the blocks given. -/
theorem setupInsert_placed (S : PosSort B) (hnd : (nodes.map B.key).Nodup)
    (hleaf : ∀ b ∈ nodes, Leaf depth (B.pos b)) (hstash : w.stash = ∅)
    (hstore : ∀ i, w.store i = List.replicate Z B.dummy) :
    ∃ (w' : Work κ β) (placed : Int → List β), setupInsert B depth S nodes w = some w' ∧
      (((List.range (bucketCount depth)).flatMap fun i : Nat => placed (i : Int)) ++
        w'.stash.pairs.map Prod.snd).Perm nodes ∧
      (∀ e ∈ w'.stash.pairs, B.key e.2 = e.1) ∧
      ∀ i : Int, w'.store i = placed i ++ List.replicate (Z - (placed i).length) B.dummy ∧
        (placed i).length ≤ Z ∧ ∀ b ∈ placed i, OnPath depth (B.pos b) i := by
  obtain ⟨s, store, hset, hrest, h, h2, h3⟩ := setupInsert_load S hnd hleaf hstash
  refine ⟨_, s.buckets.get, hset, ?_, h.keyed, fun i => ?_⟩
  · have hperm := h.perm
    rw [hrest, List.append_nil] at hperm
    refine List.Perm.trans (List.Perm.append_right _ ?_) hperm
    rw [← List.flatMap_map (fun i : Nat => (i : Int)) s.buckets.get]
    refine Table.flatMap_get (nodup_buckets depth) fun i hi => ?_
    obtain ⟨h0, hlt⟩ := h.range i hi
    obtain ⟨j, rfl⟩ := Int.eq_ofNat_of_zero_le h0
    exact List.mem_map.mpr ⟨j, List.mem_range.mpr (by omega), rfl⟩
  · cases hi : s.buckets.lookup i with
    | none =>
      have hnot : i ∉ s.buckets.pairs.map Prod.fst := by
        rw [Table.keys_pairs, ← AList.mem_keys]
        exact AList.lookup_eq_none.mp hi
      rw [Table.get, hi]
      exact ⟨(h3 i hnot).trans (hstore i), Nat.zero_le _, fun b hb => absurd hb List.not_mem_nil⟩
    | some l =>
      have hl := Table.mem_pairs.mpr hi
      rw [Table.get, hi]
      refine ⟨h2 _ hl, h.size _ hl, fun b hb => ?_⟩
      exact h.fits (i, b) (List.mem_flatMap.mpr ⟨(i, l), hl, List.mem_map.mpr ⟨b, hb, rfl⟩⟩)

end

end SmallClientSSE.Omap
