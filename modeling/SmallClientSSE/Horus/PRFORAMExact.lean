import SmallClientSSE.Horus.PRFORAM

/-!
# Does PRFORAM behave as a finite map?

Between calls the stash and the buckets hold one box for every key written, on the
path of its leaf (`Keeps`). A batch first reads the paths of its items. It takes an
item as cached when `stash.count` finds its leaf number, read as a key, so a box
whose key is that number is returned in its place, or keeps a path from being
read. `clearRun` says that this does not happen, and then every run answers like
the map (`run_exact`).
-/

namespace SmallClientSSE.Prforam

open Lib Omap

def boxMap (pos : Bid 24 → Int) (m : FMap 24) : Bid 24 → Option Box := fun k =>
  (m k).map fun v => newBox k v (pos k)

/-- Keys that are not padding, with texts that fit. -/
def Fits (e : Bid 24 × Str) : Prop := e.1.isZero = false ∧ NulFree e.2 ∧ e.2.length ≤ 16

instance (e : Bid 24 × Str) : Decidable (Fits e) := inferInstanceAs (Decidable (_ ∧ _))

/-- The boxes of a map with keys and texts that fit. -/
def Good (m : FMap 24) : Prop := ∀ k v, m k = some v → Fits (k, v)

section

variable {pos : Bid 24 → Int} {m : FMap 24} {o : PRFORAM} {dead : Set Int} {k : Bid 24} {v : Str}

theorem boxMap_insert (pos : Bid 24 → Int) (m : FMap 24) (k : Bid 24) (v : Str) :
    boxMap pos (m.insert k v) = Function.update (boxMap pos m) k (some (newBox k v (pos k))) := by
  funext j
  by_cases h : j = k
  · subst h
    simp [boxMap, FMap.insert]
  · simp [boxMap, FMap.insert, h]

theorem Good.insert (h : Good m) (hf : Fits (k, v)) : Good (m.insert k v) := by
  intro j u hj
  rw [FMap.insert_apply] at hj
  split at hj
  · next e => rw [e, ← Option.some.inj hj]; exact hf
  · exact h j u hj

theorem good_empty : Good fun _ => none := fun _ _ h => by cases h

/-- What a reader finds under a key whose path has been read, or that is stashed. -/
theorem textAt_eq (h : Keeps boxes o.depth (boxMap pos m) dead (work o)) (hm : Good m)
    (hk : k.isZero = false)
    (hdead : k ∈ o.stash ∨ ∀ i, OnPath o.depth (pos k) i → i ∈ dead) : textAt o k = m.find k := by
  have hreal : boxes.real k = true := by simp [boxes, hk]
  cases hmk : m k with
  | none =>
    have hnone : o.stash.lookup k = none := by
      rw [Option.eq_none_iff_forall_ne_some]
      intro b hb
      have := h.stashed hb hreal
      simp [boxMap, hmk] at this
    simp [textAt, hnone, FMap.find, hmk]
  | some v =>
    have hV : boxMap pos m k = some (newBox k v (pos k)) := by simp [boxMap, hmk]
    have hlook : o.stash.lookup k = some (newBox k v (pos k)) := by
      rcases hdead with hs | hdead
      · obtain ⟨b, hb⟩ := Option.isSome_iff_exists.mp (AList.lookup_isSome.mpr hs)
        rw [h.stashed hb hreal] at hV
        exact hb.trans hV
      · exact h.stash_of_fits hV hdead
    obtain ⟨-, hnul, hlen⟩ := hm k v hmk
    simp [textAt, hlook, FMap.find, hmk, newBox, Buf.cstr_copyStr hnul hlen]

end

/-! ## Paths -/

section

variable {V : Bid 24 → Option Box} {o : PRFORAM} {leaf : Int}

theorem fetchPath_batch (hl : Leaf o.depth leaf)
    (h : Keeps boxes o.depth V {i | i ∈ o.viewmap} (work o)) :
    ∃ o', fetchPath o leaf true = some o' ∧ o'.depth = o.depth ∧ o'.emptyNodes = o.emptyNodes ∧
      Keeps boxes o.depth V {i | i ∈ o'.viewmap} (work o') ∧
      (∀ i, i ∈ o'.viewmap ↔ i ∈ o.viewmap ∨ OnPath o.depth leaf i) ∧
      ∀ {k b}, o.stash.lookup k = some b → o'.stash.lookup k = some b := by
  obtain ⟨w, hw, h1, -, -, h4, h5⟩ := fetchPath_spec (w := work o) hl h
  exact ⟨withWork o w, by rw [fetchPath, hw]; rfl, rfl, rfl, h1, h4, h5⟩

theorem writeBack_spec {leafs : List Int} (hl : ∀ leaf ∈ leafs, Leaf o.depth leaf)
    (h : Keeps boxes o.depth V {i | ∃ leaf ∈ leafs, OnPath o.depth leaf i} (work o)) :
    ∃ o', writeBack o leafs = some o' ∧ o'.depth = o.depth ∧ o'.emptyNodes = o.emptyNodes ∧
      Keeps boxes o.depth V ∅ (work o') := by
  obtain ⟨w, hw, h1, -⟩ := writePaths_spec (w := work { o with viewmap := [] }) hl rfl h
  exact ⟨withWork o w, by rw [writeBack, hw]; rfl, rfl, rfl, h1⟩

theorem mem_insertLeaf {l : Int} {leafs : List Int} :
    l ∈ insertLeaf leaf leafs ↔ l = leaf ∨ l ∈ leafs := by
  unfold insertLeaf
  split
  · next h =>
    constructor
    · exact .inr
    · rintro (rfl | hl)
      exacts [h, hl]
  · exact List.mem_orderedInsert _

/-- The buckets read in a batch are the ones on its paths, and they are dead. -/
structure Batch (V : Bid 24 → Option Box) (r : PRFORAM × List Int) : Prop where
  keeps : Keeps boxes r.1.depth V {i | i ∈ r.1.viewmap} (work r.1)
  view : ∀ i, i ∈ r.1.viewmap ↔ ∃ leaf ∈ r.2, OnPath r.1.depth leaf i
  leaves : ∀ leaf ∈ r.2, Leaf r.1.depth leaf

theorem Batch.start (h : Keeps boxes o.depth V ∅ (work o)) :
    Batch V ({ o with viewmap := [] }, []) :=
  ⟨by
    show Keeps boxes o.depth V {i | i ∈ []} (work o)
    simpa using h, by simp, by simp⟩

theorem Batch.finish {r : PRFORAM × List Int} (h : Batch V r) :
    ∃ o', writeBack r.1 r.2 = some o' ∧ o'.depth = r.1.depth ∧ o'.emptyNodes = r.1.emptyNodes ∧
      Keeps boxes r.1.depth V ∅ (work o') := by
  refine writeBack_spec h.leaves ?_
  rw [show {i | ∃ leaf ∈ r.2, OnPath r.1.depth leaf i} = {i | i ∈ r.1.viewmap} from
    Set.ext fun i => (h.view i).symm]
  exact h.keeps

/-- **Reaching a leaf** that no stashed key is mistaken for. -/
theorem Batch.reach {r : PRFORAM × List Int} (h : Batch V r) (hl : Leaf r.1.depth leaf) :
    ∃ r', reach leaf r = some r' ∧ Batch V r' ∧ r'.1.depth = r.1.depth ∧
      r'.1.emptyNodes = r.1.emptyNodes ∧
      (Bid.ofValue leaf ∈ r.1.stash ∧ r' = r ∨ Bid.ofValue leaf ∉ r.1.stash ∧ leaf ∈ r'.2) := by
  by_cases hs : Bid.ofValue leaf ∈ r.1.stash
  · exact ⟨r, if_pos hs, h, rfl, rfl, .inl ⟨hs, rfl⟩⟩
  · obtain ⟨o', ho, hd, he, hk, hv, -⟩ := fetchPath_batch hl h.keeps
    refine ⟨(o', insertLeaf leaf r.2), ?_, ⟨hd ▸ hk, fun i => ?_, fun l hl' => ?_⟩, hd, he,
      .inr ⟨hs, mem_insertLeaf.mpr (.inl rfl)⟩⟩
    · simp [Prforam.reach, hs, ho]
    · rw [hv, h.view]
      show _ ↔ ∃ l ∈ insertLeaf leaf r.2, OnPath o'.depth l i
      simp only [mem_insertLeaf, hd]
      constructor
      · rintro (⟨l, hl, hi⟩ | hi)
        exacts [⟨l, .inr hl, hi⟩, ⟨leaf, .inl rfl, hi⟩]
      · rintro ⟨l, rfl | hl, hi⟩
        exacts [.inr hi, .inl ⟨l, hl, hi⟩]
    · show Leaf o'.depth l
      rw [hd]
      rcases mem_insertLeaf.mp hl' with rfl | hl'
      exacts [hl, h.leaves l hl']

/-- A key stored under its own leaf is stashed once the leaf is reached. -/
theorem Batch.dead {r : PRFORAM × List Int} (h : Batch V r) (hl : leaf ∈ r.2) :
    ∀ i, OnPath r.1.depth leaf i → i ∈ {i | i ∈ r.1.viewmap} := fun i hi =>
  (h.view i).mpr ⟨leaf, hl, hi⟩

end

/-! ## When no leaf number is mistaken for a key -/

/-- The items of a `batchRead` whose leaf number is a stashed key are that key. -/
def clearReads : PRFORAM × List Int → List (Bid 24 × Int) → Bool
  | _, [] => true
  | r, item :: items =>
    (decide (Bid.ofValue item.2 ∉ r.1.stash) || decide (Bid.ofValue item.2 = item.1)) &&
      (reach item.2 r).all fun r' => clearReads r' items

/-- The items of a `batchWrite` whose leaf number is a stashed key are stashed or
in no bucket. -/
def clearWrites : PRFORAM × List Int → List ((Bid 24 × Str) × (Bid 24 × Int)) → Bool
  | _, [] => true
  | r, item :: items =>
    (decide (Bid.ofValue item.2.2 ∉ r.1.stash) || decide (item.1.1 ∈ r.1.stash) ||
      (List.range (bucketCount r.1.depth)).all fun i =>
        (r.1.store i).all fun b => decide (b.key ≠ item.1.1)) &&
      (writeItem r item).all fun r' => clearWrites r' items

section

variable (pos : Bid 24 → Int)

def clearCall (o : PRFORAM) : Call → Bool
  | .writeBox _ _ => true
  | .batchWrite values =>
    clearWrites ({ o with viewmap := [] }, []) (values.zip (posesOf pos values))
  | .batchRead ids => clearReads ({ o with viewmap := [] }, []) (ids.map fun id => (id, pos id))

/-- No call of the run takes a leaf number for a key. -/
def clearRun : List (List Str) × PRFORAM → List Call → Bool
  | _, [] => true
  | r, c :: cs => clearCall pos r.2 c && (step pos r c).all fun r' => clearRun r' cs

end

section

variable {pos : Bid 24 → Int}

theorem clearReads_cons {r : PRFORAM × List Int} {item : Bid 24 × Int}
    {items : List (Bid 24 × Int)} (h : clearReads r (item :: items) = true) :
    (Bid.ofValue item.2 ∈ r.1.stash → Bid.ofValue item.2 = item.1) ∧
      ∀ r', reach item.2 r = some r' → clearReads r' items = true := by
  simp only [clearReads, Bool.and_eq_true, Bool.or_eq_true, decide_eq_true_eq] at h
  refine ⟨fun hs => h.1.resolve_left fun hn => hn hs, fun r' hr => ?_⟩
  simpa [hr] using h.2

theorem clearWrites_cons {r : PRFORAM × List Int} {item : (Bid 24 × Str) × (Bid 24 × Int)}
    {items : List ((Bid 24 × Str) × (Bid 24 × Int))}
    (h : clearWrites r (item :: items) = true) :
    (Bid.ofValue item.2.2 ∈ r.1.stash → item.1.1 ∈ r.1.stash ∨
        ∀ i, i < bucketCount r.1.depth → ∀ b ∈ r.1.store i, b.key ≠ item.1.1) ∧
      ∀ r', writeItem r item = some r' → clearWrites r' items = true := by
  simp only [clearWrites, Bool.and_eq_true, Bool.or_eq_true, decide_eq_true_eq, List.all_eq_true,
    List.mem_range] at h
  refine ⟨fun hs => ?_, fun r' hr => ?_⟩
  · rcases h.1 with (hn | hin) | hout
    exacts [absurd hs hn, .inl hin, .inr hout]
  · simpa [hr] using h.2

theorem clearRun_cons {r : List (List Str) × PRFORAM} {c : Call} {cs : List Call}
    (h : clearRun pos r (c :: cs) = true) : clearCall pos r.2 c = true ∧
      ∀ r', step pos r c = some r' → clearRun pos r' cs = true := by
  simp only [clearRun, Bool.and_eq_true] at h
  exact ⟨h.1, fun r' hr => by simpa [hr] using h.2⟩

end

/-! ## Calls -/

section

variable {pos : Bid 24 → Int} {m : FMap 24} {o : PRFORAM}

/-- Between calls: the boxes of `m`, each once. -/
structure Inv (pos : Bid 24 → Int) (depth : Nat) (m : FMap 24) (o : PRFORAM) : Prop where
  depth_eq : o.depth = depth
  good : Good m
  keeps : Keeps boxes depth (boxMap pos m) ∅ (work o)

/-- A box written while its path is dead, or into the stash. -/
theorem writeData_spec {dead : Set Int} {k : Bid 24} {v : Str}
    (hk : Keeps boxes o.depth (boxMap pos m) dead (work o)) (hf : Fits (k, v))
    (hspace : 0 < o.emptyNodes)
    (hdead : (k ∈ o.stash ∨ boxMap pos m k = none) ∨ ∀ i, OnPath o.depth (pos k) i → i ∈ dead) :
    writeData o k (newBox k v (pos k)) = some { o with
        stash := o.stash.put k (newBox k v (pos k))
        emptyNodes := o.emptyNodes - 1 } ∧
      Keeps boxes o.depth (boxMap pos (m.insert k v)) dead
        (work { o with
          stash := o.stash.put k (newBox k v (pos k))
          emptyNodes := o.emptyNodes - 1 }) := by
  refine ⟨if_pos hspace, ?_⟩
  rw [boxMap_insert]
  refine Stash.Holds.put hk (by simp [boxes, hf.1]) rfl ?_
  rcases hdead with hdead | hdead
  · exact hdead
  · cases hmk : m k with
    | none => exact .inr (by simp [boxMap, hmk])
    | some u =>
      have hV : boxMap pos m k = some (newBox k u (pos k)) := by simp [boxMap, hmk]
      have hlook : o.stash.lookup k = _ := hk.stash_of_fits hV hdead
      exact .inl (AList.lookup_isSome.mp (by rw [hlook]; rfl))

variable {depth : Nat} (hpos : ∀ id, Leaf depth (pos id))

include hpos

theorem readItems_spec (hm : Good m) (items : List (Bid 24)) :
    ∀ (r : PRFORAM × List Int) (acc : List Str), r.1.depth = depth → Batch (boxMap pos m) r →
      (∀ id ∈ items, id.isZero = false) → clearReads r (items.map fun id => (id, pos id)) = true →
      ∃ r', run readItem (r, acc) (items.map fun id => (id, pos id)) =
          some (r', acc ++ items.map m.find) ∧
        Batch (boxMap pos m) r' ∧ r'.1.depth = depth ∧ r'.1.emptyNodes = r.1.emptyNodes := by
  induction items with
  | nil => exact fun r acc hd h _ _ => ⟨r, by simp, h, hd, rfl⟩
  | cons id items ih =>
    rintro r acc rfl h hids hc
    obtain ⟨hclear, hrest⟩ := clearReads_cons hc
    obtain ⟨r', hr, h', hd', he', hcase⟩ := h.reach (hpos id)
    have hid := hids id List.mem_cons_self
    have hread : readItem (r, acc) (id, pos id) = some (r', acc ++ [m.find id]) := by
      rcases hcase with ⟨hs, rfl⟩ | ⟨hs, hleaf⟩
      · have hkey : Bid.ofValue (pos id) = id := hclear hs
        simp only [readItem, hr, Option.bind_eq_bind, Option.bind_some, hkey]
        rw [textAt_eq h.keeps hm hid (.inl (by rwa [hkey] at hs)), ite_self]
        rfl
      · simp only [readItem, hr, Option.bind_eq_bind, Option.bind_some, if_neg hs]
        rw [textAt_eq h'.keeps hm hid (.inr (h'.dead hleaf))]
        rfl
    obtain ⟨r'', hrun, h'', hd'', he''⟩ := ih r' (acc ++ [m.find id]) hd' h'
      (fun j hj => hids j (List.mem_cons_of_mem _ hj)) (hrest r' hr)
    refine ⟨r'', ?_, h'', hd'', he''.trans he'⟩
    rw [List.map_cons, run_cons, hread, Option.bind_some, hrun, List.map_cons, List.append_assoc]
    rfl

theorem batchRead_spec {ids : List (Bid 24)} (h : Inv pos depth m o)
    (hids : ∀ id ∈ ids, id.isZero = false) (hclear : clearCall pos o (.batchRead ids) = true) :
    ∃ o', batchRead o (ids.map fun id => (id, pos id)) = some (ids.map m.find, o') ∧
      Inv pos depth m o' ∧ o'.emptyNodes = o.emptyNodes := by
  obtain ⟨rfl, hm, hk⟩ := h
  obtain ⟨r, hrun, hb, hd, he⟩ := readItems_spec hpos hm ids ({ o with viewmap := [] }, []) []
    rfl (Batch.start hk) hids hclear
  obtain ⟨o', ho, hd', he', hk'⟩ := hb.finish
  refine ⟨o', ?_, ⟨hd'.trans hd, hm, hd ▸ hk'⟩, he'.trans he⟩
  simp [batchRead, hrun, ho]

theorem writeItems_spec (items : List (Bid 24 × Str)) :
    ∀ (m : FMap 24) (r : PRFORAM × List Int), r.1.depth = depth → Good m →
      Batch (boxMap pos m) r → (∀ e ∈ items, Fits e) → items.length ≤ r.1.emptyNodes →
      clearWrites r (items.zip (posesOf pos items)) = true →
      ∃ r', run writeItem r (items.zip (posesOf pos items)) = some r' ∧
        Good (storeAll m items) ∧ Batch (boxMap pos (storeAll m items)) r' ∧ r'.1.depth = depth ∧
        r'.1.emptyNodes + items.length = r.1.emptyNodes := by
  induction items with
  | nil => exact fun m r hd hm h _ _ _ => ⟨r, rfl, hm, h, hd, rfl⟩
  | cons e items ih =>
    rintro m r rfl hm h hfits hspace hc
    obtain ⟨hclear, hrest⟩ := clearWrites_cons hc
    obtain ⟨k, v⟩ := e
    obtain ⟨r', hr, h', hd', he', hcase⟩ := h.reach (hpos k)
    have hf := hfits _ List.mem_cons_self
    rw [List.length_cons] at hspace
    have hput := writeData_spec h'.keeps hf (by omega) (by
      rcases hcase with ⟨hs, rfl⟩ | ⟨-, hleaf⟩
      · rcases hclear hs with hin | hout
        · exact .inl (.inl hin)
        · refine .inl ?_
          by_cases hin : k ∈ r'.1.stash
          · exact .inl hin
          · right
            rw [Option.eq_none_iff_forall_ne_some]
            intro b hb
            rcases h.keeps.found hb with hb' | ⟨i, hi, hb'⟩
            · exact hin (AList.lookup_isSome.mp (hb' ▸ rfl))
            · have hkey : boxes.real (boxes.key b) = true := by
                rw [(h.keeps.proper hb).1]
                simp [boxes, hf.1]
              have hi := (h.keeps.stored hi hb' hkey).2.1
              obtain ⟨v', -, rfl⟩ := Option.map_eq_some_iff.mp hb
              obtain ⟨j, hj, rfl⟩ := OnPath.range (hpos k) hi
              exact hout j hj _ hb' rfl
      · exact .inr (h'.dead hleaf))
    obtain ⟨hwd, hk1⟩ := hput
    generalize ho : ({ r'.1 with
      stash := r'.1.stash.put k (newBox k v (pos k))
      emptyNodes := r'.1.emptyNodes - 1 } : PRFORAM) = o at hwd hk1
    have hwrite : writeItem r ((k, v), (k, pos k)) = some (o, r'.2) := by
      simp only [writeItem, hr, Option.bind_eq_bind, Option.bind_some, hwd]
      rfl
    have hb : Batch (boxMap pos (m.insert k v)) (o, r'.2) := by
      subst ho
      exact ⟨hk1, h'.view, h'.leaves⟩
    have hspace' : o.emptyNodes = r'.1.emptyNodes - 1 := by rw [← ho]
    have hdo : o.depth = r'.1.depth := by rw [← ho]
    obtain ⟨r'', hrun, hm'', h'', hd'', he''⟩ := ih (m.insert k v) (o, r'.2) (hdo.trans hd')
      (hm.insert hf) hb (fun e he => hfits e (List.mem_cons_of_mem _ he))
      (show items.length ≤ o.emptyNodes by omega) (hrest _ hwrite)
    refine ⟨r'', ?_, hm'', h'', hd'', ?_⟩
    · rw [posesOf, List.map_cons, List.zip_cons_cons, run_cons, hwrite, Option.bind_some]
      exact hrun
    · rw [List.length_cons]
      replace he'' : r''.1.emptyNodes + items.length = o.emptyNodes := he''
      omega

theorem batchWrite_spec {values : List (Bid 24 × Str)} (h : Inv pos depth m o)
    (hfits : ∀ e ∈ values, Fits e) (hspace : values.length ≤ o.emptyNodes)
    (hclear : clearCall pos o (.batchWrite values) = true) :
    ∃ o', batchWrite o values (posesOf pos values) = some o' ∧
      Inv pos depth (storeAll m values) o' ∧ o'.emptyNodes + values.length = o.emptyNodes := by
  obtain ⟨rfl, hm, hk⟩ := h
  obtain ⟨r, hrun, hm', hb, hd, he⟩ := writeItems_spec hpos values m ({ o with viewmap := [] }, [])
    rfl hm (Batch.start hk) hfits hspace hclear
  obtain ⟨o', ho, hd', he', hk'⟩ := hb.finish
  refine ⟨o', by simp [batchWrite, hrun, ho], ⟨hd'.trans hd, hm', hd ▸ hk'⟩, ?_⟩
  rw [he']
  exact he

theorem writeBox_spec {k : Bid 24} {v : Str} (h : Inv pos depth m o) (hf : Fits (k, v))
    (hspace : 0 < o.emptyNodes) :
    ∃ o', writeBox o k v (pos k) = some o' ∧ Inv pos depth (m.insert k v) o' ∧
      o'.emptyNodes + 1 = o.emptyNodes := by
  obtain ⟨rfl, hm, hk⟩ := h
  obtain ⟨w, hw, h1, -, -, -⟩ := fetchPath_whole (hpos k) hk
  have hfetch : fetchPath o (pos k) false = some (withWork o w) := by rw [fetchPath, hw]; rfl
  obtain ⟨hput, hk1⟩ := writeData_spec (o := withWork o w) h1 hf hspace (.inr fun i hi => hi)
  generalize ho1 : ({ withWork o w with
    stash := (withWork o w).stash.put k (newBox k v (pos k))
    emptyNodes := (withWork o w).emptyNodes - 1 } : PRFORAM) = o1 at hput hk1
  have hd1 : o1.depth = o.depth := by rw [← ho1]; rfl
  have he1 : o1.emptyNodes = o.emptyNodes - 1 := by rw [← ho1]; rfl
  replace hk1 : Keeps boxes o1.depth (boxMap pos (m.insert k v))
      {i | ∃ leaf ∈ [pos k], OnPath o1.depth leaf i} (work o1) := by
    rw [hd1]
    simpa [withWork] using hk1
  obtain ⟨o', ho, hd', he', hk'⟩ := @writeBack_spec _ _ [pos k] (by
    rw [hd1]
    simpa using hpos k) hk1
  refine ⟨o', ?_, ⟨hd'.trans hd1, hm.insert hf, hd1 ▸ hk'⟩, ?_⟩
  · simp only [writeBox, hf.1, Bool.false_eq_true, if_false, hfetch, Option.bind_eq_bind,
      Option.bind_some, hput, ho]
  · rw [he', he1]
    exact Nat.sub_add_cancel hspace

end

/-! ## Runs -/

def Call.reads : Call → List (Bid 24)
  | .batchRead ids => ids
  | _ => []

structure CallOk (c : Call) : Prop where
  writes : ∀ e ∈ c.writes, Fits e
  reads : ∀ id ∈ c.reads, id.isZero = false

def writesOf (calls : List Call) : Nat := (calls.map fun c => c.writes.length).sum

/-- Every box is in the stash or in a bucket on the path of its key's leaf, and no
key has two boxes. -/
structure WellPlaced (pos : Bid 24 → Int) (o : PRFORAM) : Prop where
  stash : ∀ {k b}, o.stash.lookup k = some b → b.key = k
  path : ∀ {i b}, b ∈ o.store i → b.key.isZero = false → OnPath o.depth (pos b.key) i
  apart : ∀ {i b}, b ∈ o.store i → b.key.isZero = false → b.key ∉ o.stash
  once : ∀ {i j b c}, b ∈ o.store i → c ∈ o.store j → b.key.isZero = false → b.key = c.key → i = j
  nodup : ∀ i, (((o.store i).map Box.key).filter fun k => !k.isZero).Nodup

section

variable {pos : Bid 24 → Int} {m : FMap 24} {o : PRFORAM} {depth : Nat}

theorem Inv.wellPlaced (h : Inv pos depth m o) : WellPlaced pos o := by
  obtain ⟨rfl, hm, hk⟩ := h
  have hout : ∀ i : Int, i ∉ (∅ : Set Int) := fun _ h => h
  have hreal : ∀ {b : Box}, b.key.isZero = false → boxes.real (boxes.key b) = true := fun hb => by
    simp [boxes, hb]
  refine ⟨hk.keyed, fun {i b} hb hz => ?_, fun hb hz => (hk.stored (hout _) hb (hreal hz)).2.2,
    fun hb hc hz e => hk.once (hout _) (hout _) hb hc (hreal hz) e, fun i => hk.nodup (hout i)⟩
  obtain ⟨h1, h2, -⟩ := hk.stored (hout i) hb (hreal hz)
  obtain ⟨v, -, hv⟩ := Option.map_eq_some_iff.mp h1
  have hp : b.pos = pos b.key := by
    conv_lhs => rw [← hv]
    rfl
  rwa [← hp]

theorem inv_init (maxSize : Nat) : Inv pos (depthOf maxSize) (fun _ => none) (init maxSize) := by
  refine ⟨rfl, good_empty, ?_⟩
  refine Stash.Holds.load (l := []) (T := ∅) List.nodup_nil (by simp) (by simp [work, init])
    (by simp [work, init]) (by simp) fun i => ⟨List.replicate Z Box.dummy, rfl, fun b hb => ?_⟩
  rw [List.eq_of_mem_replicate hb]
  rfl

theorem storeAll_of_notMem {values : List (Bid 24 × Str)} {k : Bid 24} :
    ∀ {m : FMap 24}, k ∉ values.map Prod.fst → storeAll m values k = m k := by
  induction values with
  | nil => exact fun _ => rfl
  | cons e values ih =>
    intro m h
    rw [List.map_cons, List.mem_cons, not_or] at h
    exact (ih h.2).trans (FMap.insert_of_ne _ h.1)

theorem zip_posesOf (values : List (Bid 24 × Str)) :
    (values.zip (posesOf pos values)).map (fun item => newBox item.1.1 item.1.2 item.2.2) =
      values.map fun e => newBox e.1 e.2 (pos e.1) := by
  induction values with
  | nil => rfl
  | cons e values ih => exact congrArg (_ :: ·) ih

/-- The boxes of a setup are the ones of the map. -/
theorem find_newBox (values : List (Bid 24 × Str)) (k : Bid 24) :
    ∀ m : FMap 24, (values.map Prod.fst).Nodup → m k = none →
      (values.map fun e => newBox e.1 e.2 (pos e.1)).find? (fun b => b.key = k) =
        boxMap pos (storeAll m values) k := by
  induction values with
  | nil =>
    intro m _ hm
    simp [storeAll, boxMap, hm]
  | cons e values ih =>
    intro m hnd hm
    obtain ⟨hne, hnd⟩ := List.nodup_cons.mp hnd
    rw [List.map_cons]
    by_cases hk : e.1 = k
    · rw [List.find?_cons_of_pos (by simp [newBox, hk])]
      have : storeAll m (e :: values) k = some e.2 := by
        rw [← hk]
        exact (storeAll_of_notMem hne).trans (FMap.insert_self _ _ _)
      rw [boxMap, this, ← hk]
      rfl
    · rw [List.find?_cons_of_neg (by simp [newBox, hk])]
      exact ih (m.insert e.1 e.2) hnd ((FMap.insert_of_ne _ fun h => hk h.symm).trans hm)

theorem good_storeAll {values : List (Bid 24 × Str)} (hfits : ∀ e ∈ values, Fits e) :
    ∀ {m : FMap 24}, Good m → Good (storeAll m values) := by
  induction values with
  | nil => exact id
  | cons e values ih =>
    exact fun hm => ih (fun d hd => hfits d (List.mem_cons_of_mem _ hd))
      (hm.insert (hfits e List.mem_cons_self))

variable (hpos : ∀ id, Leaf depth (pos id))

include hpos

theorem setupInsert_inv {maxSize : Nat} (S : PosSort boxes) (hd : depthOf maxSize = depth)
    {values : List (Bid 24 × Str)} (hnd : (values.map Prod.fst).Nodup)
    (hfits : ∀ e ∈ values, Fits e) :
    ∃ o', setupInsert S (init maxSize) values (posesOf pos values) = some o' ∧
      Inv pos depth (storeAll (fun _ => none) values) o' ∧
      o'.emptyNodes = blockCount (depthOf maxSize) := by
  subst hd
  have hkeys : ((values.map fun e => newBox e.1 e.2 (pos e.1)).map boxes.key) =
      values.map Prod.fst := by
    rw [List.map_map]
    rfl
  obtain ⟨w, hw, hv, ht, hk⟩ := @Omap.setupInsert_spec _ _ _ _ (depthOf maxSize)
    (values.map fun e => newBox e.1 e.2 (pos e.1)) (work (init maxSize)) S
    (hkeys ▸ hnd) (fun b hb => by
      obtain ⟨e, he, rfl⟩ := List.mem_map.mp hb
      have := (hfits e he).1
      simp [boxes, newBox, this])
    (fun b hb => by
      obtain ⟨e, he, rfl⟩ := List.mem_map.mp hb
      exact hpos e.1) rfl (fun i b hb => by
      rw [List.eq_of_mem_replicate (show b ∈ List.replicate Z Box.dummy from hb)]
      rfl)
  refine ⟨withWork (init maxSize) w, ?_, ⟨rfl, good_storeAll hfits good_empty, ?_⟩, rfl⟩
  · unfold setupInsert
    rw [zip_posesOf]
    exact congrArg (Option.map (withWork (init maxSize))) hw
  · have hV : boxMap pos (storeAll (fun _ => none) values) =
        fun k => (values.map fun e => newBox e.1 e.2 (pos e.1)).find? fun b => b.key = k :=
      funext fun k => (find_newBox values k _ hnd rfl).symm
    rw [hV]
    exact hk

/-- **A run** from a state between calls answers like the map. -/
theorem calls_exact (calls : List Call) :
    ∀ (m : FMap 24) (acc : List (List Str)) (o : PRFORAM), Inv pos depth m o →
      (∀ c ∈ calls, CallOk c) → writesOf calls ≤ o.emptyNodes → clearRun pos (acc, o) calls = true →
      ∃ o', run (step pos) (acc, o) calls = some (acc ++ answers m calls, o') ∧
        WellPlaced pos o' := by
  induction calls with
  | nil => exact fun m acc o h _ _ _ => ⟨o, by simp [answers], h.wellPlaced⟩
  | cons c calls ih =>
    rintro m acc o h hok hspace hc
    obtain ⟨hclear, hrest⟩ := clearRun_cons hc
    obtain ⟨hw, hr⟩ := hok c List.mem_cons_self
    have hok' : ∀ d ∈ calls, CallOk d := fun d hd => hok d (List.mem_cons_of_mem _ hd)
    rw [writesOf, List.map_cons, List.sum_cons] at hspace
    cases c with
    | writeBox bid value =>
      obtain ⟨o1, h1, hI, he⟩ := writeBox_spec hpos h (hw _ List.mem_cons_self)
        (show 0 < o.emptyNodes by simp [Call.writes] at hspace; omega)
      have hstep : step pos (acc, o) (.writeBox bid value) = some (acc, o1) := by
        simp [step, h1]
      obtain ⟨o', hrun, hwp⟩ := ih _ acc o1 hI hok'
        (by simp [Call.writes, writesOf] at hspace ⊢; omega) (hrest _ hstep)
      exact ⟨o', by rw [run_cons, hstep]; exact hrun, hwp⟩
    | batchWrite values =>
      obtain ⟨o1, h1, hI, he⟩ := @batchWrite_spec pos _ _ _ hpos values h hw
        (show values.length ≤ o.emptyNodes by simp [Call.writes] at hspace; omega) hclear
      have hstep : step pos (acc, o) (.batchWrite values) = some (acc, o1) := by
        simp [step, h1]
      obtain ⟨o', hrun, hwp⟩ := ih _ acc o1 hI hok'
        (by simp [Call.writes, writesOf] at hspace ⊢; omega) (hrest _ hstep)
      exact ⟨o', by rw [run_cons, hstep]; exact hrun, hwp⟩
    | batchRead ids =>
      obtain ⟨o1, h1, hI, he⟩ := @batchRead_spec pos _ _ _ hpos ids h hr hclear
      have hstep : step pos (acc, o) (.batchRead ids) = some (acc ++ [ids.map m.find], o1) := by
        simp [step, h1]
      obtain ⟨o', hrun, hwp⟩ := ih m _ o1 hI hok'
        (by simp [Call.writes, writesOf] at hspace ⊢; omega) (hrest _ hstep)
      refine ⟨o', ?_, hwp⟩
      rw [run_cons, hstep, Option.bind_some, hrun, List.append_assoc]
      rfl

end

/-- **PRFORAM answers like a finite map** in every run that takes no leaf number
for a key, and its boxes stay well placed. -/
theorem run_exact (S : PosSort boxes) (maxSize : Nat) (pos : Bid 24 → Int)
    (hpos : ∀ id, Leaf (depthOf maxSize) (pos id)) (setup : Option (List (Bid 24 × Str)))
    (hnd : ((setup.getD []).map Prod.fst).Nodup) (hfits : ∀ e ∈ setup.getD [], Fits e)
    (calls : List Call) (hok : ∀ c ∈ calls, CallOk c)
    (hspace : writesOf calls ≤ blockCount (depthOf maxSize))
    (hclear : ((start pos S maxSize setup).all fun o => clearRun pos ([], o) calls) = true) :
    ∃ o, runCalls pos S maxSize setup calls =
        some (answers (storeAll (fun _ => none) (setup.getD [])) calls, o) ∧
      WellPlaced pos o := by
  cases setup with
  | none =>
    obtain ⟨o, hrun, hwp⟩ := calls_exact hpos calls _ [] (init maxSize) (inv_init maxSize) hok
      hspace hclear
    exact ⟨o, hrun, hwp⟩
  | some values =>
    obtain ⟨o1, h1, hI, he⟩ := setupInsert_inv hpos S rfl hnd hfits
    have hstart : start pos S maxSize (some values) = some o1 := h1
    obtain ⟨o, hrun, hwp⟩ := calls_exact hpos calls _ [] o1 hI hok (he ▸ hspace) (by
      simpa [hstart] using hclear)
    refine ⟨o, ?_, hwp⟩
    simp only [runCalls, hstart, Option.bind_eq_bind, Option.bind_some]
    exact hrun

def sampleSetup : List (Bid 24 × Str) := [(Bid.ofStr [97], [120]), (Bid.ofStr [98], [121])]

def sampleCalls : List Call :=
  [.writeBox (Bid.ofStr [99]) [122], .batchWrite [(Bid.ofStr [97], [119])],
    .batchRead [Bid.ofStr [97], Bid.ofStr [98], Bid.ofStr [100]]]

theorem run_exact_sample :
    ∃ o, runCalls (fun _ => 1) (.insertion boxes) 8 (some sampleSetup) sampleCalls =
        some (answers (storeAll (fun _ => none) sampleSetup) sampleCalls, o) ∧
      WellPlaced (fun _ => 1) o :=
  run_exact (.insertion boxes) 8 (fun _ => 1) (fun _ => by decide) (some sampleSetup) (by decide)
    (by decide) sampleCalls (fun c hc => by
      simp only [sampleCalls, List.mem_cons, List.not_mem_nil, or_false] at hc
      rcases hc with rfl | rfl | rfl
      · exact ⟨by decide, fun _ h => absurd h List.not_mem_nil⟩
      · exact ⟨by decide, fun _ h => absurd h List.not_mem_nil⟩
      · refine ⟨fun _ h => absurd h List.not_mem_nil, fun id hid => ?_⟩
        simp only [Call.reads, List.mem_cons, List.not_mem_nil, or_false] at hid
        rcases hid with rfl | rfl | rfl <;> decide)
    (by decide) (by decide +kernel)

/-- The key that is the number of leaf 1 is returned in place of the key asked for. -/
theorem batchRead_wrong :
    (runCalls (fun _ => 1) (.insertion boxes) 8 none
        [.writeBox (Bid.ofValue 1) [120], .writeBox (Bid.ofValue 2) [121],
          .batchRead [Bid.ofValue 1, Bid.ofValue 2]]).map Prod.fst ≠
      some (answers (fun _ => none)
        [.writeBox (Bid.ofValue 1) [120], .writeBox (Bid.ofValue 2) [121],
          .batchRead [Bid.ofValue 1, Bid.ofValue 2]]) := by
  decide +kernel

end SmallClientSSE.Prforam
