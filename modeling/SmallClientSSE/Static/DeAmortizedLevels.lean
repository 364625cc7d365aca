import SmallClientSSE.Lib.MergeSchedule
import SmallClientSSE.Static.DeAmortizedSteps

/-!
# The levels of the DeAmortized scheme

`Inv`: level `i` has completed `d i` sets and moved `f i` records into its NEW set.
Its places hold the sets that the level above has not merged yet, oldest first, and
NEW holds the first records of the iterations over its two sources, filed under set
number `d i + 1`. A level that moves a record keeps the invariant, and one that
completes a set keeps it as long as a place is empty.
-/

namespace SmallClientSSE.DeAmortized

open Lib Lib.MergeSchedule Static BASClient

/-! ## The invariant -/

/-- A set of the server is marked while it has records. -/
def CSet.Shows : CSet → List Upd → Prop
  | .client _, _ => True
  | .server _ _ exist, us => exist = decide (us ≠ [])

def SetHolds (E : Env) (l n : Nat) (s : CSet) (us : List Upd) : Prop :=
  ∃ items, Stored E s items ∧ (items.map tagOf).Perm (us.map Upd.tag) ∧ s.Shows us ∧
    (us ≠ [] → s.KeyOk E l n)

/-- The updates whose records are in place `j` of level `i`. -/
def contents (l : Nat) (d : Nat → Nat) (us : List Upd) (i j : Nat) : List Upd :=
  if i < max l 1 ∧ base l d i + j < d i then block us i (base l d i + j) else []

/-- The records a merge reads from level `m`, in order. -/
def sources (E : Env) (c : Client) (m : Nat) (e : Int) : List Block :=
  (c.setAt 0 m).records E e 0 m ++ (c.setAt 1 m).records E e 1 m

def filed (E : Env) (c : Client) (m : Nat) (e : Int) (k : Nat) : List (Str × Block) :=
  ((sources E c m e).take k).map fun b => (b.cstr, b)

/-- The NEW set of level `m + 1` is set `e`, with `k` records. -/
structure NewHolds (E : Env) (ks : List Str) (l n : Nat) (c : Client) (setup : Bool) (m : Nat)
    (e : Int) (k : Nat) : Prop where
  stored : Stored E (c.setAt 3 (m + 1)) (filed E c m e k)
  key : (c.setAt 3 (m + 1)).KeyOk E l n
  cnt : c.cnt (m + 1) = k
  count : ∀ w ∈ ks, counter c setup (m + 1) w e = countText (valuesOf (filed E c m e k) w).length
  later : ∀ w ∈ ks, ∀ e', e < e' → InInt e' → counter c setup (m + 1) w e' = none

/-- The state after the updates `us`. -/
structure Inv (E : Env) (ks : List Str) (l n : Nat) (us : List Upd) (setup : Bool) (d f : Nat → Nat)
    (c : Client) : Prop where
  levels : c.l = l
  place : ∀ i j, j < 3 → SetHolds E l n (c.setAt j i) (contents l d us i j)
  new : ∀ m, m + 1 < l → NewHolds E ks l n c setup m (d (m + 1) + 1) (f (m + 1))
  new0 : c.data 3 0 = ∅

variable {E : Env} {ks : List Str} {l n m : Nat} {us : List Upd} {setup : Bool} {d f : Nat → Nat}
  {c : Client}

/-! ## Places -/

theorem setHolds_copied {s : CSet} {items : List (Str × Block)} (hst : Stored E s items)
    (hperm : (items.map tagOf).Perm (us.map Upd.tag)) (hkey : us ≠ [] → s.KeyOk E l n) :
    SetHolds E l n s.copied us := by
  refine ⟨items, hst.copied, hperm, ?_, ?_⟩
  · cases s with
    | client data => trivial
    | server key set exist =>
      have hlen : set.pairs.length = us.length := by
        rw [show set.pairs.length = items.length from hst.size]
        simpa using hperm.length_eq
      show decide (0 < set.pairs.length) = decide (us ≠ [])
      rw [hlen]
      exact decide_eq_decide.mpr List.length_pos_iff
  · cases s with
    | client data => exact fun _ => trivial
    | server key set exist => exact hkey

theorem setHolds_clear (s : CSet) : SetHolds E l n s.clear [] := by
  refine ⟨[], stored_clear s, List.Perm.refl _, ?_, fun h => absurd rfl h⟩
  cases s with
  | client data => trivial
  | server key set exist => rfl

theorem SetHolds.isFree {s : CSet} (h : SetHolds E l n s us) : s.isFree = decide (us = []) := by
  obtain ⟨items, hst, hperm, hshows, -⟩ := h
  cases s with
  | client data =>
    have hlen : data.pairs.length = us.length := by
      rw [show data.pairs.length = items.length from hst.size]
      simpa using hperm.length_eq
    show decide (data.pairs.length = 0) = decide (us = [])
    rw [hlen]
    exact decide_eq_decide.mpr List.length_eq_zero_iff
  | server key set exist =>
    show (!exist) = decide (us = [])
    rw [show exist = decide (us ≠ []) from hshows]
    simp

theorem contents_eq_nil {i j : Nat} (hfull : d i * 2 ^ i ≤ us.length) :
    contents l d us i j = [] ↔ ¬ (i < max l 1 ∧ base l d i + j < d i) := by
  unfold contents
  split
  · next h =>
    have hlen : (block us i (base l d i + j)).length = 2 ^ i :=
      length_block ((Nat.mul_le_mul_right _ h.2).trans hfull)
    refine ⟨fun he => ?_, fun he => absurd h he⟩
    rw [he] at hlen
    have := Nat.two_pow_pos i
    simp only [List.length_nil] at hlen
    omega
  · next h => exact ⟨fun _ => h, fun _ => rfl⟩

/-- A place is empty once the sets of its level are used up. -/
theorem Inv.free_eq (hI : Inv E ks l n us setup d f c) (hS : Sched l us.length d f) {i j : Nat}
    (hi : i < max l 1) (hj : j < 3) : free c j i = decide (d i ≤ base l d i + j) := by
  rw [DeAmortized.free_eq, (hI.place i j hj).isFree]
  refine decide_eq_decide.mpr ?_
  rw [contents_eq_nil (hS.full i)]
  omega

/-- **The place of the next complete set**: the first behind those in use. -/
theorem Inv.freePlace_eq (hI : Inv E ks l n us setup d f c) (hS : Sched l us.length d f) {i : Nat}
    (hi : i < max l 1) :
    freePlace c i = if d i ≤ base l d i + 2 then some (d i - base l d i) else none := by
  have hlow := hS.low i hi
  simp only [freePlace, hI.free_eq hS hi (show 0 < 3 by omega),
    hI.free_eq hS hi (show 1 < 3 by omega), hI.free_eq hS hi (show 2 < 3 by omega),
    decide_eq_true_eq]
  by_cases h0 : d i ≤ base l d i + 0
  · rw [if_pos h0, if_pos (by omega), show d i - base l d i = 0 by omega]
  · rw [if_neg h0]
    by_cases h1 : d i ≤ base l d i + 1
    · rw [if_pos h1, if_pos (by omega), show d i - base l d i = 1 by omega]
    · rw [if_neg h1]
      by_cases h2 : d i ≤ base l d i + 2
      · rw [if_pos h2, if_pos h2, show d i - base l d i = 2 by omega]
      · rw [if_neg h2, if_neg h2]

theorem base_of_lt {i : Nat} (h : i + 1 < l) : base l d i = 2 * d (i + 1) := if_pos h

theorem ready_eq (c : Client) (m : Nat) :
    ready c (m + 1) = (!free c 0 m && !free c 1 m) := by
  unfold ready free
  by_cases h : m < localSize
  · have h1 : m + 1 ≤ localSize := h
    have h2 : ¬ m + 1 > localSize := by omega
    simp only [h, h1, h2, decide_false, decide_true, Bool.false_and, Bool.false_or, Bool.true_and,
      if_true, Nat.add_sub_cancel]
    congr 1 <;> simp [Nat.pos_iff_ne_zero]
  · have h1 : ¬ m + 1 ≤ localSize := h
    have h2 : m + 1 > localSize := by omega
    simp [h, h1, h2]

/-- **A level moves a record** exactly when two sets below wait to be merged. -/
theorem Inv.ready_iff (hI : Inv E ks l n us setup d f c) (hS : Sched l us.length d f)
    (hm : m + 1 < l) : ready c (m + 1) = true ↔ 2 * d (m + 1) + 2 ≤ d m := by
  have hlt : m < max l 1 := by omega
  rw [ready_eq, hI.free_eq hS hlt (by omega), hI.free_eq hS hlt (by omega), base_of_lt hm]
  simp only [Bool.and_eq_true, Bool.not_eq_true', decide_eq_false_iff_not]
  omega

/-! ## The sources of a merge -/

/-- The records of both sources, as the updates they stand for. -/
theorem Inv.sources_perm (hI : Inv E ks l n us setup d f c) (hm : m + 1 < l)
    (hdue : 2 * d (m + 1) + 2 ≤ d m) (e : Int) :
    ((sources E c m e).map head15).Perm
      ((block us (m + 1) (d (m + 1))).map fun u => head15 u.value) := by
  have hrec : ∀ j, j < 2 → (((c.setAt j m).records E e j m).map head15).Perm
      ((block us m (2 * d (m + 1) + j)).map fun u => head15 u.value) := by
    intro j hj
    have hlt : m < max l 1 ∧ base l d m + j < d m := by
      rw [base_of_lt hm]
      omega
    obtain ⟨items, hst, hperm, -, -⟩ := hI.place m j (by omega)
    rw [contents, if_pos hlt, base_of_lt hm] at hperm
    refine (hst.records e j m).trans ?_
    have := hperm.map Prod.snd
    rwa [List.map_map, List.map_map] at this
  rw [sources, List.map_append, ← block_merge, List.map_append]
  exact (hrec 0 (by omega)).append (hrec 1 (by omega))

theorem Inv.length_sources (hI : Inv E ks l n us setup d f c) (hS : Sched l us.length d f)
    (hm : m + 1 < l) (hdue : 2 * d (m + 1) + 2 ≤ d m) (e : Int) :
    ((c.setAt 0 m).records E e 0 m).length = 2 ^ m ∧ (sources E c m e).length = 2 ^ (m + 1) := by
  have hfull := hS.full m
  have hlen : ∀ j, j < 2 → ((c.setAt j m).records E e j m).length = 2 ^ m := by
    intro j hj
    have hlt : m < max l 1 ∧ base l d m + j < d m := by
      rw [base_of_lt hm]
      omega
    obtain ⟨items, hst, hperm, -, -⟩ := hI.place m j (by omega)
    rw [contents, if_pos hlt] at hperm
    rw [hst.length_records e j m]
    have h1 := hperm.length_eq
    rw [List.length_map, List.length_map,
      length_block ((Nat.mul_le_mul_right _ hlt.2).trans hfull)] at h1
    exact h1
  refine ⟨hlen 0 (by omega), ?_⟩
  rw [sources, List.length_append, hlen 0 (by omega), hlen 1 (by omega), pow_succ]
  omega

theorem nextRecord_eq (hlen : ((c.setAt 0 m).records E (upCnt c (m + 1)) 0 m).length = 2 ^ m)
    (hcnt : c.cnt (m + 1) < 2 ^ (m + 1)) :
    nextRecord E c (m + 1) = (sources E c m (upCnt c (m + 1)))[c.cnt (m + 1)]? := by
  have hget : ∀ j pos, (if m + 1 ≤ localSize then getElementAt E c (upCnt c (m + 1)) j m pos
      else c.L.get E (upCnt c (m + 1)) j m pos (c.keys j m)) =
        ((c.setAt j m).records E (upCnt c (m + 1)) j m)[pos]? := by
    intro j pos
    by_cases h : m < localSize
    · have h1 : m + 1 ≤ localSize := h
      rw [if_pos h1, Client.setAt, if_pos h, getElementAt, CSet.records, List.getElem?_map]
    · have h1 : ¬ m + 1 ≤ localSize := h
      rw [if_neg h1, Client.setAt, if_neg h, BASClient.get, CSet.records, List.getElem?_map]
  simp only [nextRecord, Nat.add_sub_cancel, sources]
  rw [hget]
  by_cases hlt : c.cnt (m + 1) < 2 ^ m
  · rw [if_pos hlt, if_pos hlt, List.getElem?_append_left (by rw [hlen]; exact hlt)]
  · have hmod : c.cnt (m + 1) % 2 ^ m = c.cnt (m + 1) - 2 ^ m := by
      rw [pow_succ] at hcnt
      rw [Nat.mod_eq_sub_mod (by omega), Nat.mod_eq_of_lt (by omega)]
    rw [if_neg hlt, if_neg hlt, List.getElem?_append_right (by rw [hlen]; omega), hlen, hmod]

theorem filed_succ {e : Int} {k : Nat} {x : Block} (hx : (sources E c m e)[k]? = some x) :
    filed E c m e (k + 1) = filed E c m e k ++ [(x.cstr, x)] := by
  rw [filed, filed, List.take_add_one, hx, List.map_append]
  rfl

theorem filed_congr {c' : Client} (h : ∀ j, j < 2 → c'.setAt j m = c.setAt j m) (e : Int) (k : Nat) :
    filed E c' m e k = filed E c m e k := by
  rw [filed, filed, sources, sources, h 0 (by omega), h 1 (by omega)]

theorem length_filed_le (c : Client) (m : Nat) (e : Int) (k : Nat) :
    (filed E c m e k).length ≤ k := by
  rw [filed, List.length_map]
  exact List.length_take_le _ _

/-- The records that are moved belong to updates of the history. -/
theorem Inv.cstr_mem (hI : Inv E ks l n us setup d f c) (hus : ∀ u ∈ us, Keyword u.keyword)
    (hmem : ∀ u ∈ us, u.keyword ∈ ks) (hm : m + 1 < l) (hdue : 2 * d (m + 1) + 2 ≤ d m) {e : Int}
    {x : Block} (hx : x ∈ sources E c m e) : x.cstr ∈ ks := by
  obtain ⟨u, hu, he⟩ := List.mem_map.mp
    ((hI.sources_perm hm hdue e).subset (List.mem_map_of_mem hx))
  have hu' := mem_of_mem_block hu
  rw [cstr_of_head15 (hus u hu') he.symm]
  exact hmem u hu'

/-- A NEW set that a step leaves alone, and its sources as far as they were read. -/
theorem NewHolds.frame {c' : Client} {e : Int} {k : Nat} (h : NewHolds E ks l n c setup m e k)
    (hsrc : k = 0 ∨ ∀ j, j < 2 → c'.setAt j m = c.setAt j m)
    (hset : c'.setAt 3 (m + 1) = c.setAt 3 (m + 1)) (hcnt : c'.cnt (m + 1) = c.cnt (m + 1))
    (hcount : ∀ w e, counter c' setup (m + 1) w e = counter c setup (m + 1) w e) :
    NewHolds E ks l n c' setup m e k := by
  have hfiled : filed E c' m e k = filed E c m e k := by
    rcases hsrc with rfl | hsrc
    · rfl
    · exact filed_congr hsrc e k
  refine ⟨?_, ?_, hcnt.trans h.cnt, fun w hw => ?_, fun w hw e' he hin => ?_⟩
  · rw [hfiled, hset]
    exact h.stored
  · rw [hset]
    exact h.key
  · rw [hcount, hfiled]
    exact h.count w hw
  · rw [hcount]
    exact h.later w hw e' he hin

/-! ## A move -/

section

variable (hI : Inv E ks l n us setup d f c) (hS : Sched l us.length d f) (hm : m + 1 < l)
  (hdue : 2 * d (m + 1) + 2 ≤ d m)

include hS hdue hI hm

/-- **A move keeps the invariant.** -/
theorem Inv.move (hE : PrfInj E ks l n) (hks : ∀ w ∈ ks, Keyword w)
    (hmem : ∀ u ∈ us, u.keyword ∈ ks) (hn : us.length ≤ n) (hint : n < 2 ^ 31)
    (hlt : f (m + 1) < 2 ^ (m + 1)) (hup : upCnt c (m + 1) = d (m + 1) + 1) :
    ∃ w c', DeAmortized.move E c (m + 1) setup = some (w, c') ∧
      c'.updateCounter = c.updateCounter ∧ newSize c' (m + 1) = f (m + 1) + 1 ∧
      Inv E ks l n us setup d (Function.update f (m + 1) (f (m + 1) + 1)) c' := by
  have hnew := hI.new m hm
  obtain ⟨hlen0, hlen⟩ := hI.length_sources hS hm hdue (d (m + 1) + 1)
  obtain ⟨hpow, hd⟩ := hS.two_pow_le hdue
  have he : InInt ((d (m + 1) : Int) + 1) := by
    exact_mod_cast inInt_natCast (show d (m + 1) + 1 < 2 ^ 31 by omega)
  have h0 : 0 ≤ (d (m + 1) : Int) + 1 := by omega
  have hus : ∀ u ∈ us, Keyword u.keyword := fun u hu => hks _ (hmem u hu)
  obtain ⟨x, hx⟩ : ∃ x, (sources E c m (d (m + 1) + 1))[f (m + 1)]? = some x :=
    ⟨_, List.getElem?_eq_getElem (by rw [hlen]; exact hlt)⟩
  have hw : x.cstr ∈ ks := hI.cstr_mem hus hmem hm hdue (List.mem_of_getElem? hx)
  have hfiled : ∀ p ∈ filed E c m (d (m + 1) + 1) (f (m + 1)), p.1 ∈ ks := by
    intro p hp
    obtain ⟨b, hb, rfl⟩ := List.mem_map.mp hp
    exact hI.cstr_mem hus hmem hm hdue (List.mem_of_mem_take hb)
  have hle := length_filed_le (E := E) c m (d (m + 1) + 1) (f (m + 1))
  have hk := length_valuesOf_le (filed E c m (d (m + 1) + 1) (f (m + 1))) x.cstr
  have hnext : nextRecord E c (m + 1) = some x := by
    rw [nextRecord_eq (by rw [hup]; exact hlen0) (by rw [hnew.cnt]; exact hlt), hup, hnew.cnt, hx]
  obtain ⟨c', hmove, hmoved⟩ := move_spec hnext (by rw [hup]; exact hnew.count _ hw) (by omega)
  rw [hup] at hmoved
  have hsrc : ∀ m' e k, filed E c' m' e k = filed E c m' e k := fun m' e k =>
    filed_congr (fun j hj => hmoved.sets j m' (.inl (by omega))) e k
  have hnewset : Stored E (c'.setAt 3 (m + 1))
      (filed E c' m (d (m + 1) + 1) (f (m + 1) + 1)) := by
    rw [hsrc, filed_succ hx, hmoved.new]
    exact hnew.stored.add hE hks hnew.key hfiled (by omega) hw x
  refine ⟨_, c', hmove, hmoved.updateCounter, ?_, ?_⟩
  · rw [newSize_eq, hnewset.size, filed, List.length_map, List.length_take, sources,
      hmoved.sets 0 m (.inl (by omega)), hmoved.sets 1 m (.inl (by omega)), ← sources, hlen]
    omega
  refine ⟨hmoved.l.trans hI.levels, fun i j hj => ?_, fun m' hm' => ?_, ?_⟩
  · rw [hmoved.sets j i (.inl (by omega))]
    exact hI.place i j hj
  · by_cases hmm : m' = m
    · subst hmm
      rw [Function.update_self]
      refine ⟨hnewset, ?_, ?_, fun w hw' => ?_, fun w hw' e' he' hin => ?_⟩
      · rw [hmoved.new]
        have := hnew.key
        cases hs : c.setAt 3 (m' + 1) with
        | client data => trivial
        | server key set exist => rwa [hs] at this
      · rw [hmoved.cnt, Function.update_self, hnew.cnt]
      · rw [hsrc, filed_succ hx, valuesOf_snoc, List.length_append]
        by_cases hww : x.cstr = w
        · subst hww
          rw [if_pos rfl, List.length_singleton, hmoved.count, countText, if_neg (by omega)]
        · rw [if_neg hww, List.length_nil, Nat.add_zero, hmoved.counts _ _ _
            (.inr (counterKey_ne (hks _ hw) (hks _ hw') he he h0 h0 (.inl (Ne.symm hww))))]
          exact hnew.count w hw'
      · rw [hmoved.counts _ _ _ (.inr (counterKey_ne (hks _ hw) (hks _ hw') he hin h0 (by omega)
          (.inr (by omega))))]
        exact hnew.later w hw' e' he' hin
    · rw [Function.update_of_ne (by omega)]
      refine (hI.new m' hm').frame (.inr fun j hj => hmoved.sets j m' (.inl (by omega)))
        (hmoved.sets 3 (m' + 1) (.inr (by omega))) ?_ fun w' e' => hmoved.counts _ _ _
          (.inl (by omega))
      rw [hmoved.cnt, Function.update_of_ne (by omega)]
  · rw [hmoved.data 0 (by omega)]
    exact hI.new0

end

/-! ## Completing a set -/

def oneMore (d : Nat → Nat) (m : Nat) : Nat → Nat := Function.update d (m + 1) (d (m + 1) + 1)

theorem oneMore_self (d : Nat → Nat) (m : Nat) : oneMore d m (m + 1) = d (m + 1) + 1 :=
  Function.update_self _ _ _

theorem oneMore_of_ne {i : Nat} (h : i ≠ m + 1) : oneMore d m i = d i := Function.update_of_ne h _ _

theorem base_oneMore_of_ne {i : Nat} (h : i ≠ m) : base l (oneMore d m) i = base l d i := by
  rw [base, base, oneMore_of_ne (by omega)]

theorem contents_below (hm : m + 1 < l) (us : List Upd) (j : Nat) :
    contents l (oneMore d m) us m j = contents l d us m (j + 2) := by
  have hbase : base l (oneMore d m) m + j = base l d m + (j + 2) := by
    rw [base_of_lt hm, base_of_lt hm, oneMore_self]
    omega
  rw [contents, contents, hbase, oneMore_of_ne (by omega)]

/-- The complete set has the next place of its level. -/
theorem contents_self (hm : m + 1 < l) (us : List Upd) (j : Nat) :
    contents l (oneMore d m) us (m + 1) j =
      if base l d (m + 1) + j = d (m + 1) then block us (m + 1) (d (m + 1))
      else contents l d us (m + 1) j := by
  rw [contents, contents, base_oneMore_of_ne (by omega), oneMore_self]
  by_cases h : base l d (m + 1) + j = d (m + 1)
  · rw [if_pos h, if_pos ⟨by omega, by omega⟩, h]
  · rw [if_neg h]
    refine if_congr ?_ rfl rfl
    omega

theorem contents_other {i : Nat} (h : i ≠ m) (h' : i ≠ m + 1) (us : List Upd) (j : Nat) :
    contents l (oneMore d m) us i j = contents l d us i j := by
  rw [contents, contents, base_oneMore_of_ne h, oneMore_of_ne h']

/-- **Completing a set keeps the invariant** while a place is empty. -/
theorem Inv.complete (hI : Inv E ks l n us setup d f c) (hS : Sched l us.length d f)
    (hm : m + 1 < l) (hdue : 2 * d (m + 1) + 2 ≤ d m) (hn : us.length ≤ n) (hint : n < 2 ^ 31)
    (hus : ∀ u ∈ us, Keyword u.keyword) (hfull : f (m + 1) = 2 ^ (m + 1)) (hroom : d (m + 1) ≤ base l d (m + 1) + 2)
    (htime : ∃ t : Nat, t ≤ n ∧ c.updateCounter = t) (w : Str) (e : Int) :
    (DeAmortized.complete E c (m + 1) w e setup).updateCounter = c.updateCounter ∧
      Inv E ks l n us setup (oneMore d m) (Function.update f (m + 1) 0)
        (DeAmortized.complete E c (m + 1) w e setup) := by
  have hlow := hS.low (m + 1) (by omega)
  obtain ⟨-, hd⟩ := hS.two_pow_le hdue
  have hfree := hI.freePlace_eq hS (i := m + 1) (by omega)
  rw [if_pos hroom] at hfree
  have hC : Completed E c (DeAmortized.complete E c (m + 1) w e setup) setup m
      (d (m + 1) - base l d (m + 1)) := complete_spec hfree
  generalize DeAmortized.complete E c (m + 1) w e setup = c' at hC ⊢
  have hp : d (m + 1) - base l d (m + 1) < 3 := by omega
  have hlen := (hI.length_sources hS hm hdue (d (m + 1) + 1)).2
  have hnew := hI.new m hm
  refine ⟨hC.updateCounter, hC.l.trans hI.levels, fun i j hj => ?_, fun m' hm' => ?_,
    hC.data.trans hI.new0⟩
  · by_cases him : i = m
    · subst him
      rw [contents_below hm]
      by_cases hj0 : j = 0
      · subst hj0
        rw [hC.oldest]
        obtain ⟨items, hst, hperm, -, hkey⟩ := hI.place i 2 (by omega)
        exact setHolds_copied hst hperm hkey
      · have hroom' := hS.room i (by omega)
        have hnil : contents l d us i (j + 2) = [] := by
          rw [contents_eq_nil (hS.full i)]
          omega
        rw [hC.older j (by omega), hnil]
        exact setHolds_clear _
    · by_cases him' : i = m + 1
      · subst him'
        rw [contents_self hm]
        by_cases hjp : base l d (m + 1) + j = d (m + 1)
        · obtain rfl : j = d (m + 1) - base l d (m + 1) := by omega
          rw [if_pos hjp, hC.placed]
          refine setHolds_copied hnew.stored ?_ fun _ => hnew.key
          rw [filed, hfull, List.take_of_length_le (by omega), List.map_map]
          exact perm_tag_of_perm (fun u hu => hus u (mem_of_mem_block hu))
            (hI.sources_perm hm hdue _)
        · rw [if_neg hjp, hC.sets j (m + 1) (.inr (.inr ⟨rfl, hj, by omega⟩))]
          exact hI.place (m + 1) j hj
      · rw [contents_other him him', hC.sets j i (.inl ⟨him, him'⟩)]
        exact hI.place i j hj
  · by_cases hmm : m' = m
    · subst hmm
      rw [oneMore_self, Function.update_self]
      refine ⟨hC.new, hC.newKey l n hm htime, ?_, fun w' hw' => ?_, fun w' hw' e' he' hin => ?_⟩
      · rw [hC.cnt, Function.update_self]
      · refine (hC.dropped _ _ (hnew.later w' hw' _ ?_ ?_)).trans rfl
        · omega
        · exact_mod_cast inInt_natCast (show d (m' + 1) + 1 + 1 < 2 ^ 31 by omega)
      · exact hC.dropped _ _ (hnew.later w' hw' e' (by omega) hin)
    · rw [oneMore_of_ne (by omega), Function.update_of_ne (by omega)]
      refine (hI.new m' hm').frame ?_ (hC.sets 3 (m' + 1) (by omega)) ?_
        fun w' e' => hC.counts _ _ _ (by omega)
      · by_cases hbusy : f (m' + 1) = 0
        · exact .inl hbusy
        · refine .inr fun j hj => hC.sets j m' ?_
          have hlow' := hS.busy m' hm' hbusy
          by_cases hmm' : m' = m + 1
          · rw [← hmm', base_of_lt hm']
            omega
          · exact .inl ⟨hmm, hmm'⟩
      · rw [hC.cnt, Function.update_of_ne (by omega)]

end SmallClientSSE.DeAmortized
