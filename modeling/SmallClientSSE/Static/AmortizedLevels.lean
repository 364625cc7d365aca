import SmallClientSSE.Lib.BinaryCounter
import SmallClientSSE.Static.AmortizedSets

/-!
# The levels of the Amortized scheme

`Inv`: after `n` updates level `i` holds the block of updates that a binary
counter at `n` assigns to it, and an unused local level has entries only for
keywords searched since the level was last emptied. Updates keep it as long as
they are `Undisturbed`: no keyword of the records an update files in a local
level has an empty entry there.
-/

namespace SmallClientSSE.Amortized

open Lib Lib.BinaryCounter Static BASClient

/-! ## Histories -/

def updatesOf : List Call → List Upd
  | [] => []
  | .update u :: cs => u :: updatesOf cs
  | .search _ :: cs => updatesOf cs

/-- The keywords searched for once `t` updates were made. -/
def searchedSince : List Call → Nat → List Str
  | [], _ => []
  | .update _ :: cs, t => searchedSince cs (t - 1)
  | .search w :: cs, t => if t = 0 then w :: searchedSince cs 0 else searchedSince cs t

def Call.keyword : Call → Str
  | .update u => u.keyword
  | .search w => w

theorem updatesOf_append (cs ds : List Call) : updatesOf (cs ++ ds) = updatesOf cs ++ updatesOf ds := by
  induction cs with
  | nil => rfl
  | cons c cs ih => cases c <;> simp [updatesOf, ih]

@[simp] theorem updatesOf_snoc_update (cs : List Call) (u : Upd) :
    updatesOf (cs ++ [.update u]) = updatesOf cs ++ [u] := updatesOf_append cs [.update u]

@[simp] theorem updatesOf_snoc_search (cs : List Call) (w : Str) :
    updatesOf (cs ++ [.search w]) = updatesOf cs := by
  simp [updatesOf_append, updatesOf]

theorem keyword_of_mem_updatesOf {cs : List Call} {u : Upd} (h : u ∈ updatesOf cs) :
    u.keyword ∈ cs.map Call.keyword := by
  induction cs with
  | nil => cases h
  | cons c cs ih =>
    cases c with
    | update v =>
      rcases List.mem_cons.mp h with rfl | h
      · exact List.mem_cons_self
      · exact List.mem_cons_of_mem _ (ih h)
    | search w => exact List.mem_cons_of_mem _ (ih h)

theorem searchedSince_snoc_update (cs : List Call) (u : Upd) :
    ∀ t, searchedSince (cs ++ [.update u]) t = searchedSince cs t := by
  induction cs with
  | nil => intro t; rfl
  | cons c cs ih =>
    intro t
    cases c with
    | update v => exact ih (t - 1)
    | search w => simp only [List.cons_append, searchedSince, ih]

theorem searchedSince_snoc_search (cs : List Call) (w : Str) :
    ∀ t, searchedSince (cs ++ [.search w]) t =
      searchedSince cs t ++ if t ≤ (updatesOf cs).length then [w] else [] := by
  induction cs with
  | nil => intro t; simp [searchedSince, updatesOf]
  | cons c cs ih =>
    intro t
    cases c with
    | update v =>
      simp only [List.cons_append, searchedSince, ih, updatesOf, List.length_cons]
      congr 1
      exact if_congr (by omega) rfl rfl
    | search v =>
      simp only [List.cons_append, searchedSince, ih, updatesOf]
      split
      · next h => simp [h]
      · rfl

/-- **No lost record**: when the update `u` after `pre` files into a local level,
none of the keywords it files was searched for since the first of these records
was due. -/
def Undisturbed (pre : List Call) (u : Upd) : Prop :=
  let n := (updatesOf pre).length
  rm0 n < localSize →
    ∀ v ∈ (updatesOf pre ++ [u]).drop (n + 1 - 2 ^ rm0 n),
      v.keyword ∉ searchedSince pre (n + 1 - 2 ^ rm0 n)

instance (pre : List Call) (u : Upd) : Decidable (Undisturbed pre u) :=
  inferInstanceAs (Decidable (_ → _))

/-! ## The invariant -/

structure Inv (E : Env) (N : CInt) (calls : List Call) (c : Client) : Prop where
  counter : c.updateCounter = (updatesOf calls).length
  size : c.L.size = numOfDataSets N
  tables : ∀ i, i < localSize → TableHolds (c.data i) (segment (updatesOf calls) i)
  touched : ∀ i, i < localSize → (updatesOf calls).length.testBit i = false →
    ∀ k ∈ c.data i, k ∈ searchedSince calls (start (updatesOf calls).length i)
  used : ∀ i, localSize ≤ i → (updatesOf calls).length.testBit i = true → c.L.exist i = true ∧
    ∃ t, t < (updatesOf calls).length ∧ c.keys i = some (E.newKey t) ∧
      SetHolds E (c.keys i) (c.L.server i) (segment (updatesOf calls) i)
  free : ∀ i, localSize ≤ i → (updatesOf calls).length.testBit i = false →
    c.L.exist i = false ∧ c.keys i = none ∧ c.L.server i = ∅

theorem tableHolds_nil : TableHolds ∅ [] := List.Perm.refl _

theorem inv_init (E : Env) (N : CInt) : Inv E N [] (Client.init N) where
  counter := rfl
  size := rfl
  tables i _ := by
    rw [updatesOf, segment_nil]
    exact tableHolds_nil
  touched i _ _ k hk := absurd hk (AList.notMem_empty k)
  used i _ h := by simp [updatesOf] at h
  free i _ _ := ⟨rfl, rfl, rfl⟩

/-! ## Collecting the lower levels -/

section

variable {E : Env} {t : Nat}

theorem takeLocal_fold : ∀ (is : List Nat) (c : Client) (prev : Table Str (List Block)), is.Nodup →
    (is.foldl (takeLocal E t) (c, prev)).1 =
      { c with data := fun j => if j ∈ is then ∅ else c.data j } ∧
    (is.foldl (takeLocal E t) (c, prev)).2.items.Perm
      (prev.items ++ is.flatMap fun i => (c.data i).items) := by
  intro is
  induction is with
  | nil => intro c prev _; simp
  | cons i is ih =>
    intro c prev hnd
    obtain ⟨hi, hnd⟩ := List.nodup_cons.mp hnd
    obtain ⟨h1, h2⟩ := ih (takeLocal E t (c, prev) i).1 (takeLocal E t (c, prev) i).2 hnd
    have hdata : ∀ j, j ≠ i → (takeLocal E t (c, prev) i).1.data j = c.data j :=
      fun j hj => Function.update_of_ne hj _ _
    rw [List.foldl_cons]
    refine ⟨h1.trans ?_, h2.trans ?_⟩
    · simp only [takeLocal, List.mem_cons, Client.mk.injEq, true_and]
      funext j
      by_cases hj : j = i
      · subst hj; simp
      · simp [hj]
    · have hrest : (is.flatMap fun j => ((takeLocal E t (c, prev) i).1.data j).items) =
          is.flatMap fun j => (c.data j).items :=
        List.flatMap_congr fun j hj => by rw [hdata j fun e => hi (e ▸ hj)]
      rw [hrest, List.flatMap_cons, ← List.append_assoc]
      refine List.Perm.append_right _ ?_
      refine (Table.items_pushAll _ _).trans (List.Perm.append_left _ ?_)
      exact Table.itemsOf_perm (E.hash.perm _ _ _)

theorem takeSet_fold : ∀ (is : List Nat) (c : Client) (prev : Table Str (List Block)), is.Nodup →
    (is.foldl (takeSet E t) (c, prev)).1 =
      { c with
        L := { c.L with
          exist := fun j => if j ∈ is then false else c.L.exist j
          server := fun j => if j ∈ is then ∅ else c.L.server j }
        keys := fun j => if j ∈ is then none else c.keys j } ∧
    (is.foldl (takeSet E t) (c, prev)).2.items.Perm (prev.items ++
      is.flatMap fun i => (c.L.getAllData E t i (c.keys i)).map fun b => (b.cstr, b)) := by
  intro is
  induction is with
  | nil => intro c prev _; simp
  | cons i is ih =>
    intro c prev hnd
    obtain ⟨hi, hnd⟩ := List.nodup_cons.mp hnd
    obtain ⟨h1, h2⟩ := ih (takeSet E t (c, prev) i).1 (takeSet E t (c, prev) i).2 hnd
    rw [List.foldl_cons]
    refine ⟨h1.trans ?_, h2.trans ?_⟩
    · simp only [takeSet, destry, List.mem_cons, Client.mk.injEq, BASClient.mk.injEq, true_and,
        and_true]
      refine ⟨?_, ?_, ?_⟩ <;> funext j <;> by_cases hj : j = i
      all_goals first | (subst hj; simp) | simp [hj]
    · have hrest : (is.flatMap fun j => ((takeSet E t (c, prev) i).1.L.getAllData E t j
            ((takeSet E t (c, prev) i).1.keys j)).map fun b => (b.cstr, b)) =
          is.flatMap fun j => (c.L.getAllData E t j (c.keys j)).map fun b => (b.cstr, b) :=
        List.flatMap_congr fun j hj => by
          have hne : j ≠ i := fun e => hi (e ▸ hj)
          simp only [takeSet, destry, getAllData, Function.update_of_ne hne]
      have hitems : Table.itemsOf ((c.L.getAllData E t i (c.keys i)).map fun item =>
          (item.cstr, [item])) = (c.L.getAllData E t i (c.keys i)).map fun b => (b.cstr, b) := by
        simp only [Table.itemsOf, List.flatMap_map, List.map_cons, List.map_nil]
        exact List.map_eq_flatMap.symm
      rw [hrest, List.flatMap_cons, ← List.append_assoc, ← hitems]
      exact List.Perm.append_right _ (Table.items_pushAll _ _)

end

/-! ## One update -/

section

variable {E : Env} {N : CInt} {ks : List Str} {n : Nat} {calls : List Call} {c : Client}

def emptied (c : Client) (r : Nat) : Client :=
  { c with
    keys := fun j => if localSize ≤ j ∧ j < r then none else c.keys j
    L := { c.L with
      exist := fun j => if localSize ≤ j ∧ j < r then false else c.L.exist j
      server := fun j => if localSize ≤ j ∧ j < r then ∅ else c.L.server j }
    data := fun j => if j < min r localSize then ∅ else c.data j }

theorem mem_sets {r j : Nat} : j ∈ List.range' localSize (r - localSize) ↔ localSize ≤ j ∧ j < r := by
  rw [List.mem_range'_1]
  omega

theorem range_split (r : Nat) : List.range r =
    List.range (min r localSize) ++ List.range' localSize (r - localSize) := by
  rw [List.range_eq_range', List.range_eq_range']
  rcases Nat.le_total r localSize with h | h
  · rw [Nat.min_eq_left h, Nat.sub_eq_zero_of_le h]
    simp
  · have := List.range'_append_1 (s := 0) (m := localSize) (n := r - localSize)
    rw [Nat.zero_add, Nat.add_sub_cancel' h] at this
    rw [Nat.min_eq_right h, this]

/-- **What the loops leave and collect.** -/
theorem collect_eq (c : Client) (t r : Nat) : (collect E c t r).1 = emptied c r ∧
    (collect E c t r).2.items.Perm
      (((List.range (min r localSize)).flatMap fun i => (c.data i).items) ++
        (List.range' localSize (r - localSize)).flatMap fun i =>
          (c.L.getAllData E t i (c.keys i)).map fun b => (b.cstr, b)) := by
  obtain ⟨h1, h2⟩ := takeLocal_fold (E := E) (t := t) (List.range (min r localSize)) c ∅
    List.nodup_range
  unfold collect
  generalize (List.range (min r localSize)).foldl (takeLocal E t) (c, ∅) = st at h1 h2 ⊢
  obtain ⟨c1, p1⟩ := st
  simp only at h1 h2
  subst h1
  obtain ⟨h3, h4⟩ := takeSet_fold (E := E) (t := t) (List.range' localSize (r - localSize))
    { c with data := fun j => if j ∈ List.range (min r localSize) then ∅ else c.data j } p1
    List.nodup_range'
  refine ⟨?_, h4.trans (h2.append_right _)⟩
  simp only [mem_sets, List.mem_range] at h3
  simpa only [emptied, mem_sets, List.mem_range] using h3

theorem bit_of_carry {m r i : Nat} (hr : CarryAt m r) (hi : i < r) : m.testBit i = true := by
  rw [hr.testBit, if_pos (by omega)]
  simpa using hi

theorem collect_holds {us : List Upd} (hus : ∀ u ∈ us, Keyword u.keyword) {t r : Nat}
    (hr : CarryAt us.length r) (htab : ∀ i, i < localSize → TableHolds (c.data i) (segment us i))
    (hset : ∀ i, localSize ≤ i → i < r → SetHolds E (c.keys i) (c.L.server i) (segment us i))
    (u : Upd) :
    TableHolds ((collect E c t r).2.push u.keyword [u.value]) (segment (us ++ [u]) r) := by
  have hlocal : (((List.range (min r localSize)).flatMap fun i => (c.data i).items).map tagOf).Perm
      (((List.range (min r localSize)).flatMap (segment us)).map Upd.tag) := by
    rw [List.map_flatMap, List.map_flatMap]
    refine List.Perm.flatMap_left _ fun i hi => htab i ?_
    have := List.mem_range.mp hi
    omega
  have hsets : (((List.range' localSize (r - localSize)).flatMap fun i =>
      (c.L.getAllData E t i (c.keys i)).map fun b => (b.cstr, b)).map tagOf).Perm
        (((List.range' localSize (r - localSize)).flatMap (segment us)).map Upd.tag) := by
    rw [List.map_flatMap, List.map_flatMap]
    refine List.Perm.flatMap_left _ fun i hi => ?_
    obtain ⟨hle, hlt⟩ := mem_sets.mp hi
    rw [List.map_map]
    exact perm_tag_of_perm (fun v hv => hus v (mem_of_mem_segment hv))
      (allData_holds (hset i hle hlt) (E.hash.perm _ _ _))
  refine ((Table.items_push _ _ _).map tagOf).trans ?_
  refine List.Perm.trans ?_ ((segment_snoc hr u).map Upd.tag).symm
  rw [range_split, List.flatMap_append, List.map_append, List.map_append, List.map_append]
  refine List.Perm.append (((collect_eq c t r).2.map tagOf).trans ?_) (List.Perm.refl _)
  rw [List.map_append]
  exact List.Perm.append hlocal hsets

/-- Filing into a local level loses nothing when the level has no entry for a
keyword that is filed. -/
theorem insertAll_holds {m prev : Table Str (List Block)} {us : List Upd} (hm : TableHolds m [])
    (hprev : TableHolds prev us) (hfresh : ∀ u ∈ us, u.keyword ∉ m)
    {l : List (Str × List Block)} (hl : l.Perm prev.pairs) : TableHolds (m.insertAll l) us := by
  have hnil : m.items = [] := by simpa using hm.length_eq
  have hempty : ∀ e ∈ l, e.1 ∈ m → e.2 = [] := by
    intro e he hmem
    by_contra hne
    obtain ⟨b, hb⟩ := List.exists_mem_of_ne_nil _ hne
    obtain ⟨u, hu, hw⟩ := hprev.mem
      (List.mem_flatMap.mpr ⟨e, hl.subset he, List.mem_map.mpr ⟨b, hb, rfl⟩⟩)
    exact hfresh u hu (hw ▸ hmem)
  have h := Table.items_insertAll ((hl.map _).nodup_iff.mpr prev.nodup_pairs) hempty
  rw [hnil, List.nil_append] at h
  exact ((h.trans (Table.itemsOf_perm hl)).map tagOf).trans hprev

theorem fill_of_ne {t r i : Nat} (p : Table Str (List Block)) (hi : i ≠ r) :
    (fill E c t r p).data i = c.data i ∧ (fill E c t r p).keys i = c.keys i ∧
      (fill E c t r p).L.exist i = c.L.exist i ∧ (fill E c t r p).L.server i = c.L.server i := by
  unfold fill
  split
  · exact ⟨Function.update_of_ne hi _ _, rfl, rfl, rfl⟩
  · exact ⟨rfl, Function.update_of_ne hi _ _, Function.update_of_ne hi _ _,
      Function.update_of_ne hi _ _⟩

/-- Levels other than the target after an update: emptied below, kept above. -/
theorem filled_other {t r i : Nat} (p : Table Str (List Block)) (hi : i ≠ r) :
    (fill E (emptied c r) t r p).data i = (if i < min r localSize then ∅ else c.data i) ∧
    (localSize ≤ i →
      (fill E (emptied c r) t r p).keys i = (if i < r then none else c.keys i) ∧
      (fill E (emptied c r) t r p).L.exist i = (if i < r then false else c.L.exist i) ∧
      (fill E (emptied c r) t r p).L.server i = (if i < r then ∅ else c.L.server i)) := by
  obtain ⟨h1, h2, h3, h4⟩ := fill_of_ne (E := E) (c := emptied c r) (t := t) p hi
  rw [h1, h2, h3, h4]
  refine ⟨rfl, fun hle => ?_⟩
  simp only [emptied, hle, true_and, and_self]

/-- The target level after an update of a local level. -/
theorem filled_local {t r : Nat} (p : Table Str (List Block)) (hr : r < localSize) :
    (fill E (emptied c r) t r p).data r = (c.data r).insertAll (E.hash.order t r p.pairs) := by
  simp only [fill, if_pos hr, Function.update_self, emptied]
  rw [if_neg (by omega)]

/-- The target level after an update of a server set. -/
theorem filled_set {t r : Nat} (p : Table Str (List Block)) (hr : localSize ≤ r)
    (hfree : c.L.server r = ∅) :
    (fill E (emptied c r) t r p).keys r = some (E.newKey t) ∧
    (fill E (emptied c r) t r p).L.exist r = true ∧
    (fill E (emptied c r) t r p).L.server r = (∅ : Table Block Block).insertAll
      ((∅ : Table Block Block).storeAll
        ((E.hash.order t r p.pairs).flatMap (ciphersOf E (some (E.newKey t))))).pairs := by
  simp only [fill, if_neg (show ¬ r < localSize by omega), BASClient.setup, Function.update_self,
    emptied, lt_irrefl, and_false, if_false, hfree, and_self]

/-- The levels after the records of a segment are filed. -/
theorem filled_inv (hE : PrfInj E ks n) (hks : ∀ w ∈ ks, Keyword w) (hI : Inv E N calls c)
    {u : Upd} (hus : ∀ v ∈ updatesOf calls ++ [u], v.keyword ∈ ks)
    (hn : (updatesOf calls).length + 1 ≤ n) {r : Nat} (hr : CarryAt (updatesOf calls).length r)
    (hund : r < localSize → ∀ v ∈ segment (updatesOf calls ++ [u]) r,
      v.keyword ∉ searchedSince calls (start (updatesOf calls).length r))
    {p : Table Str (List Block)} (hp : TableHolds p (segment (updatesOf calls ++ [u]) r))
    {c1 : Client} (hc1 : c1 = { c with updateCounter := (updatesOf calls).length + 1 }) :
    Inv E N (calls ++ [.update u]) (fill E (emptied c1 r) (updatesOf calls).length r p) := by
  have hdata : c1.data = c.data := by rw [hc1]
  have hL : c1.L = c.L := by rw [hc1]
  have hkeys : c1.keys = c.keys := by rw [hc1]
  have hlen : (updatesOf (calls ++ [.update u])).length = (updatesOf calls).length + 1 := by
    simp
  refine ⟨?counter, ?size, ?tables, ?touched, ?used, ?free⟩
  case counter =>
    rw [hlen]
    unfold fill
    split <;> simp only [emptied, hc1]
  case size =>
    unfold fill
    split <;> simp only [emptied, hc1, BASClient.setup, hI.size]
  case tables =>
    intro i hi
    rw [updatesOf_snoc_update]
    rcases lt_trichotomy i r with h | rfl | h
    · rw [(filled_other p h.ne).1, if_pos (by omega), segment_snoc_of_lt hr u h]
      exact tableHolds_nil
    · rw [filled_local p hi, hdata]
      have hold := hI.tables i hi
      rw [segment_carry hr] at hold
      exact insertAll_holds hold hp (fun v hv hmem => hund hi v hv
        (hI.touched i hi hr.testBit_self _ hmem)) (E.hash.perm _ _ _)
    · rw [(filled_other p h.ne').1, if_neg (by omega), segment_snoc_of_gt hr u h, hdata]
      exact hI.tables i hi
  case touched =>
    intro i hi hbit k hk
    rw [hlen] at hbit ⊢
    rcases lt_trichotomy i r with h | rfl | h
    · rw [(filled_other p h.ne).1, if_pos (by omega)] at hk
      exact absurd hk (AList.notMem_empty k)
    · rw [hr.testBit_succ_self] at hbit
      cases hbit
    · rw [(filled_other p h.ne').1, if_neg (by omega), hdata] at hk
      rw [hr.testBit_succ_gt h] at hbit
      have hstart : start ((updatesOf calls).length + 1) i = start (updatesOf calls).length i :=
        congrArg (· * _) (hr.div_succ (by omega))
      rw [searchedSince_snoc_update, hstart]
      exact hI.touched i hi hbit k hk
  case used =>
    intro i hi hbit
    rw [hlen] at hbit
    rw [updatesOf_snoc_update]
    rcases lt_trichotomy i r with h | rfl | h
    · rw [hr.testBit_succ_lt h] at hbit
      cases hbit
    · have hfree : c1.L.server i = ∅ := by
        rw [hL]
        exact (hI.free i hi hr.testBit_self).2.2
      obtain ⟨h1, h2, h3⟩ := filled_set (E := E) (t := (updatesOf calls).length) p hi hfree
      have hseg : (segment (updatesOf calls ++ [u]) i).length ≤ n := by
        refine (length_segment_le _ _).trans ?_
        simpa using hn
      rw [h1, h2, h3, List.length_append, List.length_singleton]
      exact ⟨rfl, _, by omega, rfl, setup_holds hE hks (by omega) hp
        (fun v hv => hus v (mem_of_mem_segment hv)) hseg (E.hash.perm _ _ _)⟩
    · obtain ⟨h1, h2, h3⟩ := (filled_other (E := E) (c := c1) p h.ne').2 hi
      rw [hr.testBit_succ_gt h] at hbit
      rw [h1, h2, h3, if_neg (by omega), if_neg (by omega), if_neg (by omega),
        segment_snoc_of_gt hr u h, hL, hkeys, List.length_append,
        List.length_singleton]
      obtain ⟨h4, t, ht, h5, h6⟩ := hI.used i hi hbit
      exact ⟨h4, t, by omega, h5, h6⟩
  case free =>
    intro i hi hbit
    rw [hlen] at hbit
    have hne : i ≠ r := by
      rintro rfl
      rw [hr.testBit_succ_self] at hbit
      cases hbit
    obtain ⟨h1, h2, h3⟩ := (filled_other (E := E) (c := c1) p hne).2 hi
    rw [h1, h2, h3]
    rcases Nat.lt_or_gt_of_ne hne with h | h
    · rw [if_pos h, if_pos h, if_pos h]
      exact ⟨rfl, rfl, rfl⟩
    · rw [hr.testBit_succ_gt h] at hbit
      rw [if_neg (by omega), if_neg (by omega), if_neg (by omega), hL, hkeys]
      exact hI.free i hi hbit

/-- **An undisturbed update keeps the invariant.** -/
theorem update_step (hE : PrfInj E ks n) (hks : ∀ w ∈ ks, Keyword w) (hI : Inv E N calls c)
    {u : Upd} (hus : ∀ v ∈ updatesOf calls ++ [u], v.keyword ∈ ks)
    (hn : (updatesOf calls).length + 1 ≤ n)
    (hcap : (updatesOf calls).length + 1 < 2 ^ max localSize (numOfDataSets N))
    (h32 : (updatesOf calls).length + 1 < 2 ^ 32) (hund : Undisturbed calls u) :
    ∃ c', update E c u = some c' ∧ Inv E N (calls ++ [.update u]) c' := by
  obtain ⟨r, hr⟩ := exists_carryAt (updatesOf calls).length
  have hpow : ∀ {m : Nat}, (updatesOf calls).length + 1 < 2 ^ m → r < m := fun hm =>
    (Nat.pow_lt_pow_iff_right (by omega)).mp (lt_of_le_of_lt hr.le hm)
  have hrm : rm0 (updatesOf calls).length = r := hr.log2_eq (hpow h32)
  have hguard : ¬ (localSize ≤ r ∧ c.L.size ≤ r) := by
    have := hpow hcap
    rw [hI.size]
    omega
  generalize hc1 : ({ c with updateCounter := (updatesOf calls).length + 1 } : Client) = c1
  have hprev := collect_holds (E := E) (c := c1) (t := (updatesOf calls).length)
    (fun v hv => hks _ (hus v (List.mem_append_left _ hv))) hr (by subst hc1; exact hI.tables)
    (by
      subst hc1
      intro i hle hlt
      obtain ⟨-, _, -, -, h⟩ := hI.used i hle (bit_of_carry hr hlt)
      exact h) u
  refine ⟨fill E (emptied c1 r) (updatesOf calls).length r _, ?_,
    filled_inv hE hks hI hus hn hr (fun hloc v hv => ?_) hprev hc1.symm⟩
  · simp only [update, hI.counter, hrm, hc1]
    rw [if_neg (by subst hc1; exact hguard), (collect_eq c1 _ r).1]
  · simp only [Undisturbed, hrm] at hund
    rw [start_carry hr]
    rw [segment_snoc_eq hr] at hv
    exact hund hloc v hv

/-! ## One search -/

theorem touch_data {i : Nat} (hi : i < localSize) (w : Str) :
    (touch c w).data i = (c.data i).push w [] := if_pos hi

theorem TableHolds.touch {m : Table Str (List Block)} {us : List Upd} (h : TableHolds m us)
    (w : Str) : TableHolds (m.push w []) us := by
  have := Table.items_push m w []
  rw [List.map_nil, List.append_nil] at this
  exact (this.map tagOf).trans h

theorem touch_inv (hI : Inv E N calls c) (w : Str) : Inv E N (calls ++ [.search w]) (touch c w) := by
  refine ⟨?counter, hI.size, ?tables, ?touched, ?used, ?free⟩
  all_goals rw [updatesOf_snoc_search]
  case counter => exact hI.counter
  case tables =>
    intro i hi
    rw [touch_data hi]
    exact (hI.tables i hi).touch w
  case touched =>
    intro i hi hbit k hk
    rw [touch_data hi, Table.mem_push] at hk
    rw [searchedSince_snoc_search, if_pos (by rw [start_eq]; exact Nat.sub_le _ _)]
    rcases hk with rfl | hk
    · exact List.mem_append_right _ List.mem_cons_self
    · exact List.mem_append_left _ (hI.touched i hi hbit k hk)
  case used => exact hI.used
  case free => exact hI.free

theorem searchSets_eq (hE : PrfInj E ks n) (hks : ∀ w ∈ ks, Keyword w) (hI : Inv E N calls c)
    (hus : ∀ v ∈ updatesOf calls, v.keyword ∈ ks) (hn : (updatesOf calls).length ≤ n) {w : Str}
    (hw : w ∈ ks) : ∀ is : List Nat, (∀ i ∈ is, localSize ≤ i) →
    ∃ bs, searchSets E c w is = some bs ∧ (bs.map head15).Perm
      (((is.flatMap (segment (updatesOf calls))).filter fun u => u.keyword = w).map
        fun u => head15 u.value) := by
  intro is
  induction is with
  | nil => exact fun _ => ⟨[], rfl, List.Perm.refl _⟩
  | cons i is ih =>
    intro his
    obtain ⟨bs, hbs, hperm⟩ := ih fun j hj => his j (List.mem_cons_of_mem _ hj)
    have hle := his i List.mem_cons_self
    rw [List.flatMap_cons, List.filter_append, List.map_append]
    cases hbit : (updatesOf calls).length.testBit i with
    | false =>
      obtain ⟨hex, -, -⟩ := hI.free i hle hbit
      refine ⟨bs, by simp [searchSets, hex, hbs], ?_⟩
      rw [segment_unused hbit]
      exact hperm
    | true =>
      obtain ⟨hex, t, ht, hkey, hholds⟩ := hI.used i hle hbit
      rw [hkey] at hholds
      obtain ⟨cs, hcs, hcperm⟩ := search_holds hE hks (by omega) hholds
        (fun v hv => hus v (mem_of_mem_segment hv)) ((length_segment_le _ _).trans hn) hw
      refine ⟨cs ++ bs, by simp [searchSets, hex, hkey, hcs, hbs], ?_⟩
      rw [List.map_append]
      exact hcperm.append hperm

/-- **What a search finds and returns.** -/
theorem search_step (hE : PrfInj E ks n) (hks : ∀ w ∈ ks, Keyword w) (hI : Inv E N calls c)
    (hus : ∀ v ∈ updatesOf calls, v.keyword ∈ ks) (hn : (updatesOf calls).length ≤ n)
    (hcap : (updatesOf calls).length < 2 ^ max localSize (numOfDataSets N)) {w : Str}
    (hw : w ∈ ks) :
    ∃ bs : List Block, search E c w = some (Tally.below (Tally.tally (bs.map plain)), touch c w) ∧
      (bs.map plain).Perm
        (((updatesOf calls).filter fun u => u.keyword = w).map fun u => (u.ind, u.op.weight)) := by
  have hT := touch_inv hI w
  have hsame : updatesOf (calls ++ [.search w]) = updatesOf calls := updatesOf_snoc_search calls w
  obtain ⟨bs, hbs, hperm⟩ := searchSets_eq hE hks hT (by rwa [hsame]) (by rwa [hsame]) hw
    (List.range' localSize (numOfDataSets N - localSize)) fun i hi => (mem_sets.mp hi).1
  rw [hsame] at hperm
  have hlocal : (((List.range localSize).flatMap fun i => ((touch c w).data i).get w).map
      head15).Perm ((((List.range localSize).flatMap (segment (updatesOf calls))).filter
        fun u => u.keyword = w).map fun u => head15 u.value) := by
    rw [List.map_flatMap, List.filter_flatMap, List.map_flatMap]
    refine List.Perm.flatMap_left _ fun i hi => ?_
    have := (hT.tables i (List.mem_range.mp hi)).get w
    rwa [hsame] at this
  have hsplit : List.range (max localSize (numOfDataSets N)) =
      List.range localSize ++ List.range' localSize (numOfDataSets N - localSize) := by
    have := range_split (max localSize (numOfDataSets N))
    rw [Nat.min_eq_right (le_max_left _ _)] at this
    rw [this]
    congr 2
    omega
  have hsize : c.L.size = numOfDataSets N := hI.size
  refine ⟨_, by simp only [search, touch, hsize] at hbs ⊢; rw [hbs]; rfl, ?_⟩
  refine perm_plain_of_perm ?_
  rw [List.map_append]
  refine (hlocal.append hperm).trans ?_
  rw [← List.map_append, ← List.filter_append, ← List.flatMap_append, ← hsplit]
  exact ((flatMap_segment_all hcap).filter _).map _

end

end SmallClientSSE.Amortized
