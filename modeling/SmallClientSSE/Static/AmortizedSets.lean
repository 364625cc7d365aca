import SmallClientSSE.Static.Amortized

/-!
# The server sets of the Amortized scheme

`SetHolds E key set us`: the ciphers of `set` are those of a table whose records
are the updates `us`. A set that was set up holds its records, a search in it
ends and returns the records of the keyword, and `getAllData` returns them all.
-/

namespace SmallClientSSE.Amortized

open Lib Static BASClient

variable {E : Env} {ks : List Str} {n : Nat}

/-- The PRF is injective on the tokens and counters in use: keywords of `ks`, the
keys that `n` updates allocate, counters up to `n`. -/
def PrfInj (E : Env) (ks : List Str) (n : Nat) : Prop :=
  ∀ t, t < n → Set.InjOn (fun p : Block × Nat => getAESRandomValue E p.1 p.2)
    {p | ∃ w ∈ ks, p.1 = token E w (some (E.newKey t)) ∧ p.2 ≤ n}

def addr (E : Env) (key : Option Block) (w : Str) (j : Nat) : Block :=
  getAESRandomValue E (token E w key) j

theorem token_inj {w v : Str} {key : Option Block} (hw : Keyword w) (hv : Keyword v)
    (h : token E w key = token E v key) : w = v :=
  encode_token_inj hw hv h

theorem addr_inj (hE : PrfInj E ks n) (hks : ∀ w ∈ ks, Keyword w) {t i j : Nat}
    (ht : t < n) {w v : Str} (hw : w ∈ ks) (hv : v ∈ ks) (hi : i ≤ n) (hj : j ≤ n)
    (h : addr E (some (E.newKey t)) w i = addr E (some (E.newKey t)) v j) : w = v ∧ i = j := by
  have := @hE t ht (token E w (some (E.newKey t)), i) ⟨w, hw, rfl, hi⟩
    (token E v (some (E.newKey t)), j) ⟨v, hv, rfl, hj⟩ h
  obtain ⟨h1, h2⟩ := Prod.mk.inj this
  exact ⟨token_inj (hks w hw) (hks v hv) h1, h2⟩

/-! ## The ciphers of a table -/

theorem mem_ciphersOf {key : Option Block} {w : Str} {vs : List Block} {a v : Block} :
    (a, v) ∈ ciphersOf E key (w, vs) ↔
      ∃ j b, vs[j]? = some b ∧ a = addr E key w j ∧ v = E.aes.encodeBlock b key := by
  simp only [ciphersOf, List.mem_map, Prod.mk.injEq, Prod.exists, List.mk_mem_zipIdx_iff_getElem?]
  constructor
  · rintro ⟨b, j, h, rfl, rfl⟩
    exact ⟨j, b, h, rfl, rfl⟩
  · rintro ⟨j, b, h, rfl, rfl⟩
    exact ⟨b, j, h, rfl, rfl⟩

theorem keys_ciphersOf (key : Option Block) (e : Str × List Block) :
    (ciphersOf E key e).map Prod.fst = (List.range' 0 e.2.length).map (addr E key e.1) := by
  rw [← List.zipIdx_map_snd 0 e.2, List.map_map]
  simp only [ciphersOf, List.map_map]
  rfl

/-- Non-empty entries have a known keyword and at most `n` records. -/
def Fits (ks : List Str) (n : Nat) (l : List (Str × List Block)) : Prop :=
  ∀ e ∈ l, e.2 ≠ [] → e.1 ∈ ks ∧ e.2.length ≤ n

theorem nodup_ciphers (hE : PrfInj E ks n) (hks : ∀ w ∈ ks, Keyword w) {t : Nat} (ht : t < n)
    {l : List (Str × List Block)} (hl : (l.map Prod.fst).Nodup) (hfit : Fits ks n l) :
    ((l.flatMap (ciphersOf E (some (E.newKey t)))).map Prod.fst).Nodup := by
  have hmem : ∀ {e : Str × List Block} {j : Nat}, e ∈ l → j ∈ List.range' 0 e.2.length →
      e.1 ∈ ks ∧ j ≤ n := by
    intro e j he hj
    have hlt : j < e.2.length := by simpa using hj
    have := hfit e he (List.ne_nil_of_length_pos (by omega))
    exact ⟨this.1, by omega⟩
  simp only [List.map_flatMap, keys_ciphersOf]
  refine List.nodup_flatMap.mpr ⟨fun e he => ?_, ?_⟩
  · refine List.Nodup.map_on (fun i hi j hj h => ?_) List.nodup_range'
    exact (addr_inj hE hks ht (hmem he hi).1 (hmem he hj).1 (hmem he hi).2 (hmem he hj).2 h).2
  · refine (List.pairwise_map.mp hl).imp_of_mem fun {d e} hd he hne => ?_
    intro a had hae
    obtain ⟨i, hi, rfl⟩ := List.mem_map.mp had
    obtain ⟨j, hj, h⟩ := List.mem_map.mp hae
    exact hne (addr_inj hE hks ht (hmem hd hi).1 (hmem he hj).1 (hmem hd hi).2 (hmem he hj).2 h.symm).1

/-! ## Sets that hold updates -/

def TableHolds (m : Table Str (List Block)) (us : List Upd) : Prop :=
  (m.items.map tagOf).Perm (us.map Upd.tag)

/-- The server set holds the updates `us` under `key`. -/
def SetHolds (E : Env) (key : Option Block) (set : Table Block Block) (us : List Upd) : Prop :=
  ∃ m, TableHolds m us ∧ set.pairs.Perm (m.pairs.flatMap (ciphersOf E key))

theorem TableHolds.mem {m : Table Str (List Block)} {us : List Upd} (h : TableHolds m us)
    {w : Str} {b : Block} (hb : (w, b) ∈ m.items) : ∃ u ∈ us, u.keyword = w := by
  obtain ⟨u, hu, e⟩ := List.mem_map.mp (h.subset (List.mem_map_of_mem hb))
  exact ⟨u, hu, congrArg Prod.fst e⟩

theorem TableHolds.length {m : Table Str (List Block)} {us : List Upd} (h : TableHolds m us) :
    m.items.length = us.length := by
  simpa using h.length_eq

theorem length_le_items {m : Table Str (List Block)} {e : Str × List Block} (he : e ∈ m.pairs) :
    e.2.length ≤ m.items.length := by
  have hsub : (e.2.map fun v => (e.1, v)).Sublist m.items :=
    List.sublist_flatten_of_mem (List.mem_map_of_mem he)
  simpa using hsub.length_le

theorem TableHolds.fits {m : Table Str (List Block)} {us : List Upd} (h : TableHolds m us)
    (hus : ∀ u ∈ us, u.keyword ∈ ks) (hn : us.length ≤ n) : Fits ks n m.pairs := by
  intro e he hne
  obtain ⟨b, hb⟩ := List.exists_mem_of_ne_nil _ hne
  obtain ⟨u, hu, hw⟩ := h.mem (List.mem_flatMap.mpr ⟨e, he, List.mem_map.mpr ⟨b, hb, rfl⟩⟩)
  have h1 := length_le_items he
  rw [h.length] at h1
  exact ⟨hw ▸ hus u hu, h1.trans hn⟩

theorem TableHolds.get {m : Table Str (List Block)} {us : List Upd} (h : TableHolds m us)
    (w : Str) : ((m.get w).map head15).Perm
      ((us.filter fun u => u.keyword = w).map fun u => head15 u.value) := by
  have h1 := (h.filter fun p => p.1 = w).map Prod.snd
  rw [List.filter_map, List.filter_map, List.map_map, List.map_map] at h1
  rw [Table.get_eq, List.map_map]
  exact h1

/-- **What `setup` stores.** -/
theorem setup_holds (hE : PrfInj E ks n) (hks : ∀ w ∈ ks, Keyword w) {t : Nat} (ht : t < n)
    {us : List Upd} {m : Table Str (List Block)} {pairs : List (Str × List Block)} (h : TableHolds m us)
    (hus : ∀ u ∈ us, u.keyword ∈ ks) (hn : us.length ≤ n) (hp : pairs.Perm m.pairs) :
    SetHolds E (some (E.newKey t)) ((∅ : Table Block Block).insertAll
      ((∅ : Table Block Block).storeAll
        (pairs.flatMap (ciphersOf E (some (E.newKey t))))).pairs) us := by
  have hnd : ((pairs.flatMap (ciphersOf E (some (E.newKey t)))).map Prod.fst).Nodup :=
    nodup_ciphers hE hks ht ((hp.map _).nodup_iff.mpr m.nodup_pairs)
      fun e he => h.fits hus hn e (hp.subset he)
  refine ⟨m, h, ?_⟩
  rw [Table.insertAll_of_fresh (Table.nodup_pairs _) fun _ _ => AList.notMem_empty _]
  refine (Table.pairs_storeAll (Table.nodup_pairs _) fun _ _ => AList.notMem_empty _).trans ?_
  refine (Table.pairs_storeAll hnd fun _ _ => AList.notMem_empty _).trans ?_
  exact hp.flatMap_right _

section

variable {set : Table Block Block} {us : List Upd} {t : Nat}

theorem lookup_addr (hE : PrfInj E ks n) (hks : ∀ w ∈ ks, Keyword w) (ht : t < n)
    {m : Table Str (List Block)} (hfit : Fits ks n m.pairs)
    (hset : set.pairs.Perm (m.pairs.flatMap (ciphersOf E (some (E.newKey t))))) {w : Str}
    (hw : w ∈ ks) {j : Nat} (hj : j ≤ n) :
    set.lookup (addr E (some (E.newKey t)) w j) =
      ((m.get w)[j]?).map fun b => E.aes.encodeBlock b (some (E.newKey t)) := by
  have hmem : ∀ {a v : Block}, set.lookup a = some v ↔
      ∃ e ∈ m.pairs, (a, v) ∈ ciphersOf E (some (E.newKey t)) e := by
    intro a v
    rw [← Table.mem_pairs, hset.mem_iff, List.mem_flatMap]
  have hget : ∀ {vs : List Block}, (w, vs) ∈ m.pairs → m.get w = vs := by
    intro vs h
    rw [Table.get, Table.mem_pairs.mp h]
    rfl
  cases hb : (m.get w)[j]? with
  | some b =>
    rw [Option.map_some, hmem]
    have hne : m.lookup w ≠ none := by
      intro h
      rw [Table.get, h] at hb
      simp at hb
    obtain ⟨vs, hvs⟩ := Option.ne_none_iff_exists'.mp hne
    have hp := Table.mem_pairs.mpr hvs
    exact ⟨(w, vs), hp, mem_ciphersOf.mpr ⟨j, b, by rw [← hget hp, hb], rfl, rfl⟩⟩
  | none =>
    rw [Option.map_none, Option.eq_none_iff_forall_ne_some]
    intro v hv
    obtain ⟨⟨w', vs⟩, he, hav⟩ := hmem.mp hv
    obtain ⟨i, b, hi, ha, -⟩ := mem_ciphersOf.mp hav
    have hlt : i < vs.length := (List.getElem?_eq_some_iff.mp hi).1
    obtain ⟨hks', hlen⟩ := hfit _ he (List.ne_nil_of_length_pos (by simp only; omega))
    simp only at hks' hlen
    obtain ⟨rfl, rfl⟩ := addr_inj hE hks ht hw hks' hj (by omega) ha
    rw [hget he, hi] at hb
    cases hb

theorem searchLoop_eq {w : Str} {key : Option Block} {cs : List Block}
    (hlook : ∀ j, j ≤ cs.length → set.lookup (addr E key w j) = cs[j]?) :
    ∀ fuel cnt, cnt ≤ cs.length → cs.length - cnt < fuel →
      searchLoop E set (token E w key) fuel cnt = some (cs.drop cnt) := by
  intro fuel
  induction fuel with
  | zero => intro cnt _ h; omega
  | succ fuel ih =>
    intro cnt hcnt hfuel
    have hl := hlook cnt hcnt
    unfold searchLoop
    unfold addr at hl
    rw [hl]
    by_cases hlt : cnt < cs.length
    · rw [List.getElem?_eq_getElem hlt]
      simp only
      rw [ih (cnt + 1) (by omega) (by omega), List.drop_eq_getElem_cons hlt]
      rfl
    · rw [List.getElem?_eq_none (by omega), List.drop_of_length_le (by omega)]

/-- **A search in a set** ends and returns the keyword's records. -/
theorem search_holds (hE : PrfInj E ks n) (hks : ∀ w ∈ ks, Keyword w) (ht : t < n)
    {L : BASClient} {index : Nat} (h : SetHolds E (some (E.newKey t)) (L.server index) us)
    (hus : ∀ u ∈ us, u.keyword ∈ ks) (hn : us.length ≤ n) {w : Str} (hw : w ∈ ks) :
    ∃ bs, L.search E index w (some (E.newKey t)) = some bs ∧ (bs.map head15).Perm
      ((us.filter fun u => u.keyword = w).map fun u => head15 u.value) := by
  obtain ⟨m, hm, hset⟩ := h
  have hfit := hm.fits hus hn
  have hget := hm.get w
  have hlen : (m.get w).length ≤ us.length := by
    have h1 := hget.length_eq
    have h2 := List.length_filter_le (fun u : Upd => decide (u.keyword = w)) us
    simp only [List.length_map] at h1
    omega
  have hpairs : (L.server index).pairs.length = us.length := by
    rw [hset.length_eq, ← hm.length]
    simp only [Table.items, Table.itemsOf, List.length_flatMap, ciphersOf, List.length_map,
      List.length_zipIdx]
  have hloop := @searchLoop_eq E (L.server index) w (some (E.newKey t))
    ((m.get w).map fun b => E.aes.encodeBlock b (some (E.newKey t)))
    (fun j hj => by
      rw [List.length_map] at hj
      rw [lookup_addr hE hks ht hfit hset hw (by omega), List.getElem?_map])
    ((L.server index).pairs.length + 1) 0 (Nat.zero_le _) (by rw [List.length_map]; omega)
  refine ⟨_, by rw [BASClient.search, hloop, List.drop_zero]; rfl, ?_⟩
  simpa only [List.map_map, Function.comp_def, Aes.head15_decode] using hget

/-- **All data of a set.** -/
theorem allData_holds {L : BASClient} {index : Nat} {key : Option Block}
    (h : SetHolds E key (L.server index) us) {l : List (Block × Block)}
    (hl : l.Perm (L.server index).pairs) :
    ((l.map fun item => E.aes.decode item.2 key).map head15).Perm
      (us.map fun u => head15 u.value) := by
  obtain ⟨m, hm, hset⟩ := h
  have h1 : ((m.pairs.flatMap (ciphersOf E key)).map fun item =>
      head15 (E.aes.decode item.2 key)) = (m.items.map tagOf).map Prod.snd := by
    simp only [Table.items, Table.itemsOf, List.map_flatMap, List.map_map, ciphersOf,
      Function.comp_def, Aes.head15_decode, tagOf]
    refine congrArg m.pairs.flatMap (funext fun e => ?_)
    have := congrArg (List.map head15) (List.zipIdx_map_fst 0 e.2)
    rwa [List.map_map] at this
  have h2 : ((m.items.map tagOf).map Prod.snd).Perm (us.map fun u => head15 u.value) := by
    have := hm.map Prod.snd
    rwa [List.map_map (l := us)] at this
  rw [List.map_map]
  refine ((hl.trans hset).map _).trans ?_
  rw [Function.comp_def, h1]
  exact h2

end

end SmallClientSSE.Amortized
