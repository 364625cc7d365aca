import SmallClientSSE.Lib.Table

/-!
# A stash in front of buckets

Items are kept under their keys in a stash or in one of the buckets they fit.
Reading a bucket copies its items to the stash (`fetch`); from then on the bucket
is dead, its contents out of date, until it is written again with items that
leave the stash (`spill`). `Holds V dead stash store` says that the stash and the
buckets that are not dead hold the items of `V`, each exactly once. Keys that are
not `real` belong to padding or to items given up, and are not accounted for.
-/

namespace Lib.Stash

variable {κ ι β : Type} [DecidableEq κ]

/-- Copy the items of a bucket that are not stashed yet. -/
def fetch (key : β → κ) (real : κ → Bool) (stash : Table κ β) (bucket : List β) : Table κ β :=
  bucket.foldl (fun s b => if real (key b) then (if key b ∈ s then s else s.put (key b) b) else s)
    stash

/-- Take items out of the stash. -/
def spill (stash : Table κ β) (ks : List κ) : Table κ β := ks.foldl (fun s k => s.del k) stash

section

variable (key : β → κ) (real : κ → Bool) (fits : β → ι → Prop)

/-- The items of `V` are in the stash and in the buckets outside `dead`. -/
structure Holds (V : κ → Option β) (dead : Set ι) (stash : Table κ β) (store : ι → List β) :
    Prop where
  proper : ∀ {k b}, V k = some b → key b = k ∧ real k = true
  keyed : ∀ {k b}, stash.lookup k = some b → key b = k
  stashed : ∀ {k b}, stash.lookup k = some b → real k = true → V k = some b
  stored : ∀ {i b}, i ∉ dead → b ∈ store i → real (key b) = true →
    V (key b) = some b ∧ fits b i ∧ key b ∉ stash
  once : ∀ {i j b c}, i ∉ dead → j ∉ dead → b ∈ store i → c ∈ store j → real (key b) = true →
    key b = key c → i = j
  nodup : ∀ {i}, i ∉ dead → (((store i).map key).filter real).Nodup
  found : ∀ {k b}, V k = some b → stash.lookup k = some b ∨ ∃ i, i ∉ dead ∧ b ∈ store i

end

variable {key : β → κ} {real : κ → Bool} {fits : β → ι → Prop} {V : κ → Option β}
  {dead : Set ι} {stash : Table κ β} {store : ι → List β} {bucket : List β} {k : κ} {b : β} {i : ι}

/-! ## Fetching -/

@[simp] theorem fetch_nil : fetch key real stash [] = stash := rfl

theorem fetch_cons (c : β) : fetch key real stash (c :: bucket) =
    fetch key real (if real (key c) then (if key c ∈ stash then stash else stash.put (key c) c)
      else stash) bucket := rfl

theorem lookup_fetch_of_some (h : stash.lookup k = some b) :
    (fetch key real stash bucket).lookup k = some b := by
  induction bucket generalizing stash with
  | nil => exact h
  | cons c bucket ih =>
    rw [fetch_cons]
    refine ih ?_
    split
    · split
      · exact h
      · next hc =>
        have hne : k ≠ key c := fun e => hc (e ▸ AList.lookup_isSome.mp (h ▸ rfl))
        rw [AList.lookup_insert_ne hne]
        exact h
    · exact h

/-- A stashed item was stashed before or is in the bucket. -/
theorem mem_of_lookup_fetch (h : (fetch key real stash bucket).lookup k = some b) :
    stash.lookup k = some b ∨ b ∈ bucket := by
  induction bucket generalizing stash with
  | nil => exact .inl h
  | cons c bucket ih =>
    rw [fetch_cons] at h
    rcases ih h with h | h
    · split at h
      · split at h
        · exact .inl h
        · by_cases hk : k = key c
          · subst hk
            rw [AList.lookup_insert] at h
            exact .inr (Option.some.inj h ▸ List.mem_cons_self)
          · rw [AList.lookup_insert_ne hk] at h
            exact .inl h
      · exact .inl h
    · exact .inr (List.mem_cons_of_mem _ h)

/-- A bucket of new items is added to the stash. -/
theorem lookup_fetch (hnd : ((bucket.map key).filter real).Nodup)
    (hnew : ∀ c ∈ bucket, real (key c) = true → key c ∉ stash) :
    (fetch key real stash bucket).lookup k = some b ↔
      stash.lookup k = some b ∨ b ∈ bucket ∧ real (key b) = true ∧ key b = k := by
  induction bucket generalizing stash with
  | nil => simp
  | cons c bucket ih =>
    rw [fetch_cons]
    by_cases hc : real (key c) = true
    · rw [List.map_cons, List.filter_cons_of_pos (by exact hc)] at hnd
      obtain ⟨hnot, hnd⟩ := List.nodup_cons.mp hnd
      have hcs := hnew c List.mem_cons_self hc
      rw [if_pos hc, if_neg hcs, ih hnd]
      · by_cases hk : k = key c
        · subst hk
          rw [AList.lookup_insert]
          constructor
          · rintro (h | ⟨h, -, e⟩)
            · exact .inr (by simp [Option.some.inj h ▸ hc, Option.some.inj h])
            · exact absurd (List.mem_filter.mpr ⟨List.mem_map.mpr ⟨b, h, e⟩, hc⟩) hnot
          · rintro (h | ⟨h, hr, e⟩)
            · exact absurd (AList.lookup_isSome.mp (h ▸ rfl)) hcs
            · rcases List.mem_cons.mp h with rfl | h
              · exact .inl rfl
              · exact absurd (List.mem_filter.mpr ⟨List.mem_map.mpr ⟨b, h, e⟩, hc⟩) hnot
        · rw [AList.lookup_insert_ne hk, List.mem_cons]
          constructor
          · rintro (h | ⟨h, hr⟩)
            exacts [.inl h, .inr ⟨.inr h, hr⟩]
          · rintro (h | ⟨rfl | h, hr, e⟩)
            exacts [.inl h, absurd e.symm hk, .inr ⟨h, hr, e⟩]
      · intro d hd hr hmem
        rcases (AList.mem_insert stash).mp hmem with h | h
        · exact hnot (h ▸ List.mem_filter.mpr ⟨List.mem_map_of_mem hd, hr⟩)
        · exact hnew d (List.mem_cons_of_mem _ hd) hr h
    · rw [List.map_cons, List.filter_cons_of_neg (by exact hc)] at hnd
      rw [if_neg hc, ih hnd fun d hd => hnew d (List.mem_cons_of_mem _ hd), List.mem_cons]
      constructor
      · rintro (h | ⟨h, hr⟩)
        exacts [.inl h, .inr ⟨.inr h, hr⟩]
      · rintro (h | ⟨rfl | h, hr, e⟩)
        exacts [.inl h, absurd hr hc, .inr ⟨h, hr, e⟩]

/-- **Reading a bucket.** -/
theorem Holds.fetch (h : Holds key real fits V dead stash store) (hi : i ∉ dead) :
    Holds key real fits V (insert i dead) (fetch key real stash (store i)) store := by
  have hlook : ∀ k b, (Stash.fetch key real stash (store i)).lookup k = some b ↔
      stash.lookup k = some b ∨ b ∈ store i ∧ real (key b) = true ∧ key b = k := fun k b =>
    lookup_fetch (h.nodup hi) fun c hc hr => (h.stored hi hc hr).2.2
  have hout : ∀ {j}, j ∉ insert i dead → j ≠ i ∧ j ∉ dead := fun hj =>
    ⟨fun e => hj (.inl e), fun e => hj (.inr e)⟩
  refine ⟨h.proper, fun {k b} hk => ?_, fun {k b} hk hr => ?_, fun {j b} hj hb hr => ?_,
    fun hj hj' => h.once (hout hj).2 (hout hj').2, fun hj => h.nodup (hout hj).2,
    fun {k b} hV => ?_⟩
  · rcases (hlook k b).mp hk with hk | ⟨-, -, e⟩
    exacts [h.keyed hk, e]
  · rcases (hlook k b).mp hk with hk | ⟨hb, hrb, e⟩
    exacts [h.stashed hk hr, e ▸ (h.stored hi hb hrb).1]
  · obtain ⟨h1, h2, h3⟩ := h.stored (hout hj).2 hb hr
    refine ⟨h1, h2, fun hmem => ?_⟩
    obtain ⟨c, hc⟩ := Option.isSome_iff_exists.mp (AList.lookup_isSome.mpr hmem)
    rcases (hlook _ c).mp hc with hc | ⟨hc, -, e⟩
    · exact h3 (AList.lookup_isSome.mp (hc ▸ rfl))
    · exact (hout hj).1 (h.once (hout hj).2 hi hb hc hr e.symm)
  · rcases h.found hV with hk | ⟨j, hj, hb⟩
    · exact .inl ((hlook k b).mpr (.inl hk))
    · obtain ⟨rfl, hr⟩ := h.proper hV
      by_cases hji : j = i
      · exact .inl ((hlook _ b).mpr (.inr ⟨hji ▸ hb, hr, rfl⟩))
      · exact .inr ⟨j, fun hj' => hj'.elim hji hj, hb⟩

open Classical in
/-- Items given up. -/
noncomputable def drop (V : κ → Option β) (lost : Set κ) : κ → Option β := fun k =>
  if k ∈ lost then none else V k

omit [DecidableEq κ] in
omit [DecidableEq κ] in
theorem drop_of_mem {lost : Set κ} (hk : k ∈ lost) : drop V lost k = none := if_pos hk

omit [DecidableEq κ] in
theorem drop_empty (V : κ → Option β) : drop V ∅ = V := funext fun _ => if_neg fun h => h

omit [DecidableEq κ] in
theorem drop_eq_some {lost : Set κ} : drop V lost k = some b ↔ V k = some b ∧ k ∉ lost := by
  unfold drop
  split
  · next h => simp [h]
  · next h => simp [h]

/-- The items of the buckets `D` that have not been read. -/
def unread (key : β → κ) (real : κ → Bool) (dead D : Set ι) (store : ι → List β) : Set κ :=
  {k | ∃ i ∈ D, i ∉ dead ∧ ∃ b ∈ store i, real (key b) = true ∧ key b = k}

/-- **Giving up buckets** with the items they still hold. -/
theorem Holds.lose (h : Holds key real fits V dead stash store) (D : Set ι) :
    Holds key real fits (drop V (unread key real dead D store)) (dead ∪ D) stash store := by
  have hout : ∀ {j}, j ∉ dead ∪ D → j ∉ dead := fun hj e => hj (.inl e)
  refine ⟨fun hV => h.proper (drop_eq_some.mp hV).1, h.keyed, fun {k b} hk hr => ?_,
    fun {i b} hi hb hr => ?_, fun hi hj => h.once (hout hi) (hout hj), fun hi => h.nodup (hout hi),
    fun {k b} hV => ?_⟩
  · refine drop_eq_some.mpr ⟨h.stashed hk hr, ?_⟩
    rintro ⟨i, -, hi, c, hc, hrc, rfl⟩
    exact (h.stored hi hc hrc).2.2 (AList.lookup_isSome.mp (hk ▸ rfl))
  · obtain ⟨h1, h2, h3⟩ := h.stored (hout hi) hb hr
    refine ⟨drop_eq_some.mpr ⟨h1, ?_⟩, h2, h3⟩
    rintro ⟨j, hj, hjd, c, hc, hrc, e⟩
    exact hi (.inr (h.once hjd (hout hi) hc hb hrc e ▸ hj))
  · obtain ⟨hV, hlost⟩ := drop_eq_some.mp hV
    refine (h.found hV).imp_right fun ⟨i, hi, hb⟩ => ⟨i, ?_, hb⟩
    rintro (hd | hD)
    · exact hi hd
    · obtain ⟨rfl, hr⟩ := h.proper hV
      exact hlost ⟨i, hD, hi, b, hb, hr, rfl⟩

/-- **Accounting for fewer keys**, those of `real'`. -/
theorem Holds.restrict {real' : κ → Bool} (h : Holds key real fits V dead stash store)
    (hle : ∀ k, real' k = true → real k = true) :
    Holds key real' fits (fun k => if real' k then V k else none) dead stash store := by
  have hV : ∀ {k b}, (if real' k then V k else none) = some b → V k = some b ∧ real' k = true := by
    intro k b hk
    split at hk
    · next hr => exact ⟨hk, hr⟩
    · cases hk
  refine ⟨fun hk => ⟨(h.proper (hV hk).1).1, (hV hk).2⟩, h.keyed, fun hk hr => ?_,
    fun hi hb hr => ?_, fun hi hj hb hc hr => h.once hi hj hb hc (hle _ hr), fun {i} hi => ?_,
    fun hk => h.found (hV hk).1⟩
  · rw [if_pos hr]
    exact h.stashed hk (hle _ hr)
  · rw [if_pos hr]
    exact h.stored hi hb (hle _ hr)
  · have hsub : ((store i).map key).filter real' =
        (((store i).map key).filter real).filter real' := by
      rw [List.filter_filter]
      refine List.filter_congr fun k _ => ?_
      have := hle k
      cases hr : real' k <;> simp_all
    rw [hsub]
    exact (h.nodup hi).filter _

/-- An item whose buckets have all been read is stashed. -/
theorem Holds.stash_of_fits (h : Holds key real fits V dead stash store) (hV : V k = some b)
    (hfits : ∀ i, fits b i → i ∈ dead) : stash.lookup k = some b := by
  rcases h.found hV with hk | ⟨i, hi, hb⟩
  · exact hk
  · obtain ⟨rfl, hr⟩ := h.proper hV
    exact absurd (hfits i (h.stored hi hb hr).2.1) hi

/-! ## Changing the stash -/

/-- **Writing an item** that is stashed or new. -/
theorem Holds.put (h : Holds key real fits V dead stash store) (hr : real k = true)
    (hb : key b = k) (hk : k ∈ stash ∨ V k = none) :
    Holds key real fits (Function.update V k (some b)) dead (stash.put k b) store := by
  have hnot : ∀ {i c}, i ∉ dead → c ∈ store i → real (key c) = true → key c ≠ k := by
    rintro i c hi hc hr rfl
    obtain ⟨h1, -, h3⟩ := h.stored hi hc hr
    rcases hk with hk | hk
    · exact h3 hk
    · rw [hk] at h1
      cases h1
  refine ⟨fun {j c} hV => ?_, fun {j c} hj => ?_, fun {j c} hj hrj => ?_, fun {i c} hi hc hrc => ?_,
    h.once, h.nodup, fun {j c} hV => ?_⟩
  · by_cases hjk : j = k
    · subst hjk
      rw [Function.update_self] at hV
      exact ⟨Option.some.inj hV ▸ hb, hr⟩
    · rw [Function.update_of_ne hjk] at hV
      exact h.proper hV
  · by_cases hjk : j = k
    · subst hjk
      rw [AList.lookup_insert] at hj
      exact Option.some.inj hj ▸ hb
    · rw [AList.lookup_insert_ne hjk] at hj
      exact h.keyed hj
  · by_cases hjk : j = k
    · subst hjk
      rw [AList.lookup_insert] at hj
      rwa [Function.update_self]
    · rw [AList.lookup_insert_ne hjk] at hj
      rw [Function.update_of_ne hjk]
      exact h.stashed hj hrj
  · obtain ⟨h1, h2, h3⟩ := h.stored hi hc hrc
    refine ⟨?_, h2, fun hmem => ?_⟩
    · rw [Function.update_of_ne (hnot hi hc hrc)]
      exact h1
    · exact ((AList.mem_insert stash).mp hmem).elim (hnot hi hc hrc) h3
  · by_cases hjk : j = k
    · subst hjk
      rw [Function.update_self] at hV
      rw [AList.lookup_insert]
      exact .inl hV
    · rw [Function.update_of_ne hjk] at hV
      rw [AList.lookup_insert_ne hjk]
      exact h.found hV

theorem Holds.put_unreal (h : Holds key real fits V dead stash store) (hr : real k = false)
    (hb : key b = k) : Holds key real fits V dead (stash.put k b) store := by
  have hne : ∀ {j}, real j = true → j ≠ k := fun hj e => by rw [e, hr] at hj; cases hj
  refine ⟨h.proper, fun {j c} hj => ?_, fun {j c} hj hrj => ?_, fun {i c} hi hc hrc => ?_,
    h.once, h.nodup, fun {j c} hV => ?_⟩
  · by_cases hjk : j = k
    · subst hjk
      rw [AList.lookup_insert] at hj
      exact Option.some.inj hj ▸ hb
    · rw [AList.lookup_insert_ne hjk] at hj
      exact h.keyed hj
  · rw [AList.lookup_insert_ne (hne hrj)] at hj
    exact h.stashed hj hrj
  · obtain ⟨h1, h2, h3⟩ := h.stored hi hc hrc
    exact ⟨h1, h2, fun hmem => ((AList.mem_insert stash).mp hmem).elim (hne hrc) h3⟩
  · rw [AList.lookup_insert_ne (hne (h.proper hV).2)]
    exact h.found hV

/-! ## Writing buckets -/

theorem lookup_spill (ks : List κ) : ∀ {stash : Table κ β},
    (spill stash ks).lookup k = some b ↔ stash.lookup k = some b ∧ k ∉ ks := by
  induction ks with
  | nil => simp [spill]
  | cons j ks ih =>
    intro stash
    have hstep : spill stash (j :: ks) = spill (stash.del j) ks := rfl
    rw [hstep, ih, List.mem_cons]
    by_cases hk : k = j
    · subst hk
      simp
    · rw [AList.lookup_erase_ne hk]
      tauto

variable [DecidableEq ι]

/-- **Writing a dead bucket** with stashed items that fit and padding. -/
theorem Holds.spill (h : Holds key real fits V dead stash store) (es : List (κ × β)) (pad : List β)
    (hnd : (es.map Prod.fst).Nodup) (hes : ∀ e ∈ es, stash.lookup e.1 = some e.2)
    (hfits : ∀ e ∈ es, fits e.2 i) (hpad : ∀ b ∈ pad, real (key b) = false) (hi : i ∈ dead) :
    Holds key real fits V (dead \ {i}) (spill stash (es.map Prod.fst))
      (Function.update store i (es.map Prod.snd ++ pad)) := by
  have hkeys : es.map (fun e => key e.2) = es.map Prod.fst :=
    List.map_congr_left fun e he => h.keyed (hes e he)
  have hout : ∀ {j}, j ∉ dead \ {i} → j ≠ i → j ∉ dead := fun hj hji hd => hj ⟨hd, hji⟩
  have hin : ∀ {b}, b ∈ es.map Prod.snd ++ pad → real (key b) = true →
      stash.lookup (key b) = some b ∧ fits b i ∧ key b ∈ es.map Prod.fst := by
    intro b hb hr
    rcases List.mem_append.mp hb with hb | hb
    · obtain ⟨e, he, rfl⟩ := List.mem_map.mp hb
      have hk := h.keyed (hes e he)
      rw [hk]
      exact ⟨hes e he, hfits e he, List.mem_map_of_mem he⟩
    · rw [hpad b hb] at hr
      cases hr
  refine ⟨h.proper, fun hk => h.keyed ((lookup_spill _).mp hk).1,
    fun hk => h.stashed ((lookup_spill _).mp hk).1, fun {j b} hj hb hr => ?_,
    fun {j l b c} hj hl hb hc hr e => ?_, fun {j} hj => ?_, fun {k b} hV => ?_⟩
  · by_cases hji : j = i
    · subst hji
      rw [Function.update_self] at hb
      obtain ⟨h1, h2, h3⟩ := hin hb hr
      refine ⟨h.stashed h1 hr, h2, fun hmem => ?_⟩
      obtain ⟨c, hc⟩ := Option.isSome_iff_exists.mp (AList.lookup_isSome.mpr hmem)
      exact ((lookup_spill _).mp hc).2 h3
    · rw [Function.update_of_ne hji] at hb
      obtain ⟨h1, h2, h3⟩ := h.stored (hout hj hji) hb hr
      refine ⟨h1, h2, fun hmem => ?_⟩
      obtain ⟨c, hc⟩ := Option.isSome_iff_exists.mp (AList.lookup_isSome.mpr hmem)
      exact h3 (AList.lookup_isSome.mp (((lookup_spill _).mp hc).1 ▸ rfl))
  · have hmix : ∀ {j b c}, j ∉ dead \ {i} → j ≠ i → b ∈ store j → c ∈ es.map Prod.snd ++ pad →
        real (key b) = true → key b ≠ key c := by
      intro j b c hj hji hb hc hr e
      refine (h.stored (hout hj hji) hb hr).2.2 ?_
      rw [e] at hr ⊢
      exact AList.lookup_isSome.mp ((hin hc hr).1 ▸ rfl)
    by_cases hji : j = i
    · by_cases hli : l = i
      · rw [hji, hli]
      · subst hji
        rw [Function.update_self] at hb
        rw [Function.update_of_ne hli] at hc
        exact absurd e.symm (hmix hl hli hc hb (e ▸ hr))
    · rw [Function.update_of_ne hji] at hb
      by_cases hli : l = i
      · subst hli
        rw [Function.update_self] at hc
        exact absurd e (hmix hj hji hb hc hr)
      · rw [Function.update_of_ne hli] at hc
        exact h.once (hout hj hji) (hout hl hli) hb hc hr e
  · by_cases hji : j = i
    · subst hji
      rw [Function.update_self, List.map_append, List.filter_append, List.map_map]
      have hp : (pad.map key).filter real = [] := by
        rw [List.filter_eq_nil_iff]
        intro x hx
        obtain ⟨b, hb, rfl⟩ := List.mem_map.mp hx
        simp [hpad b hb]
      rw [hp, List.append_nil, show (key ∘ Prod.snd : κ × β → κ) = fun e => key e.2 from rfl, hkeys]
      exact hnd.filter _
    · rw [Function.update_of_ne hji]
      exact h.nodup (hout hj hji)
  · rcases h.found hV with hk | ⟨j, hj, hb⟩
    · by_cases hmem : k ∈ es.map Prod.fst
      · obtain ⟨e, he, rfl⟩ := List.mem_map.mp hmem
        have hb : b = e.2 := Option.some.inj (hk.symm.trans (hes e he))
        refine .inr ⟨i, fun hd => hd.2 rfl, ?_⟩
        rw [Function.update_self, hb]
        exact List.mem_append_left _ (List.mem_map_of_mem he)
      · exact .inl ((lookup_spill _).mpr ⟨hk, hmem⟩)
    · have hji : j ≠ i := fun e => hj (e ▸ hi)
      exact .inr ⟨j, fun hd => hj hd.1, by rwa [Function.update_of_ne hji]⟩

theorem entries_of_perm {l : List (κ × β)} (hl : l.Perm stash.pairs) (p : κ × β → Bool) (n : Nat) :
    (((l.filter p).take n).map Prod.fst).Nodup ∧
      ∀ e ∈ (l.filter p).take n, stash.lookup e.1 = some e.2 ∧ p e = true := by
  have hsub : ((l.filter p).take n).Sublist l := (List.take_sublist _ _).trans List.filter_sublist
  refine ⟨(((hl.map Prod.fst).nodup_iff.mpr stash.nodup_pairs).sublist (hsub.map Prod.fst)),
    fun e he => ⟨?_, (List.mem_filter.mp (List.mem_of_mem_take he)).2⟩⟩
  exact Table.mem_pairs.mp (hl.subset (hsub.subset he))

/-! ## Loading -/

omit [DecidableEq κ] in
theorem find?_eq_some_iff [DecidableEq κ] {l : List β} (hl : (l.map key).Nodup) :
    l.find? (fun b => key b = k) = some b ↔ b ∈ l ∧ key b = k := by
  constructor
  · intro h
    exact ⟨List.mem_of_find?_eq_some h, by simpa using List.find?_some h⟩
  · rintro ⟨hb, rfl⟩
    cases h : l.find? (fun c => key c = key b) with
    | none =>
      have := List.find?_eq_none.mp h b hb
      simp at this
    | some c =>
      have hc : key c = key b := by simpa using List.find?_some h
      rw [List.inj_on_of_nodup_map hl (List.mem_of_find?_eq_some h) hb hc]

/-- **Filling** empty buckets and an empty stash with some items. -/
theorem Holds.load {l : List β} {T : Table ι (List β)} (hl : (l.map key).Nodup)
    (hreal : ∀ b ∈ l, real (key b) = true)
    (hperm : (T.items.map Prod.snd ++ stash.pairs.map Prod.snd).Perm l)
    (hkeyed : ∀ e ∈ stash.pairs, key e.2 = e.1) (hfits : ∀ e ∈ T.items, fits e.2 e.1)
    (hstore : ∀ i, ∃ pad, store i = T.get i ++ pad ∧ ∀ b ∈ pad, real (key b) = false) :
    Holds key real fits (fun k => l.find? fun b => key b = k) ∅ stash store := by
  have hget : ∀ {i b}, b ∈ T.get i ↔ (i, b) ∈ T.items := by
    intro i b
    rw [Table.get_eq, List.mem_map]
    constructor
    · rintro ⟨⟨j, c⟩, h, rfl⟩
      obtain ⟨h', e⟩ := List.mem_filter.mp h
      obtain rfl : j = i := by simpa using e
      exact h'
    · exact fun h => ⟨(i, b), List.mem_filter.mpr ⟨h, by simp⟩, rfl⟩
  have hnd : ((T.items.map Prod.snd ++ stash.pairs.map Prod.snd).map key).Nodup :=
    (hperm.map key).nodup_iff.mpr hl
  rw [List.map_append] at hnd
  obtain ⟨hndT, -, hdisj⟩ := List.nodup_append.mp hnd
  rw [List.map_map] at hndT
  have hin : ∀ {i b}, b ∈ store i → real (key b) = true → (i, b) ∈ T.items := by
    intro i b hb hr
    obtain ⟨pad, he, hpad⟩ := hstore i
    rw [he] at hb
    rcases List.mem_append.mp hb with hb | hb
    · exact hget.mp hb
    · rw [hpad b hb] at hr
      cases hr
  refine ⟨fun {k b} hV => ?_, fun hk => ?_, fun {k b} hk hr => ?_, fun {i b} _ hb hr => ?_,
    fun {i j b c} _ _ hb hc hr e => ?_, fun {i} _ => ?_, fun {k b} hV => ?_⟩
  · obtain ⟨hb, rfl⟩ := (find?_eq_some_iff hl).mp hV
    exact ⟨rfl, hreal b hb⟩
  · exact hkeyed _ (Table.mem_pairs.mpr hk)
  · have hmem := Table.mem_pairs.mpr hk
    exact (find?_eq_some_iff hl).mpr ⟨hperm.subset (List.mem_append_right _
      (List.mem_map_of_mem hmem)), hkeyed _ hmem⟩
  · have hmem := List.mem_map_of_mem (f := Prod.snd) (hin hb hr)
    refine ⟨(find?_eq_some_iff hl).mpr ⟨hperm.subset (List.mem_append_left _ hmem), rfl⟩,
      hfits _ (hin hb hr), fun hs => ?_⟩
    obtain ⟨c, hc⟩ := Option.isSome_iff_exists.mp (AList.lookup_isSome.mpr hs)
    have hcm := Table.mem_pairs.mpr hc
    exact hdisj _ (List.mem_map_of_mem hmem) _
      (List.mem_map_of_mem (List.mem_map_of_mem (f := Prod.snd) hcm)) (hkeyed _ hcm).symm
  · exact congrArg Prod.fst (List.inj_on_of_nodup_map hndT (hin hb hr) (hin hc (e ▸ hr)) e)
  · obtain ⟨pad, he, hpad⟩ := hstore i
    have hp : (pad.map key).filter real = [] := by
      rw [List.filter_eq_nil_iff]
      intro x hx
      obtain ⟨b, hb, rfl⟩ := List.mem_map.mp hx
      simp [hpad b hb]
    rw [he, List.map_append, List.filter_append, hp, List.append_nil, Table.get_eq, List.map_map]
    exact (hndT.sublist (List.filter_sublist.map _)).filter _
  · obtain ⟨hb, rfl⟩ := (find?_eq_some_iff hl).mp hV
    rcases List.mem_append.mp (hperm.symm.subset hb) with hb | hb
    · obtain ⟨⟨i, c⟩, he, rfl⟩ := List.mem_map.mp hb
      obtain ⟨pad, hs, -⟩ := hstore i
      exact .inr ⟨i, id, hs ▸ List.mem_append_left _ (hget.mpr he)⟩
    · obtain ⟨⟨k, c⟩, he, rfl⟩ := List.mem_map.mp hb
      refine .inl ?_
      rw [show key c = k from hkeyed _ he]
      exact Table.mem_pairs.mp he

end Lib.Stash
