import SmallClientSSE.Horus.Calls

/-!
# Setup calls of Horus

Setup files pairs in `setupPairs1` and boxes in `setupPairs2`, the same ledger as
online calls keep, with the counters in plain maps. Two things differ: an
insertion always files at access `1`, whatever the slot held before, and
`latestUpdatedCounter` is never set. So the ledger survives an insertion only
into a slot that is new or was last written at access `1`, and the entry that
`endSetup` leaves does not know `latestUpdatedCounter`.
-/

namespace SmallClientSSE.Horus

open Lib Lib.Effect

/-- The maps hold the ledger `g` of `w` during setup. -/
structure SetupEntry (h : Client) (w : Kw) (g : Ledger) : Prop where
  holds : Holds h.setupPairs1 h.setupPairs2 w g
  updt : h.UpdtCnt.lookup w = some g.live
  srch : h.SrchCnt.lookup w = some g.src
  access : h.Access.lookup w = some g.access
  last : 1 ≤ g.live.val → h.LastIND.lookup w = some (g.ind g.live)
  filed : g.lat = g.top

structure SetupBlank (h : Client) (w : Kw) : Prop where
  pairs1 : ∀ p n, h.setupPairs1 (createBid p w n) = none
  pairs2 : ∀ i s a, h.setupPairs2 (oramBid w i s a) = none
  updt : h.UpdtCnt.lookup w = none
  srch : h.SrchCnt.lookup w = none
  access : h.Access.lookup w = none
  last : h.LastIND.lookup w = none

structure SetupSame (h h' : Client) (w : Kw) : Prop where
  pairs1 : ∀ p n, h'.setupPairs1 (createBid p w n) = h.setupPairs1 (createBid p w n)
  pairs2 : ∀ i s a, h'.setupPairs2 (oramBid w i s a) = h.setupPairs2 (oramBid w i s a)
  updt : h'.UpdtCnt.lookup w = h.UpdtCnt.lookup w
  srch : h'.SrchCnt.lookup w = h.SrchCnt.lookup w
  access : h'.Access.lookup w = h.Access.lookup w
  last : h'.LastIND.lookup w = h.LastIND.lookup w

def SetupOpened (h : Client) (w : Kw) (g : Ledger) : Prop :=
  SetupEntry h w g ∨ (SetupBlank h w ∧ g = Ledger.blank)

/-- The stores, and the map that setup never fills. -/
def Stores (h : Client) : FMap 24 × FMap 24 × FMap 24 × Table Kw CInt :=
  (h.OMAP_updt, h.CNTs, h.ORAM_srch, h.latestUpdatedCounter)

section

variable {h h' : Client} {w v : Kw} {g : Ledger}

theorem SetupEntry.frame (he : SetupEntry h w g) (hs : SetupSame h h' w) : SetupEntry h' w g :=
  ⟨he.holds.frame hs.pairs1 hs.pairs2, hs.updt.trans he.updt, hs.srch.trans he.srch,
    hs.access.trans he.access, fun h1 => hs.last.trans (he.last h1), he.filed⟩

theorem SetupBlank.frame (hb : SetupBlank h w) (hs : SetupSame h h' w) : SetupBlank h' w :=
  ⟨fun p n => (hs.pairs1 p n).trans (hb.pairs1 p n),
    fun i s a => (hs.pairs2 i s a).trans (hb.pairs2 i s a), hs.updt.trans hb.updt,
    hs.srch.trans hb.srch, hs.access.trans hb.access, hs.last.trans hb.last⟩

theorem SetupOpened.frame (ho : SetupOpened h w g) (hs : SetupSame h h' w) : SetupOpened h' w g :=
  ho.imp (·.frame hs) fun hb => ⟨hb.1.frame hs, hb.2⟩

theorem SetupOpened.holds (ho : SetupOpened h w g) : Holds h.setupPairs1 h.setupPairs2 w g := by
  rcases ho with he | ⟨hb, rfl⟩
  · exact he.holds
  · exact holds_blank hb.pairs1 hb.pairs2

theorem SetupOpened.filed (ho : SetupOpened h w g) : g.lat = g.top := by
  rcases ho with he | ⟨-, rfl⟩
  · exact he.filed
  · rfl

theorem SetupOpened.counters (ho : SetupOpened h w g) : counter h.UpdtCnt w zero = g.live ∧
    counter h.SrchCnt w zero = g.src ∧ counter h.Access w one = g.access := by
  rcases ho with he | ⟨hb, rfl⟩
  · simp [counter, he.updt, he.srch, he.access]
  · simp [counter, hb.updt, hb.srch, hb.access, Ledger.blank]

theorem lookup_put (m : Table Kw CInt) (c : CInt) : (m.put w c).lookup w = some c :=
  AList.lookup_insert m

theorem lookup_put_ne (m : Table Kw CInt) (c : CInt) (hv : v ≠ w) :
    (m.put w c).lookup v = m.lookup v := AList.lookup_insert_ne hv

/-! ## Insertion -/

/-- The slot that an insertion takes is new, or was last written at access `1`. -/
def CleanSlot (h : Client) (w : Kw) : Prop :=
  ∀ i z a : CInt, i.val = (counter h.UpdtCnt w zero).val + 1 →
    h.setupPairs1 (createBid 1 w i) = some (hashText z a) → a = one

/-- Overwriting the only access of a slot, or starting a new one. -/
theorem Holds.first_versions {P B : FMap 24} (hH : Holds P B w g) (hf : g.lat = g.top) {z i0 : CInt}
    (hi : 1 ≤ i0.val) (hacc : i0.val ≤ g.top.val → g.acc i0 = one) :
    Versions (fun a => B.insert (oramBid w i0 g.src one) (intStr z.val) (oramBid w i0 g.src a))
      one one z := by
  have hval : ∀ a, B.insert (oramBid w i0 g.src one) (intStr z.val) (oramBid w i0 g.src a) =
      if a = one then some (intStr z.val) else B (oramBid w i0 g.src a) := fun a => by
    simp [FMap.insert_apply]
  refine ⟨le_refl _, le_refl _, fun a h1 h2 => ⟨z, ?_⟩, ?_, fun h1 => absurd h1 (by decide),
    fun a ha => ?_⟩
  · rw [hval, if_pos (Subtype.ext (le_antisymm h2 h1))]
  · rw [hval, if_pos rfl]
  · rw [hval, if_neg fun e => by rw [e] at ha; exact absurd ha (by decide)]
    by_cases hle : i0.val ≤ g.lat.val
    · refine (hH.versions i0 hi hle).above a ?_
      rw [hacc (hf ▸ hle)]
      exact ha
    · exact hH.fresh i0 a (by omega)

/-- **A setup insertion** files the pair at access `1`. -/
theorem setupInsert_spec (ho : SetupOpened h w g) {z : CInt} (hz : ¬ g.Has z)
    (hlive : g.live.val + 1 < 2 ^ 31) (hclean : CleanSlot h w) :
    ∃ h' i0, setupInsert w z h = .ok () h' ∧ i0.val = g.live.val + 1 ∧
      SetupEntry h' w (g.put z i0 one one) ∧ (∀ v, v ≠ w → SetupSame h h' v) ∧
      Stores h' = Stores h := by
  have hH := ho.holds
  obtain ⟨hU, hS, hA⟩ := ho.counters
  have h1 := hH.live_nonneg
  have hin : InInt (g.live.val + 1) := ⟨by omega, hlive⟩
  have hpos := hH.access_pos
  have hslot : (⟨_, hin⟩ : CInt).val ≤ g.top.val → g.acc ⟨_, hin⟩ = one := fun hle =>
    hclean _ _ _ (by rw [hU]) (hH.slot ⟨_, hin⟩
      (show 1 ≤ g.live.val + 1 by omega) hle)
  have hV := @Holds.first_versions _ _ _ _ hH ho.filed z ⟨_, hin⟩
    (show 1 ≤ g.live.val + 1 by omega) hslot
  have hB : ∀ i s a : CInt, i ≠ ⟨_, hin⟩ ∨ s ≠ g.src →
      h.setupPairs2.insert (oramBid w ⟨_, hin⟩ g.src one) (intStr z.val) (oramBid w i s a) =
        h.setupPairs2 (oramBid w i s a) := by
    intro i s a hne
    refine FMap.insert_of_ne _ fun e => ?_
    obtain ⟨-, e1, e2, -⟩ := oramBid_inj.mp e
    exact hne.elim (fun h => h e1) fun h => h e2
  refine ⟨{ h with
    UpdtCnt := h.UpdtCnt.put w ⟨_, hin⟩
    Access := h.Access.put w g.access
    SrchCnt := h.SrchCnt.put w g.src
    LastIND := h.LastIND.put w z
    setupPairs1 := (h.setupPairs1.insert (createBid 0 w z) (hashText ⟨_, hin⟩ one)).insert
      (createBid 1 w ⟨_, hin⟩) (hashText z one)
    setupPairs2 := h.setupPairs2.insert (oramBid w ⟨_, hin⟩ g.src one) (intStr z.val) }, ⟨_, hin⟩,
    ?_, rfl, ⟨hH.put hz rfl (le_refl _) hV hB, ?_, ?_, ?_, fun _ => ?_, ?_⟩, fun v hv => ?_, rfl⟩
  · have hget : (get : Op Client) h = .ok h h := rfl
    unfold setupInsert
    rw [bind_ok _ hget]
    simp only [hU, hS, hA]
    rw [bind_ok _ (add_ok hin)]
    rfl
  · exact lookup_put _ _
  · exact lookup_put _ _
  · refine (lookup_put _ _).trans ?_
    simp only [Ledger.put, larger]
    rw [if_neg (show ¬ g.access.val < 1 by omega)]
  · simp only [Ledger.put, Function.update_self]
    exact lookup_put _ _
  · simp only [Ledger.put, ho.filed]
  · refine ⟨fun p n => ?_, fun i s a => ?_, lookup_put_ne _ _ hv, lookup_put_ne _ _ hv,
      lookup_put_ne _ _ hv, lookup_put_ne _ _ hv⟩
    · simp [FMap.insert_apply, hv]
    · simp [FMap.insert_apply, hv]

/-! ## Removal -/

theorem readPairs1_run {k : Bid 24} {v : Str} (hk : h.setupPairs1 k = some v) :
    readPairs1 k h = .ok v h := by
  have hsame : h.setupPairs1.insert k v = h.setupPairs1 := by
    rw [FMap.insert, ← hk, Function.update_eq_self]
  have hget : (get : Op Client) h = .ok h h := rfl
  unfold readPairs1
  rw [bind_ok _ hget]
  simp only [find_some hk, hsame]
  rfl

/-- Two tables that agree on every key but `w`. -/
def SameTable (m m' : Table Kw CInt) (w : Kw) : Prop := ∀ v, v ≠ w → m'.lookup v = m.lookup v

/-- The move, when the freed slot is not the last one. -/
theorem setupMoveIf_run (he : SetupEntry h w g) {p live' a : CInt} (hp1 : 1 ≤ p.val)
    (hp : p.val ≤ g.live.val) (hl : live'.val = g.live.val - 1) (ha : InInt (a.val + 1))
    {P : FMap 24} (hP : P = h.setupPairs1.insert (createBid 0 w (g.ind p)) (removedText ⟨_, ha⟩))
    (U : Table Kw CInt) (k : Op Unit) :
    ∃ A S L, (if live'.val + 1 ≠ p.val then setupMoveLast w p a >>= fun _ => k else k)
        { h with setupPairs1 := P, UpdtCnt := U } = k { h with
          setupPairs1 := freePairs h.setupPairs1 w g p ⟨_, ha⟩
          setupPairs2 := freeBoxes h.setupPairs2 w g p ⟨_, ha⟩
          UpdtCnt := U
          Access := A
          SrchCnt := S
          LastIND := L } ∧
      A.lookup w = some (g.free p live' ⟨_, ha⟩).access ∧ S.lookup w = some g.src ∧
      SameTable h.Access A w ∧ SameTable h.SrchCnt S w ∧ SameTable h.LastIND L w := by
  subst hP
  rw [Ledger.free_access]
  by_cases hpl : p = g.live
  · refine ⟨h.Access, h.SrchCnt, h.LastIND, ?_, by rw [if_pos hpl, he.access], he.srch,
      fun _ _ => rfl, fun _ _ => rfl, fun _ _ => rfl⟩
    rw [if_neg (by rw [hpl]; omega), freePairs, freeBoxes, if_pos hpl, if_pos hpl]
  · have hne : p.val ≠ g.live.val := fun e => hpl (Subtype.ext e)
    refine ⟨h.Access.put w (larger g.access ⟨_, ha⟩), h.SrchCnt.put w g.src,
      h.LastIND.put w (g.ind g.live), ?_, by rw [if_neg hpl]; exact lookup_put _ _,
      lookup_put _ _, fun v hv => lookup_put_ne _ _ hv, fun v hv => lookup_put_ne _ _ hv,
      fun v hv => lookup_put_ne _ _ hv⟩
    have hS : counter h.SrchCnt w zero = g.src := by simp [counter, he.srch]
    have hA : counter h.Access w zero = g.access := by simp [counter, he.access]
    have hL : counter h.LastIND w zero = g.ind g.live := by simp [counter, he.last (by omega)]
    rw [if_pos (by omega), freePairs, freeBoxes, if_neg hpl, if_neg hpl]
    refine bind_ok (a := ()) _ ?_
    unfold setupMoveLast
    rw [bind_ok _ (add_ok ha)]
    have hget : ∀ h : Client, (get : Op Client) h = .ok h h := fun _ => rfl
    rw [bind_ok _ (hget _)]
    simp only [hS, hA, hL]
    rfl

/-- **A setup removal** frees the slot of a live pair. -/
theorem setupRemove_spec (he : SetupEntry h w g) {p : CInt} (hp1 : 1 ≤ p.val)
    (hp : p.val ≤ g.live.val) (hacc : g.access.val + 1 < 2 ^ 31) :
    ∃ h' live' a1, setupRemove w (g.ind p) h = .ok () h' ∧ live'.val = g.live.val - 1 ∧
      a1.val = (g.acc p).val + 1 ∧ SetupEntry h' w (g.free p live' a1) ∧
      (∀ v, v ≠ w → SetupSame h h' v) ∧ Stores h' = Stores h := by
  have hH := he.holds
  have hle := hH.live_le
  have hlat := hH.lat_le
  have h2 := hH.acc_le p hp1 (by omega)
  have h1 := hH.acc_pos p hp1 (by omega)
  have hnext : InInt ((g.acc p).val + 1) := ⟨by omega, by omega⟩
  have hdec : InInt (g.live.val + -1) := ⟨by omega, by have := g.live.2.2; omega⟩
  have hlv : (⟨_, hdec⟩ : CInt).val = g.live.val - 1 := by simp only; omega
  have hfree := @Holds.free _ _ _ _ _ _ ⟨_, hnext⟩ hp1 hp hlv hH rfl
  have hget : ∀ h : Client, (get : Op Client) h = .ok h h := fun _ => rfl
  have hmodify : ∀ (f : Client → Client) (h : Client), (modify f : Op Unit) h = .ok () (f h) :=
    fun _ _ => rfl
  have hp0 := hH.pair p hp1 hp
  have hU : counter h.UpdtCnt w zero = g.live := by simp [counter, he.updt]
  have hdone : ∀ A S L : Table Kw CInt,
      A.lookup w = some (g.free p ⟨_, hdec⟩ ⟨_, hnext⟩).access → S.lookup w = some g.src →
      (1 ≤ g.live.val + -1 → L.lookup w =
        some ((g.free p ⟨_, hdec⟩ ⟨_, hnext⟩).ind ⟨_, hdec⟩)) →
      SameTable h.Access A w → SameTable h.SrchCnt S w → SameTable h.LastIND L w →
      ∀ h', h' = { h with
          setupPairs1 := freePairs h.setupPairs1 w g p ⟨_, hnext⟩
          setupPairs2 := freeBoxes h.setupPairs2 w g p ⟨_, hnext⟩
          UpdtCnt := h.UpdtCnt.put w ⟨_, hdec⟩
          Access := A
          SrchCnt := S
          LastIND := L } →
      SetupEntry h' w (g.free p ⟨_, hdec⟩ ⟨_, hnext⟩) ∧ (∀ v, v ≠ w → SetupSame h h' v) ∧
        Stores h' = Stores h := by
    rintro A S L hA hS hL sA sS sL h' rfl
    refine ⟨⟨hfree, ?_, ?_, hA, ?_, ?_⟩, fun v hv => ⟨fun q n => freePairs_frame _ hv q n,
      fun i s a => freeBoxes_frame _ hv i s a, lookup_put_ne _ _ hv, sS v hv, sA v hv, sL v hv⟩, rfl⟩
    · rw [Ledger.free_live]
      exact lookup_put _ _
    · rw [Ledger.free_src]
      exact hS
    · rw [Ledger.free_live]
      exact hL
    · rw [Ledger.free_lat, he.filed]
      unfold Ledger.free
      split <;> rfl
  have hcut : setupRemove w (g.ind p) h = (if g.live.val + -1 > 0 then do
      if (⟨_, hdec⟩ : CInt).val + 1 ≠ p.val then setupMoveLast w p (g.acc p) else pure ()
      let resStr ← readPairs1 (createBid 1 w ⟨_, hdec⟩)
      let lastind ← number (← tokenAt (tokensOn hash resStr) 0)
      modify fun h => { h with LastIND := h.LastIND.put w lastind }
    else modify fun h => { h with LastIND := h.LastIND.del w } : Op Unit) { h with
      setupPairs1 := h.setupPairs1.insert (createBid 0 w (g.ind p)) (removedText ⟨_, hnext⟩)
      UpdtCnt := h.UpdtCnt.put w ⟨_, hdec⟩ } := by
    unfold setupRemove
    rw [bind_ok _ (readPairs1_run hp0)]
    simp only [tokensOn_hashText]
    rw [bind_ok _ (tokenAt_run rfl), bind_ok _ (number_intStr _), if_pos (by omega),
      bind_ok _ (tokenAt_run rfl), bind_ok _ (number_intStr _), bind_ok _ (add_ok hnext),
      bind_ok _ (hget _), hU, bind_ok _ (add_ok hdec), bind_ok _ (hmodify _ _)]
    rfl
  rw [hcut]
  by_cases hpos : g.live.val + -1 > 0
  · rw [if_pos hpos]
    have hslot := hfree.slot ⟨_, hdec⟩ hpos (by
      have h3 := hfree.live_le
      have h4 := hfree.lat_le
      rw [Ledger.free_live] at h3
      exact h3.trans h4)
    obtain ⟨A, S, L, hr, hA, hS, sA, sS, sL⟩ := setupMoveIf_run he hp1 hp hlv hnext rfl
      (h.UpdtCnt.put w ⟨_, hdec⟩) (do
        let resStr ← readPairs1 (createBid 1 w ⟨_, hdec⟩)
        let lastind ← number (← tokenAt (tokensOn hash resStr) 0)
        modify fun h => { h with LastIND := h.LastIND.put w lastind })
    obtain ⟨d1, d2, d3⟩ := hdone A S (L.put w ((g.free p ⟨_, hdec⟩ ⟨_, hnext⟩).ind ⟨_, hdec⟩)) hA hS
      (fun _ => lookup_put _ _) sA sS (fun v hv => (lookup_put_ne _ _ hv).trans (sL v hv)) _ rfl
    refine ⟨_, ⟨_, hdec⟩, ⟨_, hnext⟩, ?_, hlv, rfl, d1, d2, d3⟩
    refine Eq.trans hr ?_
    rw [bind_ok _ (readPairs1_run hslot), tokensOn_hashText, bind_ok _ (tokenAt_run rfl),
      bind_ok _ (number_intStr _)]
    rfl
  · -- the last item goes, and its slot is the first one
    have hpl : p = g.live := Subtype.ext (by omega)
    obtain ⟨d1, d2, d3⟩ := hdone h.Access h.SrchCnt (h.LastIND.del w)
      (by rw [Ledger.free_access, if_pos hpl, he.access]) he.srch (fun h1 => absurd h1 (by omega))
      (fun _ _ => rfl) (fun _ _ => rfl) (fun v hv => AList.lookup_erase_ne hv) _ rfl
    refine ⟨_, ⟨_, hdec⟩, ⟨_, hnext⟩, ?_, hlv, rfl, d1, d2, d3⟩
    rw [if_neg hpos, hmodify, freePairs, freeBoxes, if_pos hpl, if_pos hpl]

/-! ## The end of setup -/

theorem testInserts_apply {m : FMap 24} {k : Bid 24} (hk : k ≠ Bid.ofValue 1) :
    testInserts m k = m k := FMap.foldl_insert_of_ne _ hk _ m

theorem loadCnt_other {type t : Cnt} (m : Table Kw CInt) (pairs : FMap 24)
    (h : t ≠ type ∨ m.lookup w = none) : loadCnt type m pairs (getBid w t) = pairs (getBid w t) := by
  have key : ∀ l : List (Kw × CInt), (∀ e ∈ l, t ≠ type ∨ e.1 ≠ w) → ∀ pairs : FMap 24,
      l.foldl (fun pairs item => pairs.insert (getBid item.1 type) (intStr item.2.val)) pairs
        (getBid w t) = pairs (getBid w t) := by
    intro l
    induction l with
    | nil => exact fun _ _ => rfl
    | cons e l ih =>
      intro hl pairs
      refine (ih (fun d hd => hl d (List.mem_cons_of_mem _ hd)) _).trans
        (FMap.insert_of_ne _ fun he => ?_)
      obtain ⟨e1, e2⟩ := getBid_inj.mp he
      exact (hl e List.mem_cons_self).elim (fun h => h e2) fun h => h e1.symm
  refine key m.pairs (fun e he => h.imp_right fun hn e1 => ?_) pairs
  have : m.lookup w = some e.2 := Table.mem_pairs.mp (e1 ▸ he)
  rw [hn] at this
  cases this

theorem loadCnt_self {type : Cnt} {m : Table Kw CInt} {c : CInt} (pairs : FMap 24)
    (h : m.lookup w = some c) : loadCnt type m pairs (getBid w type) = some (intStr c.val) := by
  have key : ∀ l : List (Kw × CInt), (∀ e ∈ l, e.1 = w → e.2 = c) → ∀ pairs : FMap 24,
      (w, c) ∈ l ∨ pairs (getBid w type) = some (intStr c.val) →
      l.foldl (fun pairs item => pairs.insert (getBid item.1 type) (intStr item.2.val)) pairs
        (getBid w type) = some (intStr c.val) := by
    intro l
    induction l with
    | nil => exact fun _ _ h => h.resolve_left List.not_mem_nil
    | cons e l ih =>
      intro hl pairs hor
      refine ih (fun d hd => hl d (List.mem_cons_of_mem _ hd)) _ ?_
      by_cases he : e.1 = w
      · refine .inr ?_
        show pairs.insert (getBid e.1 type) (intStr e.2.val) (getBid w type) = _
        rw [he, hl e List.mem_cons_self he]
        exact FMap.insert_self _ _ _
      · refine hor.imp (fun hm => (List.mem_cons.mp hm).resolve_left fun e' => he (by rw [← e'])) ?_
        exact fun hp => (FMap.insert_of_ne _ fun e' => he (getBid_inj.mp e').1.symm).trans hp
  refine key m.pairs (fun e he e1 => ?_) pairs (.inl (Table.mem_pairs.mpr h))
  have : m.lookup w = some e.2 := Table.mem_pairs.mp (e1 ▸ he)
  rw [h] at this
  exact (Option.some.inj this).symm

section

variable (hS : Stores h = Stores Client.init)

include hS

theorem endSetup_updt (p : Byte) (n : CInt) :
    (endSetup h).OMAP_updt (createBid p w n) = h.setupPairs1 (createBid p w n) := by
  have h1 : h.OMAP_updt = fun _ => none := congrArg Prod.fst hS
  simp only [endSetup, testInserts_apply (createBid_ne_test p w n), FMap.setupInsert, h1,
    Option.or_none]

theorem endSetup_srch (i s a : CInt) :
    (endSetup h).ORAM_srch (oramBid w i s a) = h.setupPairs2 (oramBid w i s a) := by
  have h1 : h.ORAM_srch = fun _ => none := congrArg (fun x => x.2.2.1) hS
  simp only [endSetup, FMap.setupInsert, h1, Option.or_none]

theorem endSetup_cnts (t : Cnt) : (endSetup h).CNTs (getBid w t) =
    loadCnt .LastIND h.LastIND (loadCnt .Access h.Access (loadCnt .SrchCnt h.SrchCnt
      (loadCnt .UpdtCnt h.UpdtCnt fun _ => none))) (getBid w t) := by
  have h1 : h.CNTs = fun _ => none := congrArg (fun x => x.2.1) hS
  have h2 : h.latestUpdatedCounter = ∅ := congrArg (fun x => x.2.2.2) hS
  simp only [endSetup, testInserts_apply (getBid_ne_test w t), FMap.setupInsert, h1, h2,
    Option.or_none]
  rfl

/-- **`endSetup` hands the ledger over**, without `latestUpdatedCounter`. -/
theorem SetupEntry.endSetup (he : SetupEntry h w g) : Entry (endSetup h) w g false := by
  refine ⟨he.holds.frame (endSetup_updt hS) (endSetup_srch hS), ?_, ?_, ?_, fun h1 => ?_,
    fun e => absurd e (by decide), fun _ => ?_⟩
  all_goals rw [endSetup_cnts hS]
  · rw [loadCnt_other _ _ (.inl (by decide)), loadCnt_other _ _ (.inl (by decide)),
      loadCnt_other _ _ (.inl (by decide)), loadCnt_self _ he.updt]
  · rw [loadCnt_other _ _ (.inl (by decide)), loadCnt_other _ _ (.inl (by decide)),
      loadCnt_self _ he.srch]
  · rw [loadCnt_other _ _ (.inl (by decide)), loadCnt_self _ he.access]
  · rw [loadCnt_self _ (he.last h1)]
  · rw [loadCnt_other _ _ (.inl (by decide)), loadCnt_other _ _ (.inl (by decide)),
      loadCnt_other _ _ (.inl (by decide)), loadCnt_other _ _ (.inl (by decide))]

theorem SetupBlank.endSetup (hb : SetupBlank h w) : Blank (endSetup h) w := by
  refine ⟨fun p n => (endSetup_updt hS p n).trans (hb.pairs1 p n), fun t => ?_,
    fun i s a => (endSetup_srch hS i s a).trans (hb.pairs2 i s a)⟩
  rw [endSetup_cnts hS, loadCnt_other _ _ (.inr hb.last), loadCnt_other _ _ (.inr hb.access),
    loadCnt_other _ _ (.inr hb.srch), loadCnt_other _ _ (.inr hb.updt)]

end

end

end SmallClientSSE.Horus
