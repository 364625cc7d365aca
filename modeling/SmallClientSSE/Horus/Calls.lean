import SmallClientSSE.Horus.Ledger

/-!
# Online calls of Horus

`Entry h w g known`: the stores hold the ledger `g` of `w`, and `CNTs` its
counters; `known` says whether `latestUpdatedCounter` is among them. Each call
has one lemma: it succeeds, it takes the entry to that of the next ledger, and
it leaves the keys of every other keyword alone.
-/

namespace SmallClientSSE.Horus

open Lib Lib.Effect

structure Counters (C : FMap 24) (w : Kw) (g : Ledger) (known : Bool) : Prop where
  updt : C (getBid w .UpdtCnt) = some (intStr g.live.val)
  srch : C (getBid w .SrchCnt) = some (intStr g.src.val)
  access : C (getBid w .Access) = some (intStr g.access.val)
  last : 1 ≤ g.live.val → C (getBid w .LastIND) = some (intStr (g.ind g.live).val)
  latest : known = true → C (getBid w .latestUpdatedCounter) = some (intStr g.lat.val)
  unknown : known = false → C (getBid w .latestUpdatedCounter) = none

structure Entry (h : Client) (w : Kw) (g : Ledger) (known : Bool) : Prop where
  holds : Holds h.OMAP_updt h.ORAM_srch w g
  counters : Counters h.CNTs w g known

/-- Nothing is stored for `w`. -/
structure Blank (h : Client) (w : Kw) : Prop where
  updt : ∀ p n, h.OMAP_updt (createBid p w n) = none
  cnts : ∀ t, h.CNTs (getBid w t) = none
  srch : ∀ i s a, h.ORAM_srch (oramBid w i s a) = none

structure Same (h h' : Client) (w : Kw) : Prop where
  updt : ∀ p n, h'.OMAP_updt (createBid p w n) = h.OMAP_updt (createBid p w n)
  cnts : ∀ t, h'.CNTs (getBid w t) = h.CNTs (getBid w t)
  srch : ∀ i s a, h'.ORAM_srch (oramBid w i s a) = h.ORAM_srch (oramBid w i s a)

def Grows (h h' : Client) (w : Kw) : Prop :=
  ∀ z, (h.OMAP_updt (createBid 0 w z)).isSome → (h'.OMAP_updt (createBid 0 w z)).isSome

variable {h h' : Client} {w : Kw} {g : Ledger} {known : Bool}

theorem Entry.frame (he : Entry h w g known) (hs : Same h h' w) : Entry h' w g known := by
  refine ⟨he.holds.frame hs.updt hs.srch, ?_⟩
  obtain ⟨h1, h2, h3, h4, h5, h6⟩ := he.counters
  refine ⟨?_, ?_, ?_, ?_, ?_, ?_⟩
  all_goals rw [hs.cnts]
  assumption'

theorem Blank.frame (hb : Blank h w) (hs : Same h h' w) : Blank h' w :=
  ⟨fun p n => (hs.updt p n).trans (hb.updt p n), fun t => (hs.cnts t).trans (hb.cnts t),
    fun i s a => (hs.srch i s a).trans (hb.srch i s a)⟩

theorem Same.symm (hs : Same h h' w) : Same h' h w :=
  ⟨fun p n => (hs.updt p n).symm, fun t => (hs.cnts t).symm, fun i s a => (hs.srch i s a).symm⟩

theorem Same.trans {h1 h2 h3 : Client} (a : Same h1 h2 w) (b : Same h2 h3 w) : Same h1 h3 w :=
  ⟨fun p n => (b.updt p n).trans (a.updt p n), fun t => (b.cnts t).trans (a.cnts t),
    fun i s c => (b.srch i s c).trans (a.srch i s c)⟩

theorem isSome_insert (m : FMap 24) (k : Bid 24) (v : Str) {j : Bid 24} (hj : (m j).isSome) :
    (m.insert k v j).isSome := by
  rw [FMap.insert_apply]
  split
  · rfl
  · exact hj

/-! ## Effects on the stores -/

theorem findUpdt_run (k : Bid 24) : findUpdt k h = .ok (h.OMAP_updt.find k) h := rfl

theorem findCnt_run (k : Bid 24) : findCnt k h = .ok (h.CNTs.find k) h := rfl

theorem insertUpdt_run (k : Bid 24) (v : Str) :
    insertUpdt k v h = .ok () { h with OMAP_updt := h.OMAP_updt.insert k v } := rfl

theorem insertCnt_run (k : Bid 24) (v : Str) :
    insertCnt k v h = .ok () { h with CNTs := h.CNTs.insert k v } := rfl

theorem writeBox_run (k : Bid 24) (v : Str) :
    writeBox k v h = .ok () { h with ORAM_srch := h.ORAM_srch.insert k v } := rfl

theorem tokenAt_run {tokens : List Str} {i : Nat} {t : Str} (ht : tokens[i]? = some t) :
    tokenAt tokens i h = .ok t h := by
  rw [tokenAt, ht]
  rfl

theorem find_some {m : FMap 24} {k : Bid 24} {v : Str} (hk : m k = some v) : m.find k = v := by
  simp [FMap.find, hk]

theorem find_none {m : FMap 24} {k : Bid 24} (hk : m k = none) : m.find k = [] := by
  simp [FMap.find, hk]

theorem number_find {k : Bid 24} {z : CInt} (hk : h.CNTs k = some (intStr z.val)) :
    number (h.CNTs.find k) h = .ok z h := by
  rw [find_some hk, number_intStr]

theorem changeCnt_run {key : Bid 24} {c : CInt} {k : Int} (hk : h.CNTs key = some (intStr c.val))
    (hz : InInt (c.val + k)) : changeCnt key k h =
      .ok (intStr c.val) { h with CNTs := h.CNTs.insert key (intStr (c.val + k)) } := by
  have hget : (get : Op Client) h = .ok h h := rfl
  rw [changeCnt, bind_ok _ hget, hk]
  simp only
  rw [bind_ok _ (number_intStr c), bind_ok _ (add_ok hz), bind_ok _ (insertCnt_run _ _)]
  rfl

theorem changeCnt_overflow {key : Bid 24} {c : CInt} {k : Int}
    (hk : h.CNTs key = some (intStr c.val)) (hz : ¬ InInt (c.val + k)) :
    changeCnt key k h = .error .overflow h := by
  have hget : (get : Op Client) h = .ok h h := rfl
  rw [changeCnt, bind_ok _ hget, hk]
  simp only
  rw [bind_ok _ (number_intStr c), bind_error _ (add_overflow hz)]

theorem changeCnt_absent {key : Bid 24} {k : Int} (hk : h.CNTs key = none) :
    changeCnt key k h = .ok [] h := by
  have hget : (get : Op Client) h = .ok h h := rfl
  rw [changeCnt, bind_ok _ hget, hk]
  rfl

/-! ## Insertion -/

/-- An insertion may start: the entry is complete, or there is none yet. -/
def Opened (h : Client) (w : Kw) (g : Ledger) : Prop :=
  Entry h w g true ∨ (Blank h w ∧ g = Ledger.blank)

theorem Opened.holds (ho : Opened h w g) : Holds h.OMAP_updt h.ORAM_srch w g := by
  rcases ho with he | ⟨hb, rfl⟩
  · exact he.holds
  · exact holds_blank hb.updt hb.srch

/-- `CNTs` changed at counters of `w` only, and not at `ts`. -/
def CntFrame (C C' : FMap 24) (w : Kw) (ts : List Cnt) : Prop :=
  ∀ v t, v ≠ w ∨ t ∈ ts → C' (getBid v t) = C (getBid v t)

theorem insertCounters_run (ho : Opened h w g) (hl : g.live.val + 1 < 2 ^ 31) :
    ∃ C, insertCounters w h = .ok (g.live, g.src, g.lat) { h with CNTs := C } ∧
      C (getBid w .UpdtCnt) = some (intStr (g.live.val + 1)) ∧
      C (getBid w .SrchCnt) = some (intStr g.src.val) ∧
      C (getBid w .latestUpdatedCounter) = some (intStr g.lat.val) ∧
      CntFrame h.CNTs C w [.Access, .LastIND] := by
  rcases ho with he | ⟨hb, rfl⟩
  · obtain ⟨h1, h2, h3, h4, h5, -⟩ := he.counters
    have hin : InInt (g.live.val + 1) := ⟨by have := he.holds.live_nonneg; omega, hl⟩
    have hne : intStr g.live.val ≠ [] := intStr_ne_nil _
    refine ⟨h.CNTs.insert (getBid w .UpdtCnt) (intStr (g.live.val + 1)), ?_, ?_, ?_, ?_, ?_⟩
    · unfold insertCounters
      rw [bind_ok _ (changeCnt_run h1 hin), if_neg hne, bind_ok _ (number_intStr _),
        bind_ok _ (findCnt_run _), bind_ok _ (number_find (z := g.src) (by
          simpa [FMap.insert_apply] using h2)),
        bind_ok _ (findCnt_run _), bind_ok _ (number_find (z := g.lat) (by
          simpa [FMap.insert_apply] using h5 rfl))]
      rfl
    · simp [FMap.insert_apply]
    · simpa [FMap.insert_apply] using h2
    · simpa [FMap.insert_apply] using h5 rfl
    · rintro v t (hv | ht)
      · simp [FMap.insert_apply, hv]
      · rcases List.mem_pair.mp ht with rfl | rfl <;> simp [FMap.insert_apply]
  · refine ⟨((h.CNTs.insert (getBid w .UpdtCnt) (intStr 1)).insert
      (getBid w .latestUpdatedCounter) (intStr 0)).insert (getBid w .SrchCnt) (intStr 0),
      ?_, ?_, ?_, ?_, ?_⟩
    · unfold insertCounters
      rw [bind_ok _ (changeCnt_absent (hb.cnts _)), if_pos rfl, bind_ok _ (insertCnt_run _ _),
        bind_ok _ (insertCnt_run _ _), bind_ok _ (insertCnt_run _ _)]
      rfl
    · simp [FMap.insert_apply, Ledger.blank]
    · simp [FMap.insert_apply, Ledger.blank]
    · simp [FMap.insert_apply, Ledger.blank]
    · rintro v t (hv | ht)
      · simp [FMap.insert_apply, hv]
      · rcases List.mem_pair.mp ht with rfl | rfl <;> simp [FMap.insert_apply]

theorem accessCounter_run {C : FMap 24} (ho : Opened h w g)
    (hC : C (getBid w .Access) = h.CNTs (getBid w .Access)) :
    ∃ C', accessCounter w { h with CNTs := C } = .ok g.access { h with CNTs := C' } ∧
      C' (getBid w .Access) = some (intStr g.access.val) ∧
      ∀ v t, v ≠ w ∨ t ≠ .Access → C' (getBid v t) = C (getBid v t) := by
  unfold accessCounter
  rcases ho with he | ⟨hb, rfl⟩
  · have h3 := hC.trans he.counters.access
    refine ⟨C, ?_, h3, fun _ _ _ => rfl⟩
    rw [bind_ok _ (findCnt_run _)]
    simp only [find_some h3]
    rw [if_neg (intStr_ne_nil _), number_intStr]
  · have h3 := hC.trans (hb.cnts .Access)
    refine ⟨C.insert (getBid w .Access) (intStr 1), ?_, ?_, ?_⟩
    · rw [bind_ok _ (findCnt_run _)]
      simp only [find_none h3, if_true]
      rw [bind_ok _ (insertCnt_run _ _)]
      rfl
    · simp [FMap.insert_apply, Ledger.blank]
    · rintro v t (hv | ht)
      · simp [FMap.insert_apply, hv]
      · simp [FMap.insert_apply, ht]

theorem raiseAccess_run (a b : CInt) (hC : h.CNTs (getBid w .Access) = some (intStr a.val)) :
    ∃ C, raiseAccess w a b h = .ok () { h with CNTs := C } ∧
      C (getBid w .Access) = some (intStr (larger a b).val) ∧
      ∀ v t, v ≠ w ∨ t ≠ .Access → C (getBid v t) = h.CNTs (getBid v t) := by
  unfold raiseAccess larger
  by_cases hlt : a < b
  · refine ⟨h.CNTs.insert (getBid w .Access) (intStr b.val), by rw [if_pos hlt, insertCnt_run],
      ?_, ?_⟩
    · rw [if_pos (Subtype.coe_lt_coe.mpr hlt)]
      simp [FMap.insert_apply]
    · rintro v t (hv | ht)
      · simp [FMap.insert_apply, hv]
      · simp [FMap.insert_apply, ht]
  · refine ⟨h.CNTs, by rw [if_neg hlt]; rfl, ?_, fun _ _ _ => rfl⟩
    rw [if_neg fun e => hlt (Subtype.coe_lt_coe.mp e)]
    exact hC

/-- The access number of an item filed in slot `i0`. -/
theorem nextAccess_run (hH : Holds h.OMAP_updt h.ORAM_srch w g) (hacc : g.access.val + 1 < 2 ^ 31)
    (hC : h.CNTs (getBid w .Access) = some (intStr g.access.val)) (i0 : CInt) (hi : 1 ≤ i0.val) :
    ∃ (a0 : CInt) (C : FMap 24), nextAccess w i0 g.access h = .ok a0 { h with CNTs := C } ∧
      1 ≤ a0.val ∧ a0.val ≤ g.access.val + 1 ∧
      (i0.val ≤ g.top.val → a0.val = (g.acc i0).val + 1) ∧ (g.top.val < i0.val → a0 = one) ∧
      C (getBid w .Access) = some (intStr (larger g.access a0).val) ∧
      ∀ v t, v ≠ w ∨ t ≠ .Access → C (getBid v t) = h.CNTs (getBid v t) := by
  unfold nextAccess
  have hpos := hH.access_pos
  by_cases ht : i0.val ≤ g.top.val
  · have hslot := hH.slot i0 hi ht
    have h1 := hH.acc_pos i0 hi ht
    have h2 := hH.acc_le i0 hi ht
    have hin : InInt ((g.acc i0).val + 1) := ⟨by omega, by omega⟩
    obtain ⟨C, hrun, hC1, hC2⟩ := raiseAccess_run g.access ⟨_, hin⟩ hC
    refine ⟨⟨_, hin⟩, C, ?_, by simp only; omega, by simp only; omega, fun _ => rfl,
      fun e => absurd ht e.not_ge, hC1, hC2⟩
    rw [bind_ok _ (findUpdt_run _)]
    simp only [find_some hslot, if_neg (hashText_ne_nil _ _), tokensOn_hashText]
    rw [bind_ok _ (tokenAt_run rfl), bind_ok _ (number_intStr _), bind_ok _ (add_ok hin),
      bind_ok _ hrun]
    rfl
  · have hslot := hH.unused i0 (by omega)
    refine ⟨one, h.CNTs, ?_, le_refl _, by simp only; omega, fun e => absurd e ht, fun _ => rfl, ?_,
      fun _ _ _ => rfl⟩
    · rw [bind_ok _ (findUpdt_run _)]
      simp only [find_none hslot, if_true]
      rfl
    · rw [hC, larger, if_neg]
      simp only
      omega

theorem countNew_run (i0 a0 : CInt) (hl : g.lat.val + 1 < 2 ^ 31) (hl0 : 0 ≤ g.lat.val)
    (hC : h.CNTs (getBid w .latestUpdatedCounter) = some (intStr g.lat.val)) :
    ∃ C B, countNew w i0 g.src a0 g.lat h = .ok () { h with CNTs := C, ORAM_srch := B } ∧
      C (getBid w .latestUpdatedCounter) =
        some (intStr (if g.lat.val < i0.val then g.lat.val + 1 else g.lat.val)) ∧
      (∀ v t, v ≠ w ∨ t ≠ .latestUpdatedCounter → C (getBid v t) = h.CNTs (getBid v t)) ∧
      B = if g.lat.val < i0.val ∧ 1 < a0.val
        then h.ORAM_srch.insert (oramBid w i0 g.src one) (marker a0) else h.ORAM_srch := by
  unfold countNew
  have hin : InInt (g.lat.val + 1) := ⟨by omega, hl⟩
  by_cases hlt : g.lat.val < i0.val
  · rw [if_pos (Subtype.coe_lt_coe.mp hlt), bind_ok _ (add_ok hin), bind_ok _ (insertCnt_run _ _)]
    have hC' : ∀ v t, v ≠ w ∨ t ≠ Cnt.latestUpdatedCounter →
        h.CNTs.insert (getBid w .latestUpdatedCounter) (intStr (g.lat.val + 1)) (getBid v t) =
          h.CNTs (getBid v t) := by
      rintro v t (hv | ht)
      · simp [FMap.insert_apply, hv]
      · simp [FMap.insert_apply, ht]
    by_cases ha : 1 < a0.val
    · refine ⟨h.CNTs.insert (getBid w .latestUpdatedCounter) (intStr (g.lat.val + 1)),
        h.ORAM_srch.insert (oramBid w i0 g.src one) (marker a0), by rw [if_pos ha, writeBox_run],
        ?_, hC', ?_⟩
      · simp [FMap.insert_apply, hlt]
      · rw [if_pos ⟨hlt, ha⟩]
    · refine ⟨h.CNTs.insert (getBid w .latestUpdatedCounter) (intStr (g.lat.val + 1)), h.ORAM_srch,
        by rw [if_neg ha]; rfl, ?_, hC', ?_⟩
      · simp [FMap.insert_apply, hlt]
      · rw [if_neg fun e => ha e.2]
  · refine ⟨h.CNTs, h.ORAM_srch, by rw [if_neg fun e => hlt (Subtype.coe_lt_coe.mpr e)]; rfl, ?_,
      fun _ _ _ => rfl, ?_⟩
    · rw [if_neg hlt, hC]
    · rw [if_neg fun e => hlt e.1]

def filed (B : FMap 24) (w : Kw) (g : Ledger) (z i0 a0 : CInt) : FMap 24 :=
  let B := B.insert (oramBid w i0 g.src a0) (intStr z.val)
  if g.lat.val < i0.val ∧ 1 < a0.val then B.insert (oramBid w i0 g.src one) (marker a0) else B

theorem filed_frame (B : FMap 24) {z i0 a0 : CInt} {v : Kw} {i s : CInt} (a : CInt)
    (hne : v ≠ w ∨ i ≠ i0 ∨ s ≠ g.src) : filed B w g z i0 a0 (oramBid v i s a) =
      B (oramBid v i s a) := by
  have h1 : ∀ c, oramBid v i s a ≠ oramBid w i0 g.src c := fun c e => by
    obtain ⟨e1, e2, e3, -⟩ := oramBid_inj.mp e
    rcases hne with hne | hne | hne
    exacts [hne e1, hne e2, hne e3]
  unfold filed
  split
  · rw [FMap.insert_of_ne _ (h1 _), FMap.insert_of_ne _ (h1 _)]
  · rw [FMap.insert_of_ne _ (h1 _)]

/-- The accesses of the slot of an insertion: one more, or the first since the
last search. -/
theorem Holds.filed_versions {P B : FMap 24} (hH : Holds P B w g) {z i0 a0 : CInt}
    (hi : 1 ≤ i0.val) (ha : 1 ≤ a0.val) (hacc : i0.val ≤ g.top.val → a0.val = (g.acc i0).val + 1) :
    Versions (fun a => filed B w g z i0 a0 (oramBid w i0 g.src a))
      (if g.lat.val < i0.val then a0 else g.st i0) a0 z := by
  have hlat := hH.lat_le
  by_cases hlt : g.lat.val < i0.val
  · rw [if_pos hlt]
    refine Versions.single ha fun a => ?_
    have hfresh := hH.fresh i0 a hlt
    by_cases ha1 : 1 < a0.val
    · have hne : one ≠ a0 := fun e => by rw [← e] at ha1; exact absurd ha1 (by decide)
      simp only [filed, hlt, ha1, and_self, if_true, FMap.insert_apply, oramBid_inj, true_and,
        and_true, hfresh]
      by_cases hao : a = one
      · rw [if_pos hao, if_neg fun e => hne (hao ▸ e), if_pos hao]
      · rw [if_neg hao, if_neg hao]
    · simp only [filed, ha1, and_false, if_false, FMap.insert_apply, oramBid_inj, true_and, hfresh]
  · rw [if_neg hlt]
    refine (hH.versions i0 hi (by omega)).extend (hacc (by omega)) fun a => ?_
    simp [filed, hlt, FMap.insert_apply]

theorem Holds.dead_find {P B : FMap 24} (hH : Holds P B w g) {z : CInt} (hz : ¬ g.Has z) :
    P.find (createBid 0 w z) = [] ∨
      (tokensOn hash (P.find (createBid 0 w z)))[0]? = some minusOne := by
  rcases hH.dead z hz with hd | ⟨k, hd⟩
  · exact .inl (find_none hd)
  · refine .inr ?_
    rw [find_some hd, removedText, tokensOn_removed]
    rfl

/-- **Inserting a pair that is not live** files it in the next slot. -/
theorem insert_spec (ho : Opened h w g) {z : CInt} (hz : ¬ g.Has z)
    (hlat : g.lat.val + 1 < 2 ^ 31) (hacc : g.access.val + 1 < 2 ^ 31) :
    ∃ h' i0 a0 s0, insert w z h = .ok () h' ∧ i0.val = g.live.val + 1 ∧
      g.Next i0 a0 ∧ Entry h' w (g.put z i0 a0 s0) true ∧ Grows h h' w ∧
      ∀ v, v ≠ w → Same h h' v := by
  have hH := ho.holds
  have h1 := hH.live_nonneg
  have h2 := hH.live_le
  obtain ⟨C1, hr1, hU1, hS1, hL1, hF1⟩ := insertCounters_run ho (by omega)
  obtain ⟨C2, hr2, hA2, hF2⟩ := accessCounter_run ho (hF1 w .Access (.inr (by simp)))
  have hin : InInt (g.live.val + 1) := ⟨by omega, by omega⟩
  obtain ⟨a0, C3, hr3, ha1, hale, hastep, hafirst, hA3, hF3⟩ := nextAccess_run
    (h := { h with CNTs := C2 }) hH hacc hA2 ⟨_, hin⟩ (by simp only; omega)
  generalize hi0 : (⟨_, hin⟩ : CInt) = i0 at hr3 hastep hafirst
  have hnext : g.Next i0 a0 := by
    rcases le_or_gt i0.val g.top.val with htop | htop
    · exact .inr ⟨htop, hastep htop⟩
    · exact .inl (hafirst htop)
  have hi0v : i0.val = g.live.val + 1 := by rw [← hi0]
  have hother : ∀ t, t ≠ .Access → C3 (getBid w t) = C1 (getBid w t) := fun t ht => by
    rw [hF3 _ _ (.inr ht)]
    exact hF2 _ _ (.inr ht)
  obtain ⟨C5, B, hr5, hL5, hF5, hB⟩ := countNew_run (w := w) (g := g)
    (h := { h with
      CNTs := C3
      OMAP_updt := (h.OMAP_updt.insert (createBid 0 w z) (hashText i0 a0)).insert (createBid 1 w i0)
        (hashText z a0)
      ORAM_srch := h.ORAM_srch.insert (oramBid w i0 g.src a0) (intStr z.val) })
    i0 a0 hlat (by omega) ((hother _ (by decide)).trans hL1)
  replace hB : B = filed h.ORAM_srch w g z i0 a0 := by
    rw [hB, filed]
  have hH' := @Holds.put _ _ B _ _ hH z i0 a0 (if g.lat.val < i0.val then a0 else g.st i0) hz hi0v ha1
    (hB ▸ hH.filed_versions (by omega) ha1 hastep) fun i s a hne => by
      rw [hB]
      exact filed_frame _ a (.inr hne)
  refine ⟨{ h with
      OMAP_updt := (h.OMAP_updt.insert (createBid 0 w z) (hashText i0 a0)).insert (createBid 1 w i0)
        (hashText z a0)
      CNTs := C5.insert (getBid w .LastIND) (intStr z.val)
      ORAM_srch := B }, i0, a0, _, ?_, hi0v, hnext, ⟨hH', ?_⟩,
    fun y hy => isSome_insert (h.OMAP_updt.insert (createBid 0 w z) (hashText i0 a0))
      (createBid 1 w i0) (hashText z a0) (isSome_insert _ _ _ hy), ?_⟩
  · unfold insert
    rw [bind_ok _ (findUpdt_run _), if_pos (hH.dead_find hz), bind_ok _ hr1]
    simp only
    rw [bind_ok _ hr2, bind_ok _ (add_ok hin), hi0, bind_ok _ hr3, bind_ok _ (insertUpdt_run _ _),
      bind_ok _ (insertUpdt_run _ _), bind_ok _ (writeBox_run _ _), bind_ok _ hr5]
    rfl
  · have hput : ∀ t, t ≠ .LastIND →
        C5.insert (getBid w .LastIND) (intStr z.val) (getBid w t) = C5 (getBid w t) :=
      fun t ht => FMap.insert_of_ne _ fun e => ht (getBid_inj.mp e).2
    have hold : ∀ t, t ≠ .LastIND → t ≠ .latestUpdatedCounter →
        C5.insert (getBid w .LastIND) (intStr z.val) (getBid w t) = C3 (getBid w t) :=
      fun t ht1 ht2 => (hput t ht1).trans (hF5 _ _ (.inr ht2))
    have hmax := larger_val g.lat i0
    refine ⟨(hold _ (by decide) (by decide)).trans ?_, (hold _ (by decide) (by decide)).trans ?_,
      (hold _ (by decide) (by decide)).trans hA3, fun _ => ?_,
      fun _ => (hput _ (by decide)).trans ?_, fun e => absurd e (by decide)⟩
    · rw [hother _ (by decide), hU1]
      simp only [Ledger.put, hi0v]
    · rw [hother _ (by decide), hS1]
      rfl
    · simp [FMap.insert_self, Ledger.put]
    · rw [hL5]
      simp only [Ledger.put, Option.some.injEq]
      congr 1
      split <;> omega
  · intro v hv
    refine ⟨fun p n => ?_, fun t => ?_, fun i s a => ?_⟩
    · simp [FMap.insert_apply, hv]
    · refine (FMap.insert_of_ne _ fun e => hv (getBid_inj.mp e).1).trans
        ((hF5 _ _ (.inl hv)).trans ?_)
      exact (hF3 _ _ (.inl hv)).trans ((hF2 _ _ (.inl hv)).trans (hF1 _ _ (.inl hv)))
    · simp only [hB]
      exact filed_frame _ a (.inl hv)

theorem Holds.live_find {P B : FMap 24} (hH : Holds P B w g) {z : CInt} (hz : g.Has z) :
    ¬ (P.find (createBid 0 w z) = [] ∨
      (tokensOn hash (P.find (createBid 0 w z)))[0]? = some minusOne) := by
  obtain ⟨i, h1, h2, rfl⟩ := hz
  simp only [find_some (hH.pair i h1 h2), tokensOn_hashText, hashText_ne_nil, false_or]
  intro e
  exact intStr_ne_minusOne (a := i.val) (by omega) (Option.some.inj e)

/-- **Inserting a live pair** changes nothing. -/
theorem insert_live {B : FMap 24} (hH : Holds h.OMAP_updt B w g) {z : CInt} (hz : g.Has z) :
    insert w z h = .ok () h := by
  unfold insert
  rw [bind_ok _ (findUpdt_run _), if_neg (hH.live_find hz)]
  rfl

/-! ## Removal -/

theorem moveLast_run {p a : CInt} (ha : InInt (a.val + 1))
    (hC : h.CNTs (getBid w .Access) = some (intStr g.access.val)) :
    ∃ C, moveLast w p a g.src (g.ind g.live) h = .ok () { h with
        OMAP_updt := (h.OMAP_updt.insert (createBid 0 w (g.ind g.live)) (hashText p ⟨_, ha⟩)).insert
          (createBid 1 w p) (hashText (g.ind g.live) ⟨_, ha⟩)
        CNTs := C
        ORAM_srch := h.ORAM_srch.insert (oramBid w p g.src ⟨_, ha⟩) (intStr (g.ind g.live).val) } ∧
      C (getBid w .Access) = some (intStr (larger g.access ⟨_, ha⟩).val) ∧
      ∀ v t, v ≠ w ∨ t ≠ .Access → C (getBid v t) = h.CNTs (getBid v t) := by
  obtain ⟨C, hr, hA, hF⟩ := raiseAccess_run g.access ⟨_, ha⟩ hC
  refine ⟨C, ?_, hA, hF⟩
  unfold moveLast
  rw [bind_ok _ (add_ok ha), bind_ok _ (findCnt_run _), bind_ok _ (number_find hC), bind_ok _ hr,
    bind_ok _ (writeBox_run _ _), bind_ok _ (insertUpdt_run _ _), insertUpdt_run]

/-- The move, when the freed slot is not the last one. -/
theorem moveIf_run {p live' a : CInt} (hl : live'.val = g.live.val - 1) (ha : InInt (a.val + 1))
    {P : FMap 24} (hP : P = h.OMAP_updt.insert (createBid 0 w (g.ind p)) (removedText ⟨_, ha⟩))
    {C : FMap 24} (hC : C (getBid w .Access) = some (intStr g.access.val)) (k : Op Unit) :
    ∃ C', (if live'.val + 1 ≠ p.val then moveLast w p a g.src (g.ind g.live) >>= fun _ => k else k)
        { h with OMAP_updt := P, CNTs := C } = k { h with
          OMAP_updt := freePairs h.OMAP_updt w g p ⟨_, ha⟩
          CNTs := C'
          ORAM_srch := freeBoxes h.ORAM_srch w g p ⟨_, ha⟩ } ∧
      C' (getBid w .Access) = some (intStr (g.free p live' ⟨_, ha⟩).access.val) ∧
      ∀ v t, v ≠ w ∨ t ≠ .Access → C' (getBid v t) = C (getBid v t) := by
  subst hP
  rw [Ledger.free_access]
  by_cases hpl : p = g.live
  · refine ⟨C, ?_, by rw [if_pos hpl, hC], fun _ _ _ => rfl⟩
    rw [if_neg (by rw [hpl]; omega), freePairs, freeBoxes, if_pos hpl, if_pos hpl]
  · have : p.val ≠ g.live.val := fun e => hpl (Subtype.ext e)
    obtain ⟨C', hr, hA, hF⟩ := moveLast_run (h := { h with
      OMAP_updt := h.OMAP_updt.insert (createBid 0 w (g.ind p)) (removedText ⟨_, ha⟩), CNTs := C })
      (p := p) ha hC
    refine ⟨C', ?_, by rw [if_neg hpl, hA], hF⟩
    rw [if_pos (by omega), bind_ok _ hr, freePairs, freeBoxes, if_neg hpl, if_neg hpl]

theorem isSome_freePairs {P : FMap 24} {p a1 : CInt} {k : Bid 24} (hk : (P k).isSome) :
    (freePairs P w g p a1 k).isSome := by
  unfold freePairs
  split
  · exact isSome_insert _ _ _ hk
  · exact isSome_insert _ _ _ (isSome_insert _ _ _ (isSome_insert _ _ _ hk))

/-- **Removing a live pair** frees its slot. -/
theorem remove_spec (he : Entry h w g known) {p : CInt} (hp1 : 1 ≤ p.val)
    (hp : p.val ≤ g.live.val) (hacc : g.access.val + 1 < 2 ^ 31) :
    ∃ h' live' a1, remove w (g.ind p) h = .ok () h' ∧ live'.val = g.live.val - 1 ∧
      a1.val = (g.acc p).val + 1 ∧ Entry h' w (g.free p live' a1) known ∧ Grows h h' w ∧
      ∀ v, v ≠ w → Same h h' v := by
  have hH := he.holds
  obtain ⟨hU, hS, hA, hLast, hLat, hUnk⟩ := he.counters
  have hle := hH.live_le
  have hlat := hH.lat_le
  have h1 := hH.acc_pos p hp1 (by omega)
  have h2 := hH.acc_le p hp1 (by omega)
  have hnext : InInt ((g.acc p).val + 1) := ⟨by omega, by omega⟩
  have hlive := g.live.2
  have hdec : InInt (g.live.val + -1) := ⟨by omega, by have := hlive.2; omega⟩
  have hlv : (⟨_, hdec⟩ : CInt).val = g.live.val - 1 := by simp only; omega
  have hfree := @Holds.free _ _ _ _ _ _ ⟨_, hnext⟩ hp1 hp hlv hH rfl
  have hcut : ∀ t, t ≠ .UpdtCnt → h.CNTs.insert (getBid w .UpdtCnt) (intStr (g.live.val + -1))
      (getBid w t) = h.CNTs (getBid w t) := fun t ht =>
    FMap.insert_of_ne _ fun e => ht (getBid_inj.mp e).2
  have hcnt : ∀ C' : FMap 24, (∀ v t, v ≠ w ∨ (t ≠ .Access ∧ t ≠ .LastIND) → C' (getBid v t) =
        h.CNTs.insert (getBid w .UpdtCnt) (intStr (g.live.val + -1)) (getBid v t)) →
      C' (getBid w .Access) = some (intStr (g.free p ⟨_, hdec⟩ ⟨_, hnext⟩).access.val) →
      (1 ≤ g.live.val + -1 → C' (getBid w .LastIND) =
        some (intStr ((g.free p ⟨_, hdec⟩ ⟨_, hnext⟩).ind ⟨_, hdec⟩).val)) →
      Entry { h with
          OMAP_updt := freePairs h.OMAP_updt w g p ⟨_, hnext⟩
          CNTs := C'
          ORAM_srch := freeBoxes h.ORAM_srch w g p ⟨_, hnext⟩ } w
          (g.free p ⟨_, hdec⟩ ⟨_, hnext⟩) known ∧
        Grows h { h with
          OMAP_updt := freePairs h.OMAP_updt w g p ⟨_, hnext⟩
          CNTs := C'
          ORAM_srch := freeBoxes h.ORAM_srch w g p ⟨_, hnext⟩ } w ∧
        ∀ v, v ≠ w → Same h { h with
          OMAP_updt := freePairs h.OMAP_updt w g p ⟨_, hnext⟩
          CNTs := C'
          ORAM_srch := freeBoxes h.ORAM_srch w g p ⟨_, hnext⟩ } v := by
    intro C' hC' hCA hCL
    refine ⟨⟨hfree, ⟨?_, ?_, hCA, ?_, ?_, ?_⟩⟩, fun y hy => isSome_freePairs hy,
      fun v hv => ⟨fun q n => ?_, fun t => ?_, fun i s a => ?_⟩⟩
    · rw [Ledger.free_live]
      exact (hC' w _ (.inr (by decide))).trans (FMap.insert_self _ _ _)
    · rw [Ledger.free_src]
      exact (hC' w _ (.inr (by decide))).trans ((hcut _ (by decide)).trans hS)
    · rw [Ledger.free_live]
      exact hCL
    · rw [Ledger.free_lat]
      exact fun hk => (hC' w _ (.inr (by decide))).trans ((hcut _ (by decide)).trans (hLat hk))
    · exact fun hk => (hC' w _ (.inr (by decide))).trans ((hcut _ (by decide)).trans (hUnk hk))
    · exact freePairs_frame _ hv q n
    · exact (hC' v t (.inl hv)).trans (FMap.insert_of_ne _ fun e => hv (getBid_inj.mp e).1)
    · exact freeBoxes_frame _ hv i s a
  have hp0 := hH.pair p hp1 hp
  have hcount := changeCnt_run (h := { h with
    OMAP_updt := h.OMAP_updt.insert (createBid 0 w (g.ind p))
      (minusOne ++ hash :: intStr (⟨_, hnext⟩ : CInt).val) }) hU hdec
  by_cases hpos : 0 < g.live.val + -1
  · have hslot := hfree.slot ⟨_, hdec⟩ hpos (by
      have h3 := hfree.live_le
      have h4 := hfree.lat_le
      rw [Ledger.free_live] at h3
      exact h3.trans h4)
    have hL := hLast (by omega)
    obtain ⟨C, hr, hA', hF⟩ := moveIf_run (h := h) (w := w) (g := g) (p := p) hlv hnext
      (P := h.OMAP_updt.insert (createBid 0 w (g.ind p))
        (minusOne ++ hash :: intStr (⟨_, hnext⟩ : CInt).val)) rfl
      ((hcut _ (by decide)).trans hA) (do
        let resStr ← findUpdt (createBid 1 w ⟨_, hdec⟩)
        let lastind ← number (← tokenAt (tokensOn hash resStr) 0)
        insertCnt (getBid w .LastIND) (intStr lastind.val))
    refine ⟨_, ⟨_, hdec⟩, ⟨_, hnext⟩, ?_, hlv, rfl, hcnt (C.insert (getBid w .LastIND)
      (intStr ((g.free p ⟨_, hdec⟩ ⟨_, hnext⟩).ind ⟨_, hdec⟩).val)) ?_ ?_ ?_⟩
    · unfold remove
      rw [bind_ok _ (findUpdt_run _)]
      simp only [find_some hp0, tokensOn_hashText]
      rw [bind_ok _ (tokenAt_run rfl), bind_ok _ (number_intStr _), if_pos (by omega),
        bind_ok _ (tokenAt_run rfl), bind_ok _ (number_intStr _), bind_ok _ (add_ok hnext),
        bind_ok _ (insertUpdt_run _ _), bind_ok _ hcount, bind_ok _ (number_intStr _),
        bind_ok _ (add_ok hdec)]
      simp only
      rw [if_pos hpos, bind_ok _ (findCnt_run _),
        bind_ok _ (number_find (z := g.src) ((hcut _ (by decide)).trans hS)),
        bind_ok _ (findCnt_run _),
        bind_ok _ (number_find (z := g.ind g.live) ((hcut _ (by decide)).trans hL)), hr,
        bind_ok _ (findUpdt_run _)]
      simp only [find_some hslot, tokensOn_hashText]
      rw [bind_ok _ (tokenAt_run rfl), bind_ok _ (number_intStr _), insertCnt_run]
    · intro v t hvt
      refine (FMap.insert_of_ne _ fun e => ?_).trans (hF v t (hvt.imp_right And.left))
      obtain ⟨rfl, rfl⟩ := getBid_inj.mp e
      simp at hvt
    · exact (FMap.insert_of_ne _ fun e => absurd (getBid_inj.mp e).2 (by decide)).trans hA'
    · exact fun _ => FMap.insert_self _ _ _
  · -- the last item goes, and its slot is the first one
    have hpl : p = g.live := Subtype.ext (by omega)
    refine ⟨_, ⟨_, hdec⟩, ⟨_, hnext⟩, ?_, hlv, rfl, hcnt ((h.CNTs.insert (getBid w .UpdtCnt)
      (intStr (g.live.val + -1))).insert (getBid w .LastIND) []) ?_ ?_ ?_⟩
    · unfold remove
      rw [bind_ok _ (findUpdt_run _)]
      simp only [find_some hp0, tokensOn_hashText]
      rw [bind_ok _ (tokenAt_run rfl), bind_ok _ (number_intStr _), if_pos (by omega),
        bind_ok _ (tokenAt_run rfl), bind_ok _ (number_intStr _), bind_ok _ (add_ok hnext),
        bind_ok _ (insertUpdt_run _ _), bind_ok _ hcount, bind_ok _ (number_intStr _),
        bind_ok _ (add_ok hdec)]
      simp only
      rw [if_neg hpos, insertCnt_run, freePairs, freeBoxes, if_pos hpl, if_pos hpl]
      rfl
    · intro v t hvt
      refine FMap.insert_of_ne _ fun e => ?_
      obtain ⟨rfl, rfl⟩ := getBid_inj.mp e
      simp at hvt
    · rw [Ledger.free_access, if_pos hpl, FMap.insert_of_ne _ fun e =>
        absurd (getBid_inj.mp e).2 (by decide), hcut _ (by decide), hA]
    · exact fun hge => absurd hge (by omega)

/-- **Removing a removed pair** changes nothing. -/
theorem remove_removed {z k : CInt} (hz : h.OMAP_updt (createBid 0 w z) = some (removedText k)) :
    remove w z h = .ok () h := by
  have hm : number minusOne h = .ok ⟨-1, by decide⟩ h := by
    rw [show minusOne = intStr (-1) by decide +kernel]
    exact number_intStr ⟨-1, by decide⟩
  unfold remove
  rw [bind_ok _ (findUpdt_run _)]
  simp only [find_some hz, removedText, tokensOn_removed]
  rw [bind_ok _ (tokenAt_run rfl), bind_ok _ hm, if_neg (by decide)]
  rfl

/-! ## Search -/

theorem length_slots {U : CInt} (hU : 0 ≤ U.val) {new : List CInt} (hnd : new.Nodup)
    (hmem : ∀ i : CInt, i ∈ new ↔ 1 ≤ i.val ∧ i.val ≤ U.val) : (new.length : Int) = U.val := by
  have hperm : new.Perm ((initSlots U one).map Slot.index) :=
    (List.perm_ext_iff_of_nodup hnd (nodup_initSlots U)).mpr fun i => by
      rw [hmem, mem_initSlots]
  rw [hperm.length_eq, initSlots, List.length_map, List.length_ofFn]
  omega

/-- **A search** lists the items of the slots in use. -/
theorem search_spec (he : Entry h w g known) (hacc : g.access.val < 2 ^ 30)
    (hsrc : g.src.val + 1 < 2 ^ 31) :
    ∃ h' res next, search w h = .ok res h' ∧ res.Nodup ∧ (∀ z, z ∈ res ↔ g.Has z) ∧
      next.val = g.src.val + 1 ∧ Entry h' w (g.refile next) true ∧ Grows h h' w ∧
      ∀ v, v ≠ w → Same h h' v := by
  have hH := he.holds
  obtain ⟨hU, hS, hA, hLast, -, -⟩ := he.counters
  have hlive := hH.live_nonneg
  have hle := hH.live_le
  have hlat := hH.lat_le
  have hs0 := hH.src_nonneg
  have hin : InInt (g.src.val + 1) := ⟨by omega, hsrc⟩
  obtain ⟨new, q, hnd, hmem, hrun, hW⟩ := @loop_spec w g.src ⟨_, hin⟩ g.st g.acc g.ind g.access
    { h with CNTs := h.CNTs.insert (getBid w .SrchCnt) (intStr (g.src.val + 1)) } g.live hacc
    fun i h1 h2 => ⟨hH.acc_le i h1 (by omega), hH.versions i h1 (by omega)⟩
  have hlen := length_slots hlive hnd hmem
  refine ⟨{ h with
      CNTs := (h.CNTs.insert (getBid w .SrchCnt) (intStr (g.src.val + 1))).insert
        (getBid w .latestUpdatedCounter) (intStr g.live.val)
      ORAM_srch := h.ORAM_srch.setupInsert q }, new.map g.ind, ⟨_, hin⟩, ?_, ?_, ?_, rfl,
    ⟨hH.refile rfl hmem hW, ?_⟩, fun _ hy => hy, ?_⟩
  · unfold search
    rw [bind_ok _ (findCnt_run _), bind_ok _ (number_find hU), bind_ok _ (findCnt_run _),
      bind_ok _ (number_find hA), bind_ok _ (changeCnt_run hS hin), bind_ok _ (number_intStr _),
      bind_ok _ (add_ok hin), bind_ok _ hrun]
    simp only [List.length_map, hlen]
    rfl
  · exact hnd.map_on fun i hi j hj e =>
      hH.inj i j ((hmem i).mp hi).1 ((hmem i).mp hi).2 ((hmem j).mp hj).1 ((hmem j).mp hj).2 e
  · intro z
    simp only [List.mem_map, hmem, Ledger.Has, and_assoc]
  · refine ⟨?_, ?_, ?_, fun h1 => ?_, fun _ => ?_, fun e => absurd e (by decide)⟩
    · simpa [FMap.insert_apply, Ledger.refile] using hU
    · simp [FMap.insert_apply, Ledger.refile]
    · simpa [FMap.insert_apply, Ledger.refile] using hA
    · simpa [FMap.insert_apply, Ledger.refile] using hLast h1
    · simp [FMap.insert_apply, Ledger.refile]
  · intro v hv
    refine ⟨fun _ _ => rfl, fun t => ?_, fun i s a => ?_⟩
    · simp [FMap.insert_apply, hv]
    · have : q (oramBid v i s a) = none := hW.2 _ fun j _ b e => hv (oramBid_inj.mp e).1
      simp only [FMap.setupInsert, this, Option.none_or]

/-- A search counter that is the largest `int` stops the search. -/
theorem search_overflow (he : Entry h w g known) (hsrc : g.src.val + 1 = 2 ^ 31) :
    search w h = .error .overflow h := by
  obtain ⟨hU, hS, hA, -, -, -⟩ := he.counters
  have hout : ¬ InInt (g.src.val + 1) := fun hin => absurd hin.2 (by omega)
  unfold search
  rw [bind_ok _ (findCnt_run _), bind_ok _ (number_find hU), bind_ok _ (findCnt_run _),
    bind_ok _ (number_find hA), bind_error _ (changeCnt_overflow hS hout)]

end SmallClientSSE.Horus
