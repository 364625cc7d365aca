import SmallClientSSE.Horus.Reads
import SmallClientSSE.Horus.SetupExact

/-!
# Absent pairs and keywords of Horus

After any run that succeeds, however long and whatever the boxes hold, a pair has a
text in `OMAP_updt` exactly when it was inserted, and a keyword has an `UpdtCnt`
exactly when it was: `Listed` keeps the pairs and these two counters with a ledger
whose boxes are imagined. So a removal of a pair that is not live does nothing when
the pair was removed before, and fails on the empty text when it was never inserted.
-/

namespace SmallClientSSE.Horus

open Lib Lib.Effect

/-! ## Pairs and counters of a keyword -/

/-- The ledger `g` of `w` after `calls`, in the pairs `P` and the texts `U` and `L` of
`UpdtCnt` and `LastIND`. -/
structure Listed (calls : List Call) (P : FMap 24) (U L : Option Str) (w : Kw) (g : Ledger) :
    Prop where
  holds : ∃ B, Holds P B w g
  has : ∀ z, g.Has z ↔ live calls w z = true
  stored : ∀ z, (P (createBid 0 w z)).isSome ↔ Call.insert w z ∈ calls
  count : U = if inserted calls w = true then some (intStr g.live.val) else none
  last : 1 ≤ g.live.val → L = some (intStr (g.ind g.live).val)

theorem listed_nil {P : FMap 24} {L : Option Str} {w : Kw} (hP : ∀ p n, P (createBid p w n) = none) :
    Listed [] P none L w Ledger.blank where
  holds := ⟨fun _ => none, holds_blank hP fun _ _ _ => rfl⟩
  has := (tracks_blank w).has
  stored z := by simp [hP]
  count := by simp [inserted]
  last h := absurd h (by decide)

/-- Boxes that suit an item filed in slot `i0` at access `a0`. -/
theorem Holds.put_imagined {P B : FMap 24} {w : Kw} {g : Ledger} (h : Holds P B w g)
    {z i0 a0 : CInt} (hz : ¬ g.Has z) (hi : i0.val = g.live.val + 1) (ha : 1 ≤ a0.val) :
    ∃ B', Holds ((P.insert (createBid 0 w z) (hashText i0 a0)).insert (createBid 1 w i0)
      (hashText z a0)) B' w (g.put z i0 a0 a0) := by
  classical
  let V : CInt → Option Str := fun a => if a = a0 then some (intStr z.val)
    else if a = one ∧ 1 < a0.val then some (marker a0) else none
  refine ⟨fun k => if hk : ∃ a, k = oramBid w i0 g.src a then V hk.choose else B k,
    h.put hz hi ha (Versions.single ha fun a => ?_) fun i s a hne => ?_⟩
  · have hk : ∃ c, oramBid w i0 g.src a = oramBid w i0 g.src c := ⟨a, rfl⟩
    have : hk.choose = a := (oramBid_inj.mp hk.choose_spec).2.2.2.symm
    simp only [hk, dif_pos, this]
    rfl
  · refine dif_neg ?_
    rintro ⟨c, e⟩
    obtain ⟨-, e1, e2, -⟩ := oramBid_inj.mp e
    exact hne.elim (fun h => h e1) fun h => h e2

section

variable {calls : List Call} {P P' : FMap 24} {U L U' L' : Option Str} {w : Kw} {g : Ledger}
  {c : Call} {z : CInt}

theorem Listed.congr (hl : Listed calls P U L w g)
    (hP : ∀ p n, P' (createBid p w n) = P (createBid p w n)) : Listed calls P' U L w g where
  holds := by
    obtain ⟨B, hB⟩ := hl.holds
    exact ⟨B, hB.frame hP fun _ _ _ => rfl⟩
  has := hl.has
  stored y := by rw [hP, hl.stored]
  count := hl.count
  last := hl.last

/-- A call that leaves the pairs of its keyword alone. -/
theorem Listed.idle (hl : Listed calls P U L w g)
    (hlive : ∀ y, liveAfter w y (live calls w y) c = live calls w y)
    (hins : ∀ y, c = .insert w y → Call.insert w y ∈ calls) :
    Listed (calls ++ [c]) P U L w g where
  holds := hl.holds
  has y := by rw [live_snoc, hlive, hl.has]
  stored y := by
    rw [hl.stored]
    refine ⟨fun h => List.mem_append_left _ h, fun h => ?_⟩
    rcases List.mem_append.mp h with h | h
    · exact h
    · exact hins y (List.mem_singleton.mp h).symm
  count := by
    have : inserted (calls ++ [c]) w = inserted calls w := by
      refine Bool.eq_iff_iff.mpr ⟨fun h => ?_, inserted_mono⟩
      obtain ⟨y, hy⟩ := inserted_iff.mp h
      rcases List.mem_append.mp hy with hy | hy
      · exact inserted_iff.mpr ⟨y, hy⟩
      · exact inserted_iff.mpr ⟨y, hins y (List.mem_singleton.mp hy).symm⟩
    rw [hl.count, this]
  last := hl.last

theorem Listed.frame (hl : Listed calls P U L w g) (hc : c.keyword ≠ w)
    (hP : ∀ p n, P' (createBid p w n) = P (createBid p w n)) (hU : U' = U) (hL : L' = L) :
    Listed (calls ++ [c]) P' U' L' w g := by
  subst hU hL
  refine (hl.congr hP).idle (fun y => liveAfter_other hc) fun y e => ?_
  rw [e] at hc
  exact absurd rfl hc

theorem Listed.put (hl : Listed calls P U L w g) (hz : ¬ g.Has z) {i0 a0 : CInt}
    (hi : i0.val = g.live.val + 1) (ha : 1 ≤ a0.val) :
    Listed (calls ++ [.insert w z])
      ((P.insert (createBid 0 w z) (hashText i0 a0)).insert (createBid 1 w i0) (hashText z a0))
      (some (intStr i0.val)) (some (intStr z.val)) w (g.put z i0 a0 a0) where
  holds := by
    obtain ⟨B, hB⟩ := hl.holds
    exact hB.put_imagined hz hi ha
  has y := by
    obtain ⟨B, hB⟩ := hl.holds
    rw [Ledger.has_put hB.live_nonneg hi, hl.has, live_snoc]
    by_cases hy : z = y
    · simp [liveAfter, hy]
    · simp [liveAfter, hy, Ne.symm hy]
  stored y := by
    by_cases hy : y = z
    · simp [FMap.insert_apply, hy]
    · simp [FMap.insert_apply, hy, hl.stored]
  count := by
    rw [if_pos (inserted_iff.mpr ⟨z, by simp⟩)]
    rfl
  last _ := by simp [Ledger.put]

theorem Listed.free (hl : Listed calls P U L w g) {p live' a1 : CInt} (hp1 : 1 ≤ p.val)
    (hp : p.val ≤ g.live.val) (hlv : live'.val = g.live.val - 1)
    (ha : a1.val = (g.acc p).val + 1)
    (hL : 1 ≤ live'.val → L' = some (intStr ((g.free p live' a1).ind live').val)) :
    Listed (calls ++ [.remove w (g.ind p)]) (freePairs P w g p a1) (some (intStr live'.val)) L' w
      (g.free p live' a1) where
  holds := by
    obtain ⟨B, hB⟩ := hl.holds
    exact ⟨_, hB.free hp1 hp hlv ha⟩
  has y := by
    obtain ⟨B, hB⟩ := hl.holds
    rw [hB.has_free hp1 hp hlv, hl.has, live_snoc]
    by_cases hy : g.ind p = y
    · simp [liveAfter, hy]
    · simp [liveAfter, hy, Ne.symm hy]
  stored y := by
    obtain ⟨B, hB⟩ := hl.holds
    rw [List.mem_append, ← hl.stored]
    refine ⟨fun h => .inl ?_, fun h => isSome_freePairs (h.resolve_right (by simp))⟩
    have hsome : ∀ i : CInt, 1 ≤ i.val → i.val ≤ g.live.val →
        (P (createBid 0 w (g.ind i))).isSome := fun i h1 h2 => by
      rw [hB.pair i h1 h2]
      rfl
    by_cases hyp : y = g.ind p
    · rw [hyp]
      exact hsome p hp1 hp
    · by_cases hyl : y = g.ind g.live
      · rw [hyl]
        exact hsome g.live (hp1.trans hp) (le_refl _)
      · unfold freePairs at h
        split at h
        · simpa [FMap.insert_apply, hyp] using h
        · simpa [FMap.insert_apply, hyp, hyl] using h
  count := by
    have hmem : Call.insert w (g.ind p) ∈ calls :=
      insert_mem_of_live ((hl.has _).mp ⟨p, hp1, hp, rfl⟩)
    rw [if_pos (inserted_mono (inserted_iff.mpr ⟨_, hmem⟩)), Ledger.free_live]
  last h1 := by
    rw [Ledger.free_live] at h1 ⊢
    exact hL h1

/-- A pair that was inserted and is not live is stored as removed. -/
theorem Listed.removed (hl : Listed calls P U L w g) (hz : Call.insert w z ∈ calls)
    (hn : ¬ g.Has z) : ∃ k, P (createBid 0 w z) = some (removedText k) := by
  obtain ⟨B, hB⟩ := hl.holds
  refine (hB.dead z hn).resolve_left fun e => ?_
  have := (hl.stored z).mpr hz
  rw [e] at this
  cases this

end

/-! ## What successful operations did -/

/-- Nothing but counters other than `UpdtCnt` and `LastIND` changed in `OMAP_updt` and `CNTs`. -/
def SameCounts (h h' : Client) : Prop :=
  h'.OMAP_updt = h.OMAP_updt ∧ ∀ v t, t = .UpdtCnt ∨ t = .LastIND →
    h'.CNTs (getBid v t) = h.CNTs (getBid v t)

theorem SameCounts.refl (h : Client) : SameCounts h h := ⟨rfl, fun _ _ _ => rfl⟩

theorem SameCounts.trans {h1 h2 h3 : Client} (a : SameCounts h1 h2) (b : SameCounts h2 h3) :
    SameCounts h1 h3 := ⟨b.1.trans a.1, fun v t ht => (b.2 v t ht).trans (a.2 v t ht)⟩

section

variable {α β : Type}

theorem keeps_bind {x : Op α} {f : α → Op β} (hx : Keeps SameCounts x)
    (hf : ∀ a, Keeps SameCounts (f a)) : Keeps SameCounts (x >>= f) := hx.bind .trans hf

theorem keeps_pure (a : α) : Keeps SameCounts (pure a : Op α) := .pure .refl a

/-- Steps that change nothing. -/
def Silent (x : Op α) : Prop := Keeps (fun h h' => h = h') x

theorem Silent.keeps {x : Op α} (hx : Silent x) : Keeps SameCounts x :=
  hx.mono fun h h' (e : h = h') => by
    subst e
    exact .refl h

theorem silent_of_reads {x : Op α} (hx : Reads Eq x) : Silent x := hx.keeps fun _ => rfl

theorem silent_number (s : Str) : Silent (number s) := silent_of_reads (reads_number s)

theorem silent_add (a : CInt) (k : Int) : Silent (add a k) := silent_of_reads (reads_add a k)

theorem silent_get : Silent (get : Op Client) := fun _ _ _ hr => by cases hr; rfl

theorem silent_findCnt (k : Bid 24) : Silent (findCnt k) :=
  silent_of_reads (reads_findCnt fun _ _ e => by rw [e])

theorem keeps_insertCnt {w : Kw} {t : Cnt} (h1 : t ≠ .UpdtCnt) (h2 : t ≠ .LastIND) (v : Str) :
    Keeps SameCounts (insertCnt (getBid w t) v) := fun _ _ _ hr => by
  cases hr
  refine ⟨rfl, fun v s hs => FMap.insert_of_ne _ fun e => ?_⟩
  rw [(getBid_inj.mp e).2] at hs
  exact hs.elim h1 h2

theorem keeps_writeBox (k : Bid 24) (v : Str) : Keeps SameCounts (writeBox k v) :=
  fun _ _ _ hr => by
    cases hr
    exact ⟨rfl, fun _ _ _ => rfl⟩

theorem keeps_raiseAccess (w : Kw) (a b : CInt) : Keeps SameCounts (raiseAccess w a b) := by
  unfold raiseAccess
  split
  · exact keeps_insertCnt (by decide) (by decide) _
  · exact keeps_pure ()

theorem keeps_accessCounter (w : Kw) : Keeps SameCounts (accessCounter w) :=
  keeps_bind (silent_findCnt _).keeps fun _ =>
    .ite (keeps_bind (keeps_insertCnt (by decide) (by decide) _) fun _ => keeps_pure _)
      (silent_number _).keeps

theorem keeps_countNew (w : Kw) (i0 s a0 lat : CInt) :
    Keeps SameCounts (countNew w i0 s a0 lat) := by
  unfold countNew
  split
  · refine keeps_bind (silent_add _ _).keeps fun _ =>
      keeps_bind (keeps_insertCnt (by decide) (by decide) _) fun _ => ?_
    split
    · exact keeps_writeBox _ _
    · exact keeps_pure ()
  · exact keeps_pure ()

theorem keeps_changeSrch (w : Kw) (k : Int) : Keeps SameCounts (changeCnt (getBid w .SrchCnt) k) := by
  refine keeps_bind silent_get.keeps fun h => ?_
  split
  · exact keeps_pure _
  · exact keeps_bind (silent_number _).keeps fun _ => keeps_bind (silent_add _ _).keeps fun _ =>
      keeps_bind (keeps_insertCnt (by decide) (by decide) _) fun _ => keeps_pure _

end

/-! ## Searches -/

theorem silent_rounds (w : Kw) (srcCnt next : CInt) (fuel : Nat) (firstRun : Bool)
    (slots : List Slot) (q : FMap 24) : Silent (rounds w srcCnt next fuel firstRun slots q) :=
  silent_of_reads (reads_rounds srcCnt next (fun _ _ e _ _ _ => by rw [e]) fuel firstRun slots q)

/-- **A search** changes no pair and neither `UpdtCnt` nor `LastIND`. -/
theorem keeps_search (w : Kw) : Keeps SameCounts (search w) := by
  unfold search
  refine keeps_bind (silent_findCnt _).keeps fun _ => keeps_bind (silent_number _).keeps fun _ =>
    keeps_bind (silent_findCnt _).keeps fun _ => keeps_bind (silent_number _).keeps fun _ =>
    keeps_bind (keeps_changeSrch w 1) fun _ => keeps_bind (silent_number _).keeps fun srcCnt =>
    keeps_bind (silent_add _ _).keeps fun next =>
    keeps_bind (silent_rounds w srcCnt next _ _ _ _).keeps fun _ => ?_
  refine keeps_bind (fun _ _ _ hr => ?_) fun _ =>
    keeps_bind (keeps_insertCnt (by decide) (by decide) _) fun _ => keeps_pure _
  cases hr
  exact ⟨rfl, fun _ _ _ => rfl⟩

/-! ## Insertions -/

section

variable {calls : List Call} {h h' : Client} {L : Option Str} {w : Kw} {g : Ledger} {z : CInt}

theorem add_inv {a b : CInt} {k : Int} (hr : add a k h = .ok b h') : b.val = a.val + k ∧ h = h' := by
  by_cases hz : InInt (a.val + k)
  · rw [add_ok hz] at hr
    cases hr
    exact ⟨rfl, rfl⟩
  · rw [add_overflow hz] at hr
    cases hr

theorem changeCnt_inv {key : Bid 24} {u : CInt} {k : Int} {res : Str}
    (hr : changeCnt key k h = .ok res h') (hk : h.CNTs key = some (intStr u.val)) :
    res = intStr u.val ∧ h' = { h with CNTs := h.CNTs.insert key (intStr (u.val + k)) } := by
  by_cases hz : InInt (u.val + k)
  · rw [changeCnt_run hk hz] at hr
    cases hr
    exact ⟨rfl, rfl⟩
  · have hget : (get : Op Client) h = .ok h h := rfl
    rw [changeCnt, bind_ok _ hget, hk] at hr
    simp only at hr
    rw [bind_ok _ (number_intStr u), bind_error _ (add_overflow hz)] at hr
    cases hr

/-- Of the pairs and the two counters, `UpdtCnt` of `w` changed, to `n`. -/
structure Counted (h h' : Client) (w : Kw) (n : Int) : Prop where
  updt : h'.OMAP_updt = h.OMAP_updt
  count : h'.CNTs (getBid w .UpdtCnt) = some (intStr n)
  last : ∀ v, h'.CNTs (getBid v .LastIND) = h.CNTs (getBid v .LastIND)
  other : ∀ v, v ≠ w → h'.CNTs (getBid v .UpdtCnt) = h.CNTs (getBid v .UpdtCnt)

theorem Counted.keeps {h2 : Client} {n : Int} (hc : Counted h h' w n) (hs : SameCounts h' h2) :
    Counted h h2 w n :=
  ⟨hs.1.trans hc.updt, (hs.2 w _ (.inl rfl)).trans hc.count,
    fun v => (hs.2 v _ (.inr rfl)).trans (hc.last v),
    fun v hv => (hs.2 v _ (.inl rfl)).trans (hc.other v hv)⟩

theorem counted_insert (h : Client) (w : Kw) (n : Int) :
    Counted h { h with CNTs := h.CNTs.insert (getBid w .UpdtCnt) (intStr n) } w n where
  updt := rfl
  count := FMap.insert_self _ _ _
  last v := FMap.insert_of_ne _ fun e => absurd (getBid_inj.mp e).2 (by decide)
  other v hv := FMap.insert_of_ne _ fun e => hv (getBid_inj.mp e).1

/-- A keyword that was never inserted has no live pair. -/
theorem Listed.live_eq_zero {P : FMap 24} {U : Option Str} (hl : Listed calls P U L w g)
    (hi : ¬ inserted calls w = true) : g.live.val = 0 := by
  obtain ⟨B, hB⟩ := hl.holds
  refine le_antisymm ?_ hB.live_nonneg
  by_contra hpos
  exact hi (inserted_iff.mpr ⟨_, insert_mem_of_live ((hl.has _).mp
    ⟨g.live, by omega, le_refl _, rfl⟩)⟩)

theorem insertCounters_did
    (hl : Listed calls h.OMAP_updt (h.CNTs (getBid w .UpdtCnt)) L w g) {r : CInt × CInt × CInt}
    (hr : insertCounters w h = .ok r h') : r.1 = g.live ∧ Counted h h' w (g.live.val + 1) := by
  have hcount := hl.count
  unfold insertCounters at hr
  obtain ⟨res, h1, e1, hr⟩ := bind_inv hr
  by_cases hi : inserted calls w = true
  · rw [if_pos hi] at hcount
    obtain ⟨rfl, rfl⟩ := changeCnt_inv e1 hcount
    rw [if_neg (intStr_ne_nil _), bind_ok _ (number_intStr _)] at hr
    obtain ⟨_, _, f1, hr⟩ := bind_inv hr
    obtain rfl := silent_findCnt _ _ _ _ f1
    obtain ⟨_, _, f2, hr⟩ := bind_inv hr
    obtain rfl := silent_number _ _ _ _ f2
    obtain ⟨_, _, f3, hr⟩ := bind_inv hr
    obtain rfl := silent_findCnt _ _ _ _ f3
    obtain ⟨_, _, f4, hr⟩ := bind_inv hr
    obtain rfl := silent_number _ _ _ _ f4
    obtain ⟨rfl, rfl⟩ := pure_inv hr
    exact ⟨rfl, counted_insert h w _⟩
  · have hlive := hl.live_eq_zero hi
    rw [if_neg hi] at hcount
    rw [changeCnt_absent hcount] at e1
    cases e1
    rw [if_pos rfl, bind_ok _ (insertCnt_run _ _)] at hr
    obtain ⟨_, h2, f1, hr⟩ := bind_inv hr
    obtain ⟨_, h3, f2, hr⟩ := bind_inv hr
    obtain ⟨rfl, rfl⟩ := pure_inv hr
    have hs := (keeps_insertCnt (by decide) (by decide) _ _ _ _ f1).trans
      (keeps_insertCnt (by decide) (by decide) _ _ _ _ f2)
    refine ⟨Subtype.ext hlive.symm, ?_⟩
    rw [hlive]
    exact (counted_insert h w 1).keeps hs

theorem nextAccess_did {B : FMap 24} (hB : Holds h.OMAP_updt B w g) {i0 access a0 : CInt}
    (hi : 1 ≤ i0.val) (hr : nextAccess w i0 access h = .ok a0 h') :
    SameCounts h h' ∧ 1 ≤ a0.val := by
  unfold nextAccess at hr
  rw [bind_ok _ (findUpdt_run _)] at hr
  by_cases ht : i0.val ≤ g.top.val
  · have hpos := hB.acc_pos i0 hi ht
    simp only [find_some (hB.slot i0 hi ht), if_neg (hashText_ne_nil _ _), tokensOn_hashText] at hr
    rw [bind_ok _ (tokenAt_run rfl), bind_ok _ (number_intStr _)] at hr
    obtain ⟨a, h1, e1, hr⟩ := bind_inv hr
    obtain ⟨ha, rfl⟩ := add_inv e1
    obtain ⟨_, h2, e2, hr⟩ := bind_inv hr
    obtain ⟨rfl, rfl⟩ := pure_inv hr
    exact ⟨keeps_raiseAccess _ _ _ _ _ _ e2, by omega⟩
  · simp only [find_none (hB.unused i0 (by omega)), if_true] at hr
    obtain ⟨rfl, rfl⟩ := pure_inv hr
    exact ⟨.refl _, le_refl _⟩

/-- What a call made of the pairs and the two counters of `w`, all others alone. -/
structure Became (h h' : Client) (w : Kw) (P : FMap 24) (n : CInt) (L : Option Str) : Prop where
  updt : h'.OMAP_updt = P
  count : h'.CNTs (getBid w .UpdtCnt) = some (intStr n.val)
  last : h'.CNTs (getBid w .LastIND) = L
  other : ∀ v, v ≠ w → ∀ t, t = .UpdtCnt ∨ t = .LastIND →
    h'.CNTs (getBid v t) = h.CNTs (getBid v t)

/-- **A successful insertion** of a pair that is not live. -/
theorem insert_did (hl : Listed calls h.OMAP_updt (h.CNTs (getBid w .UpdtCnt)) L w g)
    (hz : ¬ g.Has z) (hr : insert w z h = .ok () h') :
    ∃ i0 a0 : CInt, i0.val = g.live.val + 1 ∧ 1 ≤ a0.val ∧ Became h h' w
      ((h.OMAP_updt.insert (createBid 0 w z) (hashText i0 a0)).insert (createBid 1 w i0)
        (hashText z a0)) i0 (some (intStr z.val)) := by
  obtain ⟨B, hB⟩ := hl.holds
  have hlive := hB.live_nonneg
  unfold insert at hr
  rw [bind_ok _ (findUpdt_run _), if_pos (hB.dead_find hz)] at hr
  obtain ⟨⟨u, src, lat⟩, h1, e1, hr⟩ := bind_inv hr
  obtain ⟨rfl, hc1⟩ := insertCounters_did hl e1
  dsimp only at hr
  obtain ⟨access, h2, e2, hr⟩ := bind_inv hr
  have hc2 := hc1.keeps (keeps_accessCounter _ _ _ _ e2)
  obtain ⟨i0, h3, e3, hr⟩ := bind_inv hr
  obtain ⟨hi0, rfl⟩ := add_inv e3
  obtain ⟨a0, h4, e4, hr⟩ := bind_inv hr
  obtain ⟨hs4, ha0⟩ := nextAccess_did (hc2.updt ▸ hB) (by omega) e4
  have hc4 := hc2.keeps hs4
  rw [bind_ok _ (insertUpdt_run _ _), bind_ok _ (insertUpdt_run _ _),
    bind_ok _ (writeBox_run _ _)] at hr
  obtain ⟨_, h5, e5, hr⟩ := bind_inv hr
  have hs5 := keeps_countNew _ _ _ _ _ _ _ _ e5
  cases hr
  refine ⟨i0, a0, hi0, ha0, ?_, ?_, FMap.insert_self _ _ _, fun v hv t ht => ?_⟩
  · rw [← hc4.updt]
    exact hs5.1
  · refine (FMap.insert_of_ne _ fun e => absurd (getBid_inj.mp e).2 (by decide)).trans ?_
    rw [hi0]
    exact (hs5.2 w _ (.inl rfl)).trans hc4.count
  · refine (FMap.insert_of_ne _ fun e => hv (getBid_inj.mp e).1).trans ((hs5.2 v t ht).trans ?_)
    rcases ht with rfl | rfl
    · exact hc4.other v hv
    · exact hc4.last v

/-! ## Removals -/

/-- A removal of a pair without a text fails and changes nothing. -/
theorem remove_absent (hz : h.OMAP_updt (createBid 0 w z) = none) :
    remove w z h = .error .stoi h := by
  have hstop : number [] h = .error .stoi h := rfl
  unfold remove
  rw [bind_ok _ (findUpdt_run _), find_none hz]
  rw [bind_ok _ (tokenAt_run (t := []) rfl), bind_error _ hstop]

theorem moveLast_did {p a s last : CInt} (hr : moveLast w p a s last h = .ok () h') :
    ∃ a1 : CInt, a1.val = a.val + 1 ∧ h'.OMAP_updt =
      (h.OMAP_updt.insert (createBid 0 w last) (hashText p a1)).insert (createBid 1 w p)
        (hashText last a1) ∧
      ∀ v t, t = .UpdtCnt ∨ t = .LastIND → h'.CNTs (getBid v t) = h.CNTs (getBid v t) := by
  unfold moveLast at hr
  obtain ⟨a1, h1, e1, hr⟩ := bind_inv hr
  obtain ⟨ha, rfl⟩ := add_inv e1
  obtain ⟨_, _, e2, hr⟩ := bind_inv hr
  obtain rfl := silent_findCnt _ _ _ _ e2
  obtain ⟨access, _, e3, hr⟩ := bind_inv hr
  obtain rfl := silent_number _ _ _ _ e3
  obtain ⟨_, h4, e4, hr⟩ := bind_inv hr
  have hs := keeps_raiseAccess _ _ _ _ _ _ e4
  rw [bind_ok _ (writeBox_run _ _), bind_ok _ (insertUpdt_run _ _), insertUpdt_run] at hr
  cases hr
  refine ⟨a1, ha, ?_, hs.2⟩
  simp only [hs.1]

/-- The move, when the freed slot is not the last one, before `k`. -/
theorem moveIf_did {p live' a a1 s : CInt} (hlv : live'.val = g.live.val - 1)
    (ha : a1.val = a.val + 1) {P : FMap 24}
    (hP : h.OMAP_updt = P.insert (createBid 0 w (g.ind p)) (removedText a1)) {k : Op Unit}
    (hr : (if live'.val + 1 ≠ p.val then moveLast w p a s (g.ind g.live) >>= fun _ => k else k) h =
      .ok () h') : ∃ h1, k h1 = .ok () h' ∧ h1.OMAP_updt = freePairs P w g p a1 ∧
      ∀ v t, t = .UpdtCnt ∨ t = .LastIND → h1.CNTs (getBid v t) = h.CNTs (getBid v t) := by
  by_cases hpl : p = g.live
  · rw [if_neg (by rw [hpl]; omega)] at hr
    exact ⟨h, hr, by rw [hP, freePairs, if_pos hpl], fun _ _ _ => rfl⟩
  · have : p.val ≠ g.live.val := fun e => hpl (Subtype.ext e)
    rw [if_pos (by omega)] at hr
    obtain ⟨_, h1, e1, hr⟩ := bind_inv hr
    obtain ⟨a2, ha2, hO, hC⟩ := moveLast_did e1
    obtain rfl : a1 = a2 := Subtype.ext (ha.trans ha2.symm)
    exact ⟨h1, hr, by rw [hO, hP, freePairs, if_neg hpl], hC⟩

/-- **A successful removal** of a live pair. -/
theorem remove_did (hl : Listed calls h.OMAP_updt (h.CNTs (getBid w .UpdtCnt))
      (h.CNTs (getBid w .LastIND)) w g) {p : CInt} (hp1 : 1 ≤ p.val) (hp : p.val ≤ g.live.val)
    (hr : remove w (g.ind p) h = .ok () h') :
    ∃ (live' a1 : CInt) (L : Option Str), live'.val = g.live.val - 1 ∧
      a1.val = (g.acc p).val + 1 ∧
      (1 ≤ live'.val → L = some (intStr ((g.free p live' a1).ind live').val)) ∧
      Became h h' w (freePairs h.OMAP_updt w g p a1) live' L := by
  obtain ⟨B, hB⟩ := hl.holds
  have hcount := hl.count
  have hmem : Call.insert w (g.ind p) ∈ calls := insert_mem_of_live ((hl.has _).mp ⟨p, hp1, hp, rfl⟩)
  rw [if_pos (inserted_iff.mpr ⟨_, hmem⟩)] at hcount
  unfold remove at hr
  rw [bind_ok _ (findUpdt_run _)] at hr
  simp only [find_some (hB.pair p hp1 hp), tokensOn_hashText] at hr
  rw [bind_ok _ (tokenAt_run rfl), bind_ok _ (number_intStr _), if_pos (by omega),
    bind_ok _ (tokenAt_run rfl), bind_ok _ (number_intStr _)] at hr
  obtain ⟨a1, _, e1, hr⟩ := bind_inv hr
  obtain ⟨ha1, rfl⟩ := add_inv e1
  rw [bind_ok _ (insertUpdt_run _ _)] at hr
  obtain ⟨res, h2, e2, hr⟩ := bind_inv hr
  obtain ⟨rfl, rfl⟩ := changeCnt_inv e2 hcount
  rw [bind_ok _ (number_intStr _)] at hr
  obtain ⟨live', _, e3, hr⟩ := bind_inv hr
  obtain ⟨hlv, rfl⟩ := add_inv e3
  have hlv' : live'.val = g.live.val - 1 := hlv
  have hkey : ∀ v t, v ≠ w ∨ t ≠ .UpdtCnt → h.CNTs.insert (getBid w .UpdtCnt)
      (intStr (g.live.val + -1)) (getBid v t) = h.CNTs (getBid v t) := fun v t hvt =>
    FMap.insert_of_ne _ fun e => hvt.elim (fun h => h (getBid_inj.mp e).1)
      fun h => h (getBid_inj.mp e).2
  by_cases hpos : live'.val > 0
  · rw [if_pos hpos] at hr
    obtain ⟨_, _, f1, hr⟩ := bind_inv hr
    obtain rfl := silent_findCnt _ _ _ _ f1
    obtain ⟨s, _, f2, hr⟩ := bind_inv hr
    obtain rfl := silent_number _ _ _ _ f2
    have hL := (hkey w .LastIND (.inr (by decide))).trans (hl.last (by omega))
    rw [bind_ok _ (findCnt_run _), bind_ok _ (number_find (z := g.ind g.live) hL)] at hr
    obtain ⟨h4, hr, hO, hC⟩ := moveIf_did hlv' ha1 rfl hr
    have hfree := hB.free hp1 hp hlv' ha1
    have hslot := hfree.slot live' hpos (by
      have h3 := hfree.live_le
      have h4 := hfree.lat_le
      rw [Ledger.free_live] at h3
      exact h3.trans h4)
    rw [bind_ok _ (findUpdt_run _), hO, find_some hslot, tokensOn_hashText,
      bind_ok _ (tokenAt_run rfl), bind_ok _ (number_intStr _), insertCnt_run] at hr
    cases hr
    refine ⟨live', a1, _, hlv', ha1, fun _ => rfl, hO, ?_, FMap.insert_self _ _ _,
      fun v hv t ht => ?_⟩
    · refine (FMap.insert_of_ne _ fun e => absurd (getBid_inj.mp e).2 (by decide)).trans
        ((hC w _ (.inl rfl)).trans ((FMap.insert_self _ _ _).trans ?_))
      rw [hlv]
    · exact (FMap.insert_of_ne _ fun e => hv (getBid_inj.mp e).1).trans
        ((hC v t ht).trans (hkey v t (.inl hv)))
  · -- the last item goes, and its slot is the first one
    have hpl : p = g.live := Subtype.ext (by omega)
    rw [if_neg hpos, insertCnt_run] at hr
    cases hr
    refine ⟨live', a1, some [], hlv', ha1, fun h1 => absurd h1 (by omega), ?_, ?_,
      FMap.insert_self _ _ _, fun v hv t _ => ?_⟩
    · rw [freePairs, if_pos hpl]
      rfl
    · refine (FMap.insert_of_ne _ fun e => absurd (getBid_inj.mp e).2 (by decide)).trans
        ((FMap.insert_self _ _ _).trans ?_)
      rw [hlv]
    · exact (FMap.insert_of_ne _ fun e => hv (getBid_inj.mp e).1).trans (hkey v t (.inl hv))

end

/-! ## Online calls -/

/-- What every successful run keeps. -/
def Online (calls : List Call) (h : Client) : Prop := ∀ w, ∃ g,
  Listed calls h.OMAP_updt (h.CNTs (getBid w .UpdtCnt)) (h.CNTs (getBid w .LastIND)) w g

theorem online_init : Online [] Client.init := fun _ => ⟨Ledger.blank, listed_nil fun _ _ => rfl⟩

section

variable {calls : List Call} {h h' : Client} {w : Kw} {g : Ledger} {c : Call}

/-- The invariant from the keyword of the call, when the others are left alone. -/
theorem Online.next (hI : Online calls h) {P : FMap 24} {n : CInt} {L : Option Str}
    (hb : Became h h' c.keyword P n L)
    (hl : Listed (calls ++ [c]) P (some (intStr n.val)) L c.keyword g)
    (hP : ∀ v, v ≠ c.keyword → ∀ p i, P (createBid p v i) = h.OMAP_updt (createBid p v i)) :
    Online (calls ++ [c]) h' := fun v => by
  by_cases hv : v = c.keyword
  · subst hv
    rw [hb.updt, hb.count, hb.last]
    exact ⟨g, hl⟩
  · obtain ⟨g', hg⟩ := hI v
    refine ⟨g', hg.frame (Ne.symm hv) (fun p i => ?_) (hb.other v hv _ (.inl rfl))
      (hb.other v hv _ (.inr rfl))⟩
    rw [hb.updt, hP v hv]

theorem Online.idle (hI : Online calls h) (hs : SameCounts h h')
    (hlive : ∀ y, liveAfter c.keyword y (live calls c.keyword y) c = live calls c.keyword y)
    (hins : ∀ y, c = .insert c.keyword y → Call.insert c.keyword y ∈ calls) :
    Online (calls ++ [c]) h' := fun v => by
  obtain ⟨g', hg⟩ := hI v
  refine ⟨g', ?_⟩
  rw [hs.1, hs.2 v _ (.inl rfl), hs.2 v _ (.inr rfl)]
  by_cases hv : v = c.keyword
  · subst hv
    exact hg.idle hlive hins
  · exact hg.frame (Ne.symm hv) (fun _ _ => rfl) rfl rfl

theorem insert_ok {z : CInt} (hr : step h (.insert w z) = some h') : insert w z h = .ok () h' := by
  simp only [step, finished] at hr
  split at hr
  · next a _ e =>
    cases hr
    exact e
  · cases hr

theorem remove_ok {z : CInt} (hr : step h (.remove w z) = some h') : remove w z h = .ok () h' := by
  simp only [step, finished] at hr
  split at hr
  · next a _ e =>
    cases hr
    exact e
  · cases hr

theorem search_ok (hr : step h (.search w) = some h') : ∃ res, search w h = .ok res h' := by
  simp only [step, finished] at hr
  split at hr
  · next a _ e =>
    cases hr
    exact ⟨a, e⟩
  · cases hr

/-- **Every call that succeeds** keeps the pairs and the counters. -/
theorem step_online (hI : Online calls h) (hr : step h c = some h') :
    Online (calls ++ [c]) h' := by
  cases c with
  | insert w z =>
    obtain ⟨g, hl⟩ := hI w
    have hr := insert_ok hr
    by_cases hz : g.Has z
    · obtain ⟨B, hB⟩ := hl.holds
      rw [insert_live hB hz] at hr
      cases hr
      have hlz := (hl.has z).mp hz
      refine hI.idle (.refl h) (liveAfter_of_live hlz) fun y e => ?_
      obtain rfl : z = y := by injection e
      exact insert_mem_of_live hlz
    · obtain ⟨i0, a0, hi, ha, hb⟩ := insert_did hl hz hr
      refine hI.next hb (hl.put hz hi ha) fun v hv p i => ?_
      have hvw : v ≠ w := hv
      simp [FMap.insert_apply, hvw]
  | remove w z =>
    obtain ⟨g, hl⟩ := hI w
    have hr := remove_ok hr
    by_cases hz : g.Has z
    · obtain ⟨p, hp1, hp2, rfl⟩ := hz
      obtain ⟨live', a1, L, hlv, ha, hL, hb⟩ := remove_did hl hp1 hp2 hr
      exact hI.next hb (hl.free hp1 hp2 hlv ha hL) fun v hv p i => freePairs_frame _ hv p i
    · have hdead : live calls w z = false := eq_false_of_ne_true fun e => hz ((hl.has z).mpr e)
      by_cases hmem : Call.insert w z ∈ calls
      · obtain ⟨k, hk⟩ := hl.removed hmem hz
        rw [remove_removed hk] at hr
        cases hr
        exact hI.idle (.refl h) (liveAfter_of_dead hdead) fun y e => by cases e
      · have hnone := Option.not_isSome_iff_eq_none.mp fun e => hmem ((hl.stored z).mp e)
        rw [remove_absent hnone] at hr
        cases hr
  | search w =>
    obtain ⟨res, hr⟩ := search_ok hr
    exact hI.idle (keeps_search w _ _ _ hr) (fun _ => rfl) fun y e => by cases e

end

/-! ## The setup phase -/

/-- A counter of setup, as text. -/
def textOf (m : Table Kw CInt) (w : Kw) : Option Str := (m.lookup w).map fun c => intStr c.val

/-- What every successful setup phase keeps. -/
structure Loading (calls : List Call) (h : Client) : Prop where
  listed : ∀ w, ∃ g, Listed calls h.setupPairs1 (textOf h.UpdtCnt w) (textOf h.LastIND w) w g
  stores : Stores h = Stores Client.init

theorem loading_init : Loading [] (beginSetup Client.init) :=
  ⟨fun _ => ⟨Ledger.blank, listed_nil fun _ _ => rfl⟩, rfl⟩

theorem textOf_put (m : Table Kw CInt) (w : Kw) (c : CInt) :
    textOf (m.put w c) w = some (intStr c.val) := by
  rw [textOf, lookup_put]
  rfl

theorem textOf_put_ne (m : Table Kw CInt) {w v : Kw} (c : CInt) (hv : v ≠ w) :
    textOf (m.put w c) v = textOf m v := by
  rw [textOf, textOf, lookup_put_ne _ _ hv]

theorem lookup_of_textOf {m : Table Kw CInt} {w : Kw} {c : CInt}
    (h : textOf m w = some (intStr c.val)) : m.lookup w = some c := by
  obtain ⟨d, hd, e⟩ := Option.map_eq_some_iff.mp h
  rw [hd, Subtype.ext (intStr_inj e)]

section

variable {calls : List Call} {h h' : Client} {w : Kw} {g : Ledger} {c : Call} {z : CInt}

theorem Listed.counter_eq {P : FMap 24} {L : Option Str}
    (hl : Listed calls P (textOf h.UpdtCnt w) L w g) : counter h.UpdtCnt w zero = g.live := by
  have hc := hl.count
  by_cases hi : inserted calls w = true
  · rw [if_pos hi] at hc
    simp [counter, lookup_of_textOf hc]
  · rw [if_neg hi, textOf, Option.map_eq_none_iff] at hc
    rw [counter, hc]
    exact Subtype.ext (hl.live_eq_zero hi).symm

/-- What a setup call made of the pairs and the two counters of `w`, all others alone. -/
structure SetupBecame (h h' : Client) (w : Kw) (P : FMap 24) (n : CInt) (L : Option Str) :
    Prop where
  pairs1 : h'.setupPairs1 = P
  count : textOf h'.UpdtCnt w = some (intStr n.val)
  last : textOf h'.LastIND w = L
  updt : ∀ v, v ≠ w → textOf h'.UpdtCnt v = textOf h.UpdtCnt v
  lasts : ∀ v, v ≠ w → textOf h'.LastIND v = textOf h.LastIND v
  stores : Stores h' = Stores h

theorem setupInsert_did {P : FMap 24} {L : Option Str}
    (hl : Listed calls P (textOf h.UpdtCnt w) L w g) (hr : setupInsert w z h = .ok () h') :
    ∃ i0 : CInt, i0.val = g.live.val + 1 ∧ SetupBecame h h' w
      ((h.setupPairs1.insert (createBid 0 w z) (hashText i0 one)).insert (createBid 1 w i0)
        (hashText z one)) i0 (some (intStr z.val)) := by
  have hget : (get : Op Client) h = .ok h h := rfl
  unfold setupInsert at hr
  rw [bind_ok _ hget] at hr
  obtain ⟨i0, _, e1, hr⟩ := bind_inv hr
  rw [hl.counter_eq] at e1
  obtain ⟨hi, rfl⟩ := add_inv e1
  cases hr
  exact ⟨i0, hi, rfl, textOf_put _ _ _, textOf_put _ _ _, fun v hv => textOf_put_ne _ _ hv,
    fun v hv => textOf_put_ne _ _ hv, rfl⟩

theorem setupMoveLast_did {p a last : CInt} (hL : textOf h.LastIND w = some (intStr last.val))
    (hr : setupMoveLast w p a h = .ok () h') : ∃ a1 : CInt, a1.val = a.val + 1 ∧
      h'.setupPairs1 = (h.setupPairs1.insert (createBid 0 w last) (hashText p a1)).insert
        (createBid 1 w p) (hashText last a1) ∧ h'.UpdtCnt = h.UpdtCnt ∧
      (∀ v, textOf h'.LastIND v = textOf h.LastIND v) ∧ Stores h' = Stores h := by
  have hlast : counter h.LastIND w zero = last := by simp [counter, lookup_of_textOf hL]
  unfold setupMoveLast at hr
  obtain ⟨a1, h1, e1, hr⟩ := bind_inv hr
  obtain ⟨ha, rfl⟩ := add_inv e1
  have hget : (get : Op Client) h = .ok h h := rfl
  rw [bind_ok _ hget] at hr
  cases hr
  refine ⟨a1, ha, by simp only [hlast], rfl, fun v => ?_, rfl⟩
  by_cases hv : v = w
  · rw [hv, hL, ← hlast]
    exact textOf_put _ _ _
  · exact textOf_put_ne _ _ hv

/-- The move, when the freed slot is not the last one, before `k`. -/
theorem setupMoveIf_did {p live' a a1 : CInt} (hlv : live'.val = g.live.val - 1)
    (ha : a1.val = a.val + 1) {k : Op Unit}
    (hr : (if live'.val + 1 ≠ p.val then setupMoveLast w p a >>= fun _ => k else k) h =
      .ok () h') {P : FMap 24}
    (hP : h.setupPairs1 = P.insert (createBid 0 w (g.ind p)) (removedText a1))
    (hL : textOf h.LastIND w = some (intStr (g.ind g.live).val)) : ∃ h1, k h1 = .ok () h' ∧ h1.setupPairs1 = freePairs P w g p a1 ∧
      h1.UpdtCnt = h.UpdtCnt ∧ (∀ v, textOf h1.LastIND v = textOf h.LastIND v) ∧
      Stores h1 = Stores h := by
  by_cases hpl : p = g.live
  · rw [if_neg (by rw [hpl]; omega)] at hr
    exact ⟨h, hr, by rw [hP, freePairs, if_pos hpl], rfl, fun _ => rfl, rfl⟩
  · have : p.val ≠ g.live.val := fun e => hpl (Subtype.ext e)
    rw [if_pos (by omega)] at hr
    obtain ⟨_, h1, e1, hr⟩ := bind_inv hr
    obtain ⟨a2, ha2, hO, hC⟩ := setupMoveLast_did hL e1
    obtain rfl : a1 = a2 := Subtype.ext (ha.trans ha2.symm)
    exact ⟨h1, hr, by rw [hO, hP, freePairs, if_neg hpl], hC⟩

theorem setupRemove_did
    (hl : Listed calls h.setupPairs1 (textOf h.UpdtCnt w) (textOf h.LastIND w) w g) {p : CInt}
    (hp1 : 1 ≤ p.val) (hp : p.val ≤ g.live.val) (hr : setupRemove w (g.ind p) h = .ok () h') :
    ∃ (live' a1 : CInt) (L : Option Str), live'.val = g.live.val - 1 ∧
      a1.val = (g.acc p).val + 1 ∧
      (1 ≤ live'.val → L = some (intStr ((g.free p live' a1).ind live').val)) ∧
      SetupBecame h h' w (freePairs h.setupPairs1 w g p a1) live' L := by
  obtain ⟨B, hB⟩ := hl.holds
  have hget : ∀ h : Client, (get : Op Client) h = .ok h h := fun _ => rfl
  have hmodify : ∀ (f : Client → Client) (h : Client), (modify f : Op Unit) h = .ok () (f h) :=
    fun _ _ => rfl
  unfold setupRemove at hr
  rw [bind_ok _ (readPairs1_run (hB.pair p hp1 hp))] at hr
  simp only [tokensOn_hashText] at hr
  rw [bind_ok _ (tokenAt_run rfl), bind_ok _ (number_intStr _), if_pos (by omega),
    bind_ok _ (tokenAt_run rfl), bind_ok _ (number_intStr _)] at hr
  obtain ⟨a1, _, e1, hr⟩ := bind_inv hr
  obtain ⟨ha1, rfl⟩ := add_inv e1
  rw [bind_ok _ (hget _), hl.counter_eq] at hr
  obtain ⟨live', _, e3, hr⟩ := bind_inv hr
  obtain ⟨hlv, rfl⟩ := add_inv e3
  have hlv' : live'.val = g.live.val - 1 := hlv
  rw [bind_ok _ (hmodify _ _)] at hr
  by_cases hpos : live'.val > 0
  · rw [if_pos hpos] at hr
    obtain ⟨h4, hr, hO, hU, hL, hS⟩ := setupMoveIf_did hlv' ha1 hr rfl (hl.last (by omega))
    have hfree := hB.free hp1 hp hlv' ha1
    have hslot := hfree.slot live' hpos (by
      have h3 := hfree.live_le
      have h4 := hfree.lat_le
      rw [Ledger.free_live] at h3
      exact h3.trans h4)
    rw [← hO] at hslot
    rw [bind_ok _ (readPairs1_run hslot), tokensOn_hashText, bind_ok _ (tokenAt_run rfl),
      bind_ok _ (number_intStr _)] at hr
    cases hr
    refine ⟨live', a1, _, hlv', ha1, fun _ => rfl, hO, ?_, textOf_put _ _ _, fun v hv => ?_,
      fun v hv => (textOf_put_ne _ _ hv).trans (hL v), hS⟩
    · show textOf h4.UpdtCnt w = _
      rw [hU]
      exact textOf_put _ _ _
    · show textOf h4.UpdtCnt v = _
      rw [hU]
      exact textOf_put_ne _ _ hv
  · -- the last item goes, and its slot is the first one
    have hpl : p = g.live := Subtype.ext (by omega)
    rw [if_neg hpos, hmodify] at hr
    cases hr
    refine ⟨live', a1, _, hlv', ha1, fun h1 => absurd h1 (by omega), ?_, textOf_put _ _ _, rfl,
      fun v hv => textOf_put_ne _ _ hv, fun v hv => ?_, rfl⟩
    · rw [freePairs, if_pos hpl]
      rfl
    · exact congrArg (Option.map _) (AList.lookup_erase_ne hv)

/-- Setup inserts only pairs that are not live. -/
def Loads (calls : List Call) : Call → Prop
  | .insert w z => live calls w z = false
  | _ => True

instance (calls : List Call) : (c : Call) → Decidable (Loads calls c)
  | .insert w z => inferInstanceAs (Decidable (live calls w z = false))
  | .remove _ _ => inferInstanceAs (Decidable True)
  | .search _ => inferInstanceAs (Decidable True)

theorem Loading.next (hI : Loading calls h) {P : FMap 24} {n : CInt} {L : Option Str}
    (hb : SetupBecame h h' c.keyword P n L)
    (hl : Listed (calls ++ [c]) P (some (intStr n.val)) L c.keyword g)
    (hP : ∀ v, v ≠ c.keyword → ∀ p i, P (createBid p v i) = h.setupPairs1 (createBid p v i)) :
    Loading (calls ++ [c]) h' := by
  refine ⟨fun v => ?_, hb.stores.trans hI.stores⟩
  by_cases hv : v = c.keyword
  · subst hv
    rw [hb.pairs1, hb.count, hb.last]
    exact ⟨g, hl⟩
  · obtain ⟨g', hg⟩ := hI.listed v
    refine ⟨g', hg.frame (Ne.symm hv) (fun p i => ?_) (hb.updt v hv) (hb.lasts v hv)⟩
    rw [hb.pairs1, hP v hv]

theorem setupRemove_removed {k : CInt}
    (hz : h.setupPairs1 (createBid 0 w z) = some (removedText k)) :
    setupRemove w z h = .ok () h := by
  have hm : number minusOne h = .ok ⟨-1, by decide⟩ h := by
    rw [show minusOne = intStr (-1) by decide +kernel]
    exact number_intStr ⟨-1, by decide⟩
  unfold setupRemove
  rw [bind_ok _ (readPairs1_run hz)]
  simp only [removedText, tokensOn_removed]
  rw [bind_ok _ (tokenAt_run rfl), bind_ok _ hm, if_neg (by decide)]
  rfl

theorem setupRemove_absent (hz : h.setupPairs1 (createBid 0 w z) = none) :
    ∃ h', setupRemove w z h = .error .stoi h' := by
  have hstop : ∀ h : Client, number [] h = .error .stoi h := fun _ => rfl
  have hread : readPairs1 (createBid 0 w z) h =
      .ok [] { h with setupPairs1 := h.setupPairs1.insert (createBid 0 w z) [] } := by
    have hget : (get : Op Client) h = .ok h h := rfl
    unfold readPairs1
    rw [bind_ok _ hget]
    simp only [find_none hz]
    rfl
  unfold setupRemove
  rw [bind_ok _ hread, bind_ok _ (tokenAt_run (t := []) rfl), bind_error _ (hstop _)]
  exact ⟨_, rfl⟩

/-- **Every setup call that succeeds** keeps them too. -/
theorem setupStep_loading (hI : Loading calls h) (hc : Loads calls c)
    (hr : setupStep h c = some h') : Loading (calls ++ [c]) h' := by
  cases c with
  | insert w z =>
    obtain ⟨g, hl⟩ := hI.listed w
    have hz : ¬ g.Has z := fun hh => by
      have := (hl.has z).mp hh
      rw [hc] at this
      cases this
    simp only [setupStep, finished] at hr
    split at hr
    · next e =>
      cases hr
      obtain ⟨i0, hi, hb⟩ := setupInsert_did hl e
      refine hI.next hb (hl.put hz hi (le_refl _)) fun v hv p i => ?_
      have hvw : v ≠ w := hv
      simp [FMap.insert_apply, hvw]
    · cases hr
  | remove w z =>
    obtain ⟨g, hl⟩ := hI.listed w
    simp only [setupStep, finished] at hr
    split at hr
    · next e =>
      cases hr
      by_cases hz : g.Has z
      · obtain ⟨p, hp1, hp2, rfl⟩ := hz
        obtain ⟨live', a1, L, hlv, ha, hL, hb⟩ := setupRemove_did hl hp1 hp2 e
        exact hI.next hb (hl.free hp1 hp2 hlv ha hL) fun v hv p i => freePairs_frame _ hv p i
      · have hdead : live calls w z = false := eq_false_of_ne_true fun e => hz ((hl.has z).mpr e)
        by_cases hmem : Call.insert w z ∈ calls
        · obtain ⟨k, hk⟩ := hl.removed hmem hz
          rw [setupRemove_removed hk] at e
          cases e
          refine ⟨fun v => ?_, hI.stores⟩
          obtain ⟨g', hg⟩ := hI.listed v
          by_cases hv : v = w
          · subst hv
            exact ⟨g', hg.idle (liveAfter_of_dead hdead) fun y e => by cases e⟩
          · exact ⟨g', hg.frame (Ne.symm hv) (fun _ _ => rfl) rfl rfl⟩
        · have hnone := Option.not_isSome_iff_eq_none.mp fun e => hmem ((hl.stored z).mp e)
          obtain ⟨h2, e2⟩ := setupRemove_absent hnone
          rw [e2] at e
          cases e
    · cases hr
  | search w => cases hr

theorem loadCnt_textOf {t : Cnt} {m : Table Kw CInt} {pairs : FMap 24}
    (hp : pairs (getBid w t) = none) : loadCnt t m pairs (getBid w t) = textOf m w := by
  cases hm : m.lookup w with
  | some c => rw [loadCnt_self _ hm, textOf, hm, Option.map_some]
  | none => rw [loadCnt_other _ _ (.inr hm), hp, textOf, hm, Option.map_none]

theorem Loading.endSetup (hI : Loading calls h) : Online calls (endSetup h) := fun v => by
  obtain ⟨g, hg⟩ := hI.listed v
  refine ⟨g, ?_⟩
  have hU : (Horus.endSetup h).CNTs (getBid v .UpdtCnt) = textOf h.UpdtCnt v := by
    rw [endSetup_cnts hI.stores, loadCnt_other _ _ (.inl (by decide)),
      loadCnt_other _ _ (.inl (by decide)), loadCnt_other _ _ (.inl (by decide)),
      loadCnt_textOf rfl]
  have hL : (Horus.endSetup h).CNTs (getBid v .LastIND) = textOf h.LastIND v := by
    rw [endSetup_cnts hI.stores, loadCnt_textOf]
    rw [loadCnt_other _ _ (.inl (by decide)), loadCnt_other _ _ (.inl (by decide)),
      loadCnt_other _ _ (.inl (by decide))]
  rw [hU, hL]
  exact hg.congr (endSetup_updt hI.stores)

end

/-! ## Reachable states -/

/-- `h` is reached by the setup calls `pre` and the online calls `post`, none of which fails;
without setup calls `endSetup` may be left out. -/
def Reached (pre post : List Call) (h : Client) : Prop :=
  Each Loads pre ∧ (splitRun pre post = some h ∨ (pre = [] ∧ run step Client.init post = some h))

/-- The result of a search after the calls `more`, when none of them fails. -/
def laterResult (h : Client) (more : List Call) (v : Kw) : Option (List CInt) :=
  (run step h more).bind fun h' => (finished (search v) h').map Prod.fst

/-- The removal raises no exception and changes no later result. -/
def Harmless (h : Client) (w : Kw) (z : CInt) : Prop :=
  ∃ h', remove w z h = .ok () h' ∧ ∀ more v, laterResult h' more v = laterResult h more v

section

variable {pre post : List Call} {h : Client} {w : Kw} {z : CInt}

theorem Reached.online (hr : Reached pre post h) : Online (pre ++ post) h := by
  have hpost : ∀ {h0 : Client}, Online pre h0 → run step h0 post = some h →
      Online (pre ++ post) h := fun h0 hrun =>
    run_keeps (fun p h => Online (pre ++ p) h) (by rwa [List.append_nil]) hrun
      fun p c t u _ hI hs => by
        rw [← List.append_assoc]
        exact step_online hI hs
  obtain ⟨hload, hr | ⟨rfl, hr⟩⟩ := hr
  · obtain ⟨h1, hr1, hr2⟩ := Option.bind_eq_some_iff.mp hr
    have hI := run_keeps Loading loading_init hr1 fun p c t u hp hI hs =>
      setupStep_loading hI (hload.of_prefix hp) hs
    exact hpost hI.endSetup hr2
  · exact hpost online_init hr

/-- **A removal of an absent pair** is harmless when the pair was inserted before, and fails
otherwise. -/
theorem Reached.remove_dead (hr : Reached pre post h) (hz : live (pre ++ post) w z = false) :
    Harmless h w z ↔ Call.insert w z ∈ pre ++ post := by
  obtain ⟨g, hl⟩ := hr.online w
  have hn : ¬ g.Has z := fun hh => by
    have := (hl.has z).mp hh
    rw [hz] at this
    cases this
  constructor
  · rintro ⟨h', hok, -⟩
    by_contra hmem
    have hnone := Option.not_isSome_iff_eq_none.mp fun e => hmem ((hl.stored z).mp e)
    rw [remove_absent hnone] at hok
    cases hok
  · intro hmem
    obtain ⟨k, hk⟩ := hl.removed hmem hn
    exact ⟨h, remove_removed hk, fun _ _ => rfl⟩

/-- **A search of an absent keyword** fails. -/
theorem Reached.search_unknown (hr : Reached pre post h) (hw : inserted (pre ++ post) w = false) :
    search w h = .error .stoi h := by
  obtain ⟨g, hl⟩ := hr.online w
  have hcount := hl.count
  rw [if_neg (by rw [hw]; decide)] at hcount
  have hstop : number [] h = .error .stoi h := rfl
  unfold search
  rw [bind_ok _ (findCnt_run _), find_none hcount, bind_error _ hstop]

theorem remove_step_result {h' : Client} (hr : remove w z h = .ok () h') (more : List Call) (v : Kw) :
    laterResult h (.remove w z :: more) v = laterResult h' more v := by
  rw [laterResult, run_cons, step_remove hr]
  rfl

end

/-! ## A pair loaded twice -/

/-- Setup that inserts a live pair again: it takes two slots, and a removal frees one. -/
def loadedTwice : List Call :=
  let z : CInt := cint 2
  [.insert kwA one, .insert kwA z, .insert kwA z, .remove kwA z, .remove kwA one]

/-- The pair was removed last, but is found again and removed again. -/
theorem loadedTwice_harmful : ¬ Each Loads loadedTwice ∧ live loadedTwice kwA ⟨2, by decide⟩ = false ∧
    ∀ h, splitRun loadedTwice [] = some h → ¬ Harmless h kwA ⟨2, by decide⟩ := by
  refine ⟨by decide, by decide, fun h hr ⟨h', hok, hlater⟩ => ?_⟩
  have h1 : ((splitRun loadedTwice []).bind fun h => laterResult h [] kwA) =
    some [⟨2, by decide⟩] := by decide +kernel
  have h2 : ((splitRun loadedTwice []).bind fun h =>
    laterResult h [.remove kwA ⟨2, by decide⟩] kwA) = some [] := by decide +kernel
  rw [hr, Option.bind_some] at h1 h2
  rw [remove_step_result hok, hlater, h1] at h2
  cases h2

end SmallClientSSE.Horus
