import Mathlib.Algebra.Order.Pi
import Mathlib.Algebra.Order.Sub.Prod
import SmallClientSSE.Horus.Exact
import SmallClientSSE.Horus.Space

/-!
# The blocks that Horus takes

`Costs x y h c`: from the client `h` the metered `x` does what `y` does and takes `c`
blocks, or it finds no block when fewer are free.
-/

namespace SmallClientSSE.Horus.Space

open Lib Lib.Effect

variable {α β : Type}

/-! ## Costs -/

/-- The outcome of the unbounded client, with the blocks left. -/
def charge (free : Store → Nat) : EStateM.Result Fault Client α → EStateM.Result Failure Metered α
  | .ok a h => .ok a ⟨h, free⟩
  | .error e h => .error (.fault e) ⟨h, free⟩

structure Costs (x : MOp α) (y : Op α) (h : Client) (c : Store → Nat) : Prop where
  paid : ∀ free, c ≤ free → x ⟨h, free⟩ = charge (free - c) (y h)
  short : ∀ free, ¬ c ≤ free → ∃ m, x ⟨h, free⟩ = .error .noSpace m

section

variable {x : MOp α} {y : Op α} {h h' : Client} {c c' : Store → Nat} {a : α} {f : α → MOp β}
  {g : α → Op β}

theorem Costs.bind (hx : Costs x y h c) (hy : y h = .ok a h') (hf : Costs (f a) (g a) h' c') :
    Costs (x >>= f) (y >>= g) h (c + c') where
  paid free hle := by
    have h1 : c ≤ free := le_trans le_self_add hle
    have h2 : c' ≤ free - c := le_tsub_of_add_le_left hle
    have hx1 := hx.paid free h1
    rw [hy] at hx1
    rw [bind_ok _ hx1, bind_ok _ hy, hf.paid _ h2, tsub_tsub]
  short free hle := by
    by_cases h1 : c ≤ free
    · have h2 : ¬ c' ≤ free - c := fun h2 => hle ((le_tsub_iff_left h1).mp h2)
      obtain ⟨m, hm⟩ := hf.short _ h2
      have hx1 := hx.paid free h1
      rw [hy] at hx1
      exact ⟨m, (bind_ok _ hx1).trans hm⟩
    · obtain ⟨m, hm⟩ := hx.short free h1
      exact ⟨m, bind_error _ hm⟩

theorem Costs.bind_free (hx : Costs x y h 0) (hy : y h = .ok a h') (hf : Costs (f a) (g a) h' c) :
    Costs (x >>= f) (y >>= g) h c := by
  have := hx.bind hy hf
  rwa [zero_add] at this

theorem Costs.fail {e : Fault} (hx : Costs x y h c) (hy : y h = .error e h') :
    Costs (x >>= f) (y >>= g) h c where
  paid free hle := by
    have hx1 := hx.paid free hle
    rw [hy] at hx1
    rw [bind_error _ hx1, bind_error _ hy]
    rfl
  short free hle := by
    obtain ⟨m, hm⟩ := hx.short free hle
    exact ⟨m, bind_error _ hm⟩

theorem costs_lift (y : Op α) (h : Client) : Costs (lift y) y h 0 where
  paid free _ := by
    unfold lift charge
    cases y h <;> simp
  short free hle := absurd (fun _ => Nat.zero_le _) hle

theorem Costs.lift_bind (hy : y h = .ok a h') (hf : Costs (f a) (g a) h' c) :
    Costs (lift y >>= f) (y >>= g) h c := (costs_lift y h).bind_free hy hf

theorem Costs.lift_fail {e : Fault} (hy : y h = .error e h') :
    Costs (lift y >>= f) (y >>= g) h 0 := (costs_lift y h).fail hy

theorem Costs.reads (hy : Reads Eq y) (hf : ∀ a, Costs (f a) (g a) h 0) :
    Costs (lift y >>= f) (y >>= g) h 0 := by
  rcases hy h h rfl with ⟨a, ha, -⟩ | ⟨e, he, -⟩
  · exact .lift_bind ha (hf a)
  · exact .lift_fail he

theorem costs_pure (a : α) (h : Client) : Costs (pure a) (pure a) h 0 := costs_lift (pure a) h

theorem Costs.congr {y' : Op α} (hx : Costs x y h c) (hy : y h = y' h) : Costs x y' h c :=
  ⟨fun free hle => hy ▸ hx.paid free hle, hx.short⟩

theorem Costs.of_eq (hx : Costs x y h c) (hc : c = c') : Costs x y h c' := hc ▸ hx

theorem Costs.then_pure (hx : Costs x y h c) (b : β) :
    Costs (x >>= fun _ => pure b) (y >>= fun _ => pure b) h c := by
  cases hy : y h with
  | ok a h' =>
    rw [← add_zero c]
    exact hx.bind hy (costs_pure b h')
  | error e h' => exact hx.fail hy

end

/-! ## Stores -/

section

variable {h : Client}

/-- Blocks of the three stores. -/
def blocks (updt cnts srch : Nat) : Store → Nat
  | .OMAP_updt => updt
  | .CNTs => cnts
  | .ORAM_srch => srch

@[simp] theorem blocks_add (a b c a' b' c' : Nat) :
    blocks a b c + blocks a' b' c' = blocks (a + a') (b + b') (c + c') := by
  funext s
  cases s <;> rfl

theorem blocks_zero : blocks 0 0 0 = 0 := by
  funext s
  cases s <;> rfl

/-- One for a key that is new to `m`. -/
def absent (m : FMap 24) (key : Bid 24) : Nat := if (m key).isSome then 0 else 1

theorem costs_reduceEmpty (s : Store) (h : Client) :
    Costs (reduceEmpty s) (pure ()) h (Pi.single s 1) where
  paid free hle := by
    have hpos : free s > 0 := lt_of_lt_of_le (by simp) (hle s)
    have hleft : Function.update free s (free s - 1) = free - Pi.single s 1 := by
      funext r
      by_cases hr : r = s
      · subst hr
        simp
      · simp [hr]
    rw [reduceEmpty, if_pos hpos, hleft]
    rfl
  short free hle := by
    refine ⟨⟨h, free⟩, ?_⟩
    rw [reduceEmpty, if_neg]
    intro hpos
    refine hle fun r => ?_
    by_cases hr : r = s
    · subst hr
      rw [Pi.single_eq_same]
      exact hpos
    · simp [hr]

/-- A step that needs a block for a new key. -/
theorem costs_fresh (s : Store) (present : Bool) (y : Op Unit) :
    Costs (if present then lift y else do reduceEmpty s; lift y) y h
      (Pi.single s (if present then 0 else 1)) := by
  cases present with
  | true => exact (costs_lift y h).of_eq (by simp)
  | false =>
    exact ((costs_reduceEmpty s h).bind (g := fun _ => y) rfl (costs_lift y h)).of_eq (add_zero _)

theorem single_updt (k : Nat) : (Pi.single .OMAP_updt k : Store → Nat) = blocks k 0 0 := by
  funext s
  cases s <;> rfl

theorem single_cnts (k : Nat) : (Pi.single .CNTs k : Store → Nat) = blocks 0 k 0 := by
  funext s
  cases s <;> rfl

theorem single_srch (k : Nat) : (Pi.single .ORAM_srch k : Store → Nat) = blocks 0 0 k := by
  funext s
  cases s <;> rfl

theorem costs_insertUpdt (key : Bid 24) (value : Str) :
    Costs (insertUpdt key value) (Horus.insertUpdt key value) h
      (blocks (absent h.OMAP_updt key) 0 0) := by
  rw [← single_updt]
  exact ⟨fun free hle => (costs_fresh _ _ _).paid free hle,
    fun free hle => (costs_fresh _ _ _).short free hle⟩

theorem costs_insertCnt (key : Bid 24) (value : Str) :
    Costs (insertCnt key value) (Horus.insertCnt key value) h
      (blocks 0 (absent h.CNTs key) 0) := by
  rw [← single_cnts]
  exact ⟨fun free hle => (costs_fresh _ _ _).paid free hle,
    fun free hle => (costs_fresh _ _ _).short free hle⟩

theorem costs_writeBox (key : Bid 24) (value : Str) :
    Costs (writeBox key value) (Horus.writeBox key value) h (blocks 0 0 1) := by
  rw [← single_srch]
  exact costs_fresh .ORAM_srch false _

def writeAll (items : List (Bid 24 × Str)) : Op Unit := fun h =>
  .ok () { h with ORAM_srch := items.foldl (fun m e => m.insert e.1 e.2) h.ORAM_srch }

theorem costs_batchWrite : ∀ (items : List (Bid 24 × Str)) (h : Client),
    Costs (batchWrite items) (writeAll items) h (blocks 0 0 items.length)
  | [], h => (costs_pure () h).of_eq blocks_zero.symm
  | (key, value) :: items, h => by
    have hfirst := (costs_writeBox key value).bind (f := fun _ => batchWrite items)
      (g := fun _ => writeAll items) (writeBox_run (h := h) key value) (costs_batchWrite items _)
    refine (hfirst.congr rfl).of_eq ?_
    rw [blocks_add, List.length_cons, add_comm 1]

/-- The entries of a query, written one by one, are the query. -/
theorem foldl_entries (q m : FMap 24) :
    (entries q).foldl (fun m e => m.insert e.1 e.2) m = m.setupInsert q := by
  have hfold : ∀ (ks : List (Bid 24)) (m : FMap 24) (k : Bid 24),
      (ks.map fun k => (k, q.find k)).foldl (fun m e => m.insert e.1 e.2) m k =
        if k ∈ ks then some (q.find k) else m k := fun ks => by
    induction ks with
    | nil => exact fun m k => by simp
    | cons j ks ih =>
      intro m k
      rw [List.map_cons, List.foldl_cons, ih, FMap.insert_apply]
      by_cases hk : k ∈ ks
      · simp [hk]
      · by_cases hj : k = j <;> simp [hk, hj]
  funext k
  rw [entries, hfold, FMap.setupInsert]
  cases hk : q k <;> simp [hk, FMap.find]

end

/-! ## Insertion -/

/-- How many of the counters `ts` of `w` are absent. -/
def missing (h : Client) (w : Kw) (ts : List Cnt) : Nat :=
  (ts.map fun t => absent h.CNTs (getBid w t)).sum

section

variable {h : Client} {w : Kw} {g : Ledger} {C : FMap 24} {k : Bid 24}

theorem absent_some {m : FMap 24} {v : Str} (hk : m k = some v) : absent m k = 0 := by
  simp [absent, hk]

theorem costs_insertCounters (ho : Opened h w g) (hl : g.live.val + 1 < 2 ^ 31) :
    Costs (insertCounters w) (Horus.insertCounters w) h
      (blocks 0 (missing h w [.UpdtCnt, .latestUpdatedCounter, .SrchCnt]) 0) := by
  rcases ho with he | ⟨hb, rfl⟩
  · obtain ⟨h1, h2, h3, h4, h5, -⟩ := he.counters
    have hin : InInt (g.live.val + 1) := ⟨by have := he.holds.live_nonneg; omega, hl⟩
    have hne : intStr g.live.val ≠ [] := intStr_ne_nil _
    have hzero : missing h w [.UpdtCnt, .latestUpdatedCounter, .SrchCnt] = 0 := by
      simp [missing, absent_some h1, absent_some h2, absent_some (h5 rfl)]
    rw [hzero, blocks_zero]
    unfold insertCounters Horus.insertCounters
    refine .lift_bind (changeCnt_run h1 hin) ?_
    rw [if_neg hne, if_neg hne]
    refine .lift_bind (number_intStr _) (.lift_bind (findCnt_run _) (.lift_bind
      (number_find (z := g.src) ?_) (.lift_bind (findCnt_run _) (.lift_bind
        (number_find (z := g.lat) ?_) (costs_pure _ _)))))
    · simpa [FMap.insert_apply] using h2
    · simpa [FMap.insert_apply] using h5 rfl
  · unfold insertCounters Horus.insertCounters
    refine .lift_bind (changeCnt_absent (hb.cnts _)) ?_
    rw [if_pos rfl, if_pos rfl]
    refine Costs.of_eq ((costs_insertCnt _ _).bind (insertCnt_run _ _) ((costs_insertCnt _ _).bind
      (insertCnt_run _ _) ((costs_insertCnt _ _).bind (insertCnt_run _ _) (costs_pure _ _)))) ?_
    simp [missing, absent, FMap.insert_apply, hb.cnts, ← blocks_zero]

theorem costs_accessCounter (ho : Opened h w g)
    (hC : C (getBid w .Access) = h.CNTs (getBid w .Access)) :
    Costs (accessCounter w) (Horus.accessCounter w) { h with CNTs := C }
      (blocks 0 (absent h.CNTs (getBid w .Access)) 0) := by
  unfold accessCounter Horus.accessCounter
  refine .lift_bind (findCnt_run _) ?_
  rcases ho with he | ⟨hb, rfl⟩
  · have h3 := hC.trans he.counters.access
    simp only [find_some h3]
    rw [if_neg (intStr_ne_nil _), if_neg (intStr_ne_nil _), absent_some he.counters.access,
      blocks_zero]
    exact costs_lift _ _
  · have h3 := hC.trans (hb.cnts .Access)
    simp only [find_none h3, if_true]
    refine Costs.of_eq ((costs_insertCnt _ _).bind (insertCnt_run _ _) (costs_pure _ _)) ?_
    simp [absent, h3, hb.cnts, ← blocks_zero]

theorem costs_raiseAccess (a b : CInt) (hC : (h.CNTs (getBid w .Access)).isSome) :
    Costs (raiseAccess w a b) (Horus.raiseAccess w a b) h 0 := by
  unfold raiseAccess Horus.raiseAccess
  split
  · refine (costs_insertCnt _ _).of_eq ?_
    rw [absent, if_pos hC, blocks_zero]
  · exact costs_pure _ _

theorem costs_nextAccess (hH : Holds h.OMAP_updt h.ORAM_srch w g)
    (hacc : g.access.val + 1 < 2 ^ 31)
    (hC : h.CNTs (getBid w .Access) = some (intStr g.access.val)) (i0 : CInt) (hi : 1 ≤ i0.val) :
    Costs (nextAccess w i0 g.access) (Horus.nextAccess w i0 g.access) h 0 := by
  unfold nextAccess Horus.nextAccess
  refine .lift_bind (findUpdt_run _) ?_
  by_cases ht : i0.val ≤ g.top.val
  · have hslot := hH.slot i0 hi ht
    have h1 := hH.acc_pos i0 hi ht
    have h2 := hH.acc_le i0 hi ht
    have hin : InInt ((g.acc i0).val + 1) := ⟨by omega, by omega⟩
    obtain ⟨C', hrun, -⟩ := raiseAccess_run g.access ⟨_, hin⟩ hC
    simp only [find_some hslot, if_neg (hashText_ne_nil _ _), tokensOn_hashText]
    refine .lift_bind (tokenAt_run rfl) (.lift_bind (number_intStr _) (.lift_bind (add_ok hin) ?_))
    rw [← add_zero (0 : Store → Nat)]
    exact (costs_raiseAccess _ _ (by rw [hC]; rfl)).bind hrun (costs_pure _ _)
  · simp only [find_none (hH.unused i0 (by omega)), if_true]
    exact costs_pure _ _

theorem costs_countNew (i0 a0 : CInt) (hl : g.lat.val + 1 < 2 ^ 31) (hl0 : 0 ≤ g.lat.val)
    (hC : h.CNTs (getBid w .latestUpdatedCounter) = some (intStr g.lat.val)) :
    Costs (countNew w i0 g.src a0 g.lat) (Horus.countNew w i0 g.src a0 g.lat) h
      (blocks 0 0 (if g.lat.val < i0.val ∧ 1 < a0.val then 1 else 0)) := by
  unfold countNew Horus.countNew
  have hin : InInt (g.lat.val + 1) := ⟨by omega, hl⟩
  by_cases hlt : g.lat.val < i0.val
  · rw [if_pos (Subtype.coe_lt_coe.mp hlt), if_pos (Subtype.coe_lt_coe.mp hlt)]
    refine .lift_bind (add_ok hin) ?_
    refine Costs.of_eq ((costs_insertCnt _ _).bind (insertCnt_run _ _)
      (show Costs _ _ _ (blocks 0 0 (if 1 < a0.val then 1 else 0)) from ?_)) ?_
    · by_cases ha : 1 < a0.val
      · rw [if_pos ha, if_pos ha, if_pos ha]
        exact costs_writeBox _ _
      · rw [if_neg ha, if_neg ha, if_neg ha, blocks_zero]
        exact costs_pure _ _
    · simp [absent_some hC, hlt]
  · have hno : ¬ g.lat < i0 := fun e => hlt (Subtype.coe_lt_coe.mpr e)
    rw [if_neg hno, if_neg hno, if_neg fun e => hlt e.1, blocks_zero]
    exact costs_pure _ _

def counters : List Cnt := [.UpdtCnt, .latestUpdatedCounter, .SrchCnt, .Access, .LastIND]

/-- **Inserting a pair that is not live** takes a block for each counter, pair and slot that is
new, and one or two boxes. -/
theorem costs_insert (ho : Opened h w g) {z i0 : CInt} (hz : ¬ g.Has z)
    (hi0 : i0.val = g.live.val + 1) (hlat : g.lat.val + 1 < 2 ^ 31)
    (hacc : g.access.val + 1 < 2 ^ 31) :
    Costs (insert w z) (Horus.insert w z) h
      (blocks (absent h.OMAP_updt (createBid 0 w z) + absent h.OMAP_updt (createBid 1 w i0))
        (missing h w counters)
        (1 + if g.live = g.lat ∧ (h.OMAP_updt (createBid 1 w i0)).isSome then 1 else 0)) := by
  have hH := ho.holds
  have h1 := hH.live_nonneg
  have h2 := hH.live_le
  have h3 := hH.lat_le
  obtain ⟨C1, hr1, hU1, hS1, hL1, hF1⟩ := insertCounters_run ho (by omega)
  obtain ⟨C2, hr2, hA2, hF2⟩ := accessCounter_run ho (hF1 w .Access (.inr (by simp)))
  have hin : InInt (g.live.val + 1) := ⟨by omega, by omega⟩
  obtain ⟨a0, C3, hr3, ha1, hale, hastep, hafirst, hA3, hF3⟩ := nextAccess_run
    (h := { h with CNTs := C2 }) hH hacc hA2 i0 (by omega)
  have hother : ∀ t, t ≠ .Access → C3 (getBid w t) = C1 (getBid w t) := fun t ht => by
    rw [hF3 _ _ (.inr ht)]
    exact hF2 _ _ (.inr ht)
  have hL3 : C3 (getBid w .latestUpdatedCounter) = some (intStr g.lat.val) :=
    (hother _ (by decide)).trans hL1
  obtain ⟨C5, B, hr5, hL5, hF5, hB⟩ := countNew_run (w := w) (g := g)
    (h := { h with
      CNTs := C3
      OMAP_updt := (h.OMAP_updt.insert (createBid 0 w z) (hashText i0 a0)).insert (createBid 1 w i0)
        (hashText z a0)
      ORAM_srch := h.ORAM_srch.insert (oramBid w i0 g.src a0) (intStr z.val) })
    i0 a0 hlat (by omega) hL3
  have hsame : (⟨_, hin⟩ : CInt) = i0 := Subtype.ext hi0.symm
  -- the slot was used before exactly when its accesses go on
  have hused : (g.lat.val < i0.val ∧ 1 < a0.val) ↔
      (g.live = g.lat ∧ (h.OMAP_updt (createBid 1 w i0)).isSome) := by
    refine and_congr ⟨fun e => Subtype.ext (by omega), fun e => by rw [← e]; omega⟩ ?_
    by_cases ht : i0.val ≤ g.top.val
    · have := hH.acc_pos i0 (by omega) ht
      have := hastep ht
      simp only [hH.slot i0 (by omega) ht, Option.isSome_some, iff_true]
      omega
    · rw [hafirst (by omega), hH.unused i0 (by omega)]
      simp
  have hlast : C5 (getBid w .LastIND) = h.CNTs (getBid w .LastIND) := by
    rw [hF5 _ _ (.inr (by decide))]
    exact (hother _ (by decide)).trans (hF1 _ _ (.inr (by decide)))
  unfold insert Horus.insert
  apply Costs.of_eq
  · apply Costs.lift_bind (findUpdt_run _)
    rw [if_pos (hH.dead_find hz), if_pos (hH.dead_find hz)]
    apply (costs_insertCounters ho (by omega)).bind hr1
    dsimp only
    apply (costs_accessCounter ho (hF1 w .Access (.inr (by simp)))).bind hr2
    apply Costs.lift_bind (add_ok hin)
    rw [hsame]
    apply (costs_nextAccess (h := { h with CNTs := C2 }) hH hacc hA2 i0 (by omega)).bind hr3
    apply (costs_insertUpdt _ _).bind (insertUpdt_run _ _)
    apply (costs_insertUpdt _ _).bind (insertUpdt_run _ _)
    apply (costs_writeBox _ _).bind (writeBox_run _ _)
    exact (costs_countNew i0 a0 hlat (by omega) hL3).bind hr5 (costs_insertCnt _ _)
  · have hslot : absent (h.OMAP_updt.insert (createBid 0 w z) (hashText i0 a0)) (createBid 1 w i0) =
        absent h.OMAP_updt (createBid 1 w i0) := by
      rw [absent, FMap.insert_of_ne _ fun e => absurd (createBid_inj.mp e).1 (by decide), absent]
    have hend : absent C5 (getBid w .LastIND) = absent h.CNTs (getBid w .LastIND) := by
      rw [absent, hlast, absent]
    simp only [hslot, hend, hused, blocks_add, ← blocks_zero, zero_add, add_zero, missing, counters,
      List.map_cons, List.map_nil, List.sum_cons, List.sum_nil, add_assoc]

theorem costs_insert_live {B : FMap 24} (hH : Holds h.OMAP_updt B w g) {z : CInt}
    (hz : g.Has z) : Costs (insert w z) (Horus.insert w z) h 0 := by
  unfold insert Horus.insert
  apply Costs.lift_bind (findUpdt_run _)
  rw [if_neg (hH.live_find hz), if_neg (hH.live_find hz)]
  exact costs_pure _ _

/-! ## Removal -/

theorem costs_moveLast {p a : CInt} (ha : InInt (a.val + 1))
    (hC : h.CNTs (getBid w .Access) = some (intStr g.access.val))
    (hpair : (h.OMAP_updt (createBid 0 w (g.ind g.live))).isSome)
    (hslot : (h.OMAP_updt (createBid 1 w p)).isSome) :
    Costs (moveLast w p a g.src (g.ind g.live)) (Horus.moveLast w p a g.src (g.ind g.live)) h
      (blocks 0 0 1) := by
  obtain ⟨C, hr, -, -⟩ := raiseAccess_run g.access ⟨_, ha⟩ hC
  unfold moveLast Horus.moveLast
  apply Costs.of_eq
  · apply Costs.lift_bind (add_ok ha)
    apply Costs.lift_bind (findCnt_run _)
    apply Costs.lift_bind (number_find hC)
    apply (costs_raiseAccess _ _ (by rw [hC]; rfl)).bind hr
    apply (costs_writeBox _ _).bind (writeBox_run _ _)
    exact (costs_insertUpdt _ _).bind (insertUpdt_run _ _) (costs_insertUpdt _ _)
  · have h1 : absent h.OMAP_updt (createBid 0 w (g.ind g.live)) = 0 := if_pos hpair
    have h2 : ∀ v, absent (h.OMAP_updt.insert (createBid 0 w (g.ind g.live)) v)
        (createBid 1 w p) = 0 := fun v => if_pos (isSome_insert _ _ _ hslot)
    simp [h1, h2]

theorem costs_relast (n : CInt) (hL : (h.CNTs (getBid w .LastIND)).isSome) :
    Costs
      (do
        let resStr ← lift (findUpdt (createBid 1 w n))
        let lastind ← lift (number (← lift (tokenAt (tokensOn hash resStr) 0)))
        insertCnt (getBid w .LastIND) (intStr lastind.val))
      (do
        let resStr ← findUpdt (createBid 1 w n)
        let lastind ← number (← tokenAt (tokensOn hash resStr) 0)
        Horus.insertCnt (getBid w .LastIND) (intStr lastind.val)) h 0 := by
  refine .reads (reads_findUpdt fun _ _ e => by rw [e]) fun _ => .reads (reads_tokenAt _ _)
    fun _ => .reads (reads_number _) fun _ => (costs_insertCnt _ _).of_eq ?_
  rw [absent, if_pos hL, blocks_zero]

/-- **Removing a live pair** takes a box unless it is the last one. -/
theorem costs_remove {known : Bool} (he : Entry h w g known) {p : CInt} (hp1 : 1 ≤ p.val)
    (hp : p.val ≤ g.live.val) (hacc : g.access.val + 1 < 2 ^ 31) :
    Costs (remove w (g.ind p)) (Horus.remove w (g.ind p)) h
      (blocks 0 0 (if p = g.live then 0 else 1)) := by
  have hH := he.holds
  obtain ⟨hU, hS, hA, hLast, -, -⟩ := he.counters
  have hle := hH.live_le
  have hlat := hH.lat_le
  have h1 := hH.acc_pos p hp1 (by omega)
  have h2 := hH.acc_le p hp1 (by omega)
  have hnext : InInt ((g.acc p).val + 1) := ⟨by omega, by omega⟩
  have hlive := g.live.2
  have hdec : InInt (g.live.val + -1) := ⟨by omega, by have := hlive.2; omega⟩
  have hp0 := hH.pair p hp1 hp
  have hL := hLast (by omega)
  have hcut : ∀ t, t ≠ .UpdtCnt → h.CNTs.insert (getBid w .UpdtCnt) (intStr (g.live.val + -1))
      (getBid w t) = h.CNTs (getBid w t) := fun t ht =>
    FMap.insert_of_ne _ fun e => ht (getBid_inj.mp e).2
  have hcount := changeCnt_run (h := { h with
    OMAP_updt := h.OMAP_updt.insert (createBid 0 w (g.ind p))
      (minusOne ++ hash :: intStr (⟨_, hnext⟩ : CInt).val) }) hU hdec
  unfold remove Horus.remove
  apply Costs.lift_bind (findUpdt_run _)
  simp only [find_some hp0, tokensOn_hashText]
  apply Costs.lift_bind (tokenAt_run rfl)
  apply Costs.lift_bind (number_intStr _)
  rw [if_pos (by omega), if_pos (by omega)]
  apply Costs.lift_bind (tokenAt_run rfl)
  apply Costs.lift_bind (number_intStr _)
  apply Costs.lift_bind (add_ok hnext)
  have hpair : Costs (insertUpdt (createBid 0 w (g.ind p))
      (minusOne ++ hash :: intStr (⟨_, hnext⟩ : CInt).val)) (Horus.insertUpdt _ _) h 0 :=
    (costs_insertUpdt _ _).of_eq (by rw [absent_some hp0, blocks_zero])
  apply hpair.bind_free (insertUpdt_run _ _)
  apply Costs.lift_bind hcount
  apply Costs.lift_bind (number_intStr _)
  apply Costs.lift_bind (add_ok hdec)
  have hlast : (h.CNTs.insert (getBid w .UpdtCnt) (intStr (g.live.val + -1))
      (getBid w .LastIND)).isSome := by rw [hcut _ (by decide), hL]; rfl
  by_cases hpos : 0 < g.live.val + -1
  · rw [if_pos hpos, if_pos hpos]
    apply Costs.lift_bind (findCnt_run _)
    apply Costs.lift_bind (number_find (z := g.src) ((hcut _ (by decide)).trans hS))
    apply Costs.lift_bind (findCnt_run _)
    apply Costs.lift_bind (number_find (z := g.ind g.live) ((hcut _ (by decide)).trans hL))
    dsimp only
    by_cases hpl : p = g.live
    · have hsame : ¬ (g.live.val + -1 + 1 ≠ p.val) := by rw [hpl]; omega
      rw [if_neg hsame, if_neg hsame, if_pos hpl, blocks_zero]
      exact costs_relast _ hlast
    · have hne : g.live.val + -1 + 1 ≠ p.val := fun e => hpl (Subtype.ext (by omega))
      rw [if_pos hne, if_pos hne, if_neg hpl]
      obtain ⟨m, hm⟩ : ∃ m : Client, m = { h with
        OMAP_updt := h.OMAP_updt.insert (createBid 0 w (g.ind p))
          (minusOne ++ hash :: intStr (⟨_, hnext⟩ : CInt).val)
        CNTs := h.CNTs.insert (getBid w .UpdtCnt) (intStr (g.live.val + -1)) } := ⟨_, rfl⟩
      have hA' : m.CNTs (getBid w .Access) = some (intStr g.access.val) := by
        rw [hm]
        exact (hcut .Access (by decide)).trans hA
      have hP0 : (m.OMAP_updt (createBid 0 w (g.ind g.live))).isSome := by
        have hs : (h.OMAP_updt (createBid 0 w (g.ind g.live))).isSome := by
          rw [hH.pair g.live (by omega) (le_refl _)]
          rfl
        rw [hm]
        exact isSome_insert _ (createBid 0 w (g.ind p))
          (minusOne ++ hash :: intStr (⟨_, hnext⟩ : CInt).val) hs
      have hP1 : (m.OMAP_updt (createBid 1 w p)).isSome := by
        have hs : (h.OMAP_updt (createBid 1 w p)).isSome := by
          rw [hH.slot p hp1 (by omega)]
          rfl
        rw [hm]
        exact isSome_insert _ (createBid 0 w (g.ind p))
          (minusOne ++ hash :: intStr (⟨_, hnext⟩ : CInt).val) hs
      rw [← hm, ← add_zero (blocks 0 0 1)]
      obtain ⟨C', hr, -, hF⟩ := moveLast_run (p := p) hnext hA'
      have hlast' : (C' (getBid w .LastIND)).isSome := by
        rw [hF w .LastIND (.inr (by decide)), hm]
        exact hlast
      apply (costs_moveLast hnext hA' hP0 hP1).bind hr
      exact costs_relast _ hlast'
  · rw [if_neg hpos, if_neg hpos, if_pos (Subtype.ext (by omega))]
    exact (costs_insertCnt _ _).of_eq (by rw [absent, if_pos hlast])

/-- Removing a pair that is not live takes nothing and changes nothing. -/
theorem costs_remove_dead {B : FMap 24} (hH : Holds h.OMAP_updt B w g) {z : CInt}
    (hz : ¬ g.Has z) :
    Costs (remove w z) (Horus.remove w z) h 0 ∧ after (Horus.remove w z h) = h := by
  have hm : number minusOne h = .ok ⟨-1, by decide⟩ h := by
    rw [show minusOne = intStr (-1) by decide +kernel]
    exact number_intStr ⟨-1, by decide⟩
  rcases hH.dead z hz with hd | ⟨k, hd⟩
  · have hn : number ([] : Str) h = .error .stoi h := rfl
    constructor
    · unfold remove Horus.remove
      apply Costs.lift_bind (findUpdt_run _)
      simp only [find_none hd]
      exact .lift_bind (tokenAt_run rfl) (.lift_fail hn)
    · unfold Horus.remove
      rw [bind_ok _ (findUpdt_run _)]
      simp only [find_none hd]
      rw [bind_ok _ (tokenAt_run rfl), bind_error _ hn]
      rfl
  · constructor
    · unfold remove Horus.remove
      apply Costs.lift_bind (findUpdt_run _)
      simp only [find_some hd, removedText, tokensOn_removed]
      apply Costs.lift_bind (tokenAt_run rfl)
      apply Costs.lift_bind hm
      rw [if_neg (by decide), if_neg (by decide)]
      exact costs_pure _ _
    · rw [remove_removed hd]
      rfl

/-! ## Search -/

/-- The boxes that a search writes for slot `i`. -/
def boxesOf (acc : CInt → CInt) (i : CInt) : Nat := if 1 < (acc i).val then 2 else 1

def keysOf (w : Kw) (next : CInt) (acc : CInt → CInt) (i : CInt) : List (Bid 24) :=
  if 1 < (acc i).val then [oramBid w i next (acc i), oramBid w i next one]
  else [oramBid w i next (acc i)]

theorem mem_keysOf {next : CInt} {acc : CInt → CInt} {i : CInt} {k : Bid 24} :
    k ∈ keysOf w next acc i ↔ k = oramBid w i next (acc i) ∨
      (k = oramBid w i next one ∧ 1 < (acc i).val) := by
  unfold keysOf
  split
  · next h => simp [h]
  · next h => simp [h]

theorem nodup_keysOf (next : CInt) (acc : CInt → CInt) (i : CInt) :
    (keysOf w next acc i).Nodup := by
  unfold keysOf
  split
  · next h =>
    have hne : acc i ≠ one := fun e => by rw [e] at h; exact absurd h (by decide)
    simp [hne]
  · exact List.nodup_singleton _

theorem length_entries {next : CInt} {acc ind : CInt → CInt} {q : FMap 24} {new : List CInt}
    (hnd : new.Nodup) (hW : Wrote w next acc ind (fun _ => none) q new) :
    (entries q).length = (new.map (boxesOf acc)).sum := by
  have hkeys : (new.flatMap (keysOf w next acc)).Nodup := by
    refine List.nodup_flatMap.mpr ⟨fun i _ => nodup_keysOf next acc i, ?_⟩
    refine hnd.imp fun {i j} hij k hi hj => hij ?_
    rcases mem_keysOf.mp hi with rfl | ⟨rfl, -⟩ <;> rcases mem_keysOf.mp hj with e | ⟨e, -⟩ <;>
      exact (oramBid_inj.mp e).2.1
  have hmem : (new.flatMap (keysOf w next acc)).toFinset =
      Finset.univ.filter fun k => (q k).isSome := by
    ext k
    simp only [List.mem_toFinset, List.mem_flatMap, Finset.mem_filter, Finset.mem_univ, true_and]
    constructor
    · rintro ⟨i, hi, hk⟩
      rcases mem_keysOf.mp hk with rfl | ⟨rfl, ha⟩
      · rw [hW.1 i hi, target, if_pos rfl]
        rfl
      · have hne : one ≠ acc i := fun e => by rw [← e] at ha; exact absurd ha (by decide)
        rw [hW.1 i hi, target, if_neg hne, if_pos ⟨rfl, ha⟩]
        rfl
    · intro hk
      by_contra hno
      by_cases hown : ∃ i ∈ new, ∃ a, k = oramBid w i next a
      · obtain ⟨i, hi, a, rfl⟩ := hown
        rw [hW.1 i hi, target] at hk
        split at hk
        · next e => exact hno ⟨i, hi, mem_keysOf.mpr (.inl (by rw [e]))⟩
        · split at hk
          · next e => exact hno ⟨i, hi, mem_keysOf.mpr (.inr ⟨by rw [e.1], e.2⟩)⟩
          · cases hk
      · rw [hW.2 k fun i hi a e => hown ⟨i, hi, a, e⟩] at hk
        cases hk
  rw [entries, List.length_map, Finset.length_sort, ← hmem, List.toFinset_card_of_nodup hkeys,
    List.length_flatMap]
  congr 1
  refine List.map_congr_left fun i _ => ?_
  unfold keysOf boxesOf
  split <;> rfl

/-- **A search** writes one or two boxes for each slot in use. -/
theorem costs_search (he : Entry h w g true) (hacc : g.access.val < 2 ^ 30)
    (hsrc : g.src.val + 1 < 2 ^ 31) :
    Costs (search w) (Horus.search w) h
      (blocks 0 0 ((initSlots g.live one).map fun s => boxesOf g.acc s.index).sum) := by
  have hH := he.holds
  obtain ⟨hU, hS, hA, -, hLat, -⟩ := he.counters
  have hlive := hH.live_nonneg
  have hle := hH.live_le
  have hlat := hH.lat_le
  have hs0 := hH.src_nonneg
  have hin : InInt (g.src.val + 1) := ⟨by omega, hsrc⟩
  obtain ⟨new, q, hnd, hmem, hrun, hW⟩ := @loop_spec w g.src ⟨_, hin⟩ g.st g.acc g.ind g.access
    { h with CNTs := h.CNTs.insert (getBid w .SrchCnt) (intStr (g.src.val + 1)) } g.live hacc
    fun i h1 h2 => ⟨hH.acc_le i h1 (by omega), hH.versions i h1 (by omega)⟩
  have hperm : new.Perm ((initSlots g.live one).map Slot.index) :=
    (List.perm_ext_iff_of_nodup hnd (nodup_initSlots g.live)).mpr fun i => by
      rw [hmem, mem_initSlots]
  have hcount : ((initSlots g.live one).map fun s => boxesOf g.acc s.index).sum =
      (entries q).length := by
    rw [length_entries hnd hW, (hperm.map _).sum_eq, List.map_map]
    rfl
  rw [hcount]
  unfold search Horus.search
  apply Costs.lift_bind (findCnt_run _)
  apply Costs.lift_bind (number_find hU)
  apply Costs.lift_bind (findCnt_run _)
  apply Costs.lift_bind (number_find hA)
  apply Costs.lift_bind (changeCnt_run hS hin)
  apply Costs.lift_bind (number_intStr _)
  apply Costs.lift_bind (add_ok hin)
  apply Costs.lift_bind hrun
  dsimp only
  have hwrite : Costs _ (modify fun h => { h with ORAM_srch := h.ORAM_srch.setupInsert q }) _ _ :=
    (costs_batchWrite (entries q) { h with
      CNTs := h.CNTs.insert (getBid w .SrchCnt) (intStr (g.src.val + 1)) }).congr
      (by rw [writeAll, foldl_entries]; rfl)
  rw [← add_zero (blocks 0 0 (entries q).length)]
  apply hwrite.bind rfl
  have hkeep : ((h.CNTs.insert (getBid w .SrchCnt) (intStr (g.src.val + 1)))
      (getBid w .latestUpdatedCounter)) = some (intStr g.lat.val) :=
    (FMap.insert_of_ne _ fun e => absurd (getBid_inj.mp e).2 (by decide)).trans (hLat rfl)
  refine Costs.bind_free ((costs_insertCnt _ _).of_eq ?_) (insertCnt_run _ _) (costs_pure _ _)
  rw [absent_some hkeep, blocks_zero]

end

end SmallClientSSE.Horus.Space
