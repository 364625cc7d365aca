import SmallClientSSE.Horus.Blocks
import SmallClientSSE.Horus.Failing

/-!
# Runs of Horus that do not run out of space

The blocks that a call takes can be read off the stores before it (`need`). A run from the
empty stores raises no "no more space" exactly when its calls take no more blocks than the
stores have: what is live has no part in it, since no block is ever given back.
-/

namespace SmallClientSSE.Horus.Space

open Lib Lib.Effect

/-! ## The blocks of a call -/

def plain : Call → Op (List CInt)
  | .insert keyword ind => do
    Horus.insert keyword ind
    pure []
  | .remove keyword ind => do
    Horus.remove keyword ind
    pure []
  | .search keyword => Horus.search keyword

/-- The test in `Horus::insert`. -/
def isLive (h : Client) (w : Kw) (z : CInt) : Bool :=
  let resStr := h.OMAP_updt.find (createBid 0 w z)
  !decide (resStr = [] ∨ (tokensOn hash resStr)[0]? = some minusOne)

def countOf (h : Client) (w : Kw) (t : Cnt) : CInt :=
  (stoi (h.CNTs.find (getBid w t))).getD zero

/-- A number in the text of a slot or a pair. -/
def numberAt (s : Str) (i : Nat) : CInt := (((tokensOn hash s)[i]?).bind stoi).getD zero

def accessOf (h : Client) (w : Kw) (i : CInt) : CInt :=
  numberAt (h.OMAP_updt.find (createBid 1 w i)) 1

def bump (a : CInt) : CInt := if h : InInt (a.val + 1) then ⟨a.val + 1, h⟩ else a

/-- The blocks that a call takes: for an insertion those of its new keys, its box, and the marker
of a slot used before; for a removal the box of the last item, if it moves; for a search one or
two boxes for each slot. -/
def need (h : Client) : Call → Store → Nat
  | .insert w z =>
    let slot := createBid 1 w (bump (countOf h w .UpdtCnt))
    if isLive h w z then 0
    else blocks (absent h.OMAP_updt (createBid 0 w z) + absent h.OMAP_updt slot)
      (missing h w counters)
      (1 + if countOf h w .UpdtCnt = countOf h w .latestUpdatedCounter ∧
        (h.OMAP_updt slot).isSome then 1 else 0)
  | .remove w z =>
    if isLive h w z ∧
        numberAt (h.OMAP_updt.find (createBid 0 w z)) 0 ≠ countOf h w .UpdtCnt then blocks 0 0 1
    else 0
  | .search w =>
    blocks 0 0 ((initSlots (countOf h w .UpdtCnt) one).map fun s =>
      boxesOf (accessOf h w) s.index).sum

/-- The blocks that a run of the unbounded client takes. -/
def taken : Client → List Call → Store → Nat
  | _, [] => 0
  | h, c :: cs => need h c + taken (after (plain c h)) cs

/-! ## One call -/

section

variable {calls : List Call} {h h' : Client} {c : Call} {w : Kw} {g : Ledger} {z : CInt}

theorem countOf_some {t : Cnt} {k : CInt} (hk : h.CNTs (getBid w t) = some (intStr k.val)) :
    countOf h w t = k := by
  rw [countOf, find_some hk, stoi_intStr_self]
  rfl

theorem countOf_none {t : Cnt} (hk : h.CNTs (getBid w t) = none) : countOf h w t = zero := by
  rw [countOf, find_none hk]
  rfl

theorem countOf_live (ho : Opened h w g) : countOf h w .UpdtCnt = g.live := by
  rcases ho with he | ⟨hb, rfl⟩
  · exact countOf_some he.counters.updt
  · exact countOf_none (hb.cnts _)

theorem countOf_lat (ho : Opened h w g) : countOf h w .latestUpdatedCounter = g.lat := by
  rcases ho with he | ⟨hb, rfl⟩
  · exact countOf_some (he.counters.latest rfl)
  · exact countOf_none (hb.cnts _)

theorem isLive_of_has {B : FMap 24} (hH : Holds h.OMAP_updt B w g) (hz : g.Has z) :
    isLive h w z = true := by
  simp only [isLive, hH.live_find hz, decide_false, Bool.not_false]

theorem isLive_of_dead {B : FMap 24} (hH : Holds h.OMAP_updt B w g) (hz : ¬ g.Has z) :
    isLive h w z = false := by
  simp only [isLive, hH.dead_find hz, decide_true, Bool.not_true]

theorem numberAt_zero (a b : CInt) : numberAt (hashText a b) 0 = a := by
  rw [numberAt, tokensOn_hashText]
  simp [stoi_intStr_self]

theorem numberAt_one (a b : CInt) : numberAt (hashText a b) 1 = b := by
  rw [numberAt, tokensOn_hashText]
  simp [stoi_intStr_self]

/-- What a call of the run does: it takes `need`, and keeps the invariant. -/
structure Metes (calls : List Call) (h : Client) (c : Call) : Prop where
  costs : Costs (perform c) (plain c) h (need h c)
  inv : Inv (calls ++ [c]) (after (plain c h))

theorem ok_of_finished {α : Type} {x : Op α} (hs : (finished x h).map Prod.snd = some h') :
    ∃ a, x h = .ok a h' := by
  unfold finished at hs
  cases hr : x h with
  | ok a h1 =>
    rw [hr] at hs
    cases hs
    exact ⟨a, rfl⟩
  | error e h1 =>
    rw [hr] at hs
    cases hs

theorem metes_insert (hI : Inv calls h) (hfit : callsOn w calls + 3 < 2 ^ 31) :
    Metes calls h (.insert w z) := by
  obtain ⟨h', hs, hI'⟩ := insert_inv (z := z) hI hfit
  obtain ⟨⟨⟩, hr⟩ := ok_of_finished hs
  obtain ⟨g, hk⟩ := hI w
  have hH := hk.opened.holds
  have h1 := hk.tracks.paced.access
  have h2 := hk.tracks.lat_le
  have h3 := hH.live_le
  have hcosts : Costs (insert w z) (Horus.insert w z) h (need h (.insert w z)) := by
    by_cases hz : g.Has z
    · rw [need, if_pos (isLive_of_has hH hz)]
      exact costs_insert_live hH hz
    · have hin : InInt (g.live.val + 1) := ⟨by have := hH.live_nonneg; omega, by omega⟩
      have hslot : bump (countOf h w .UpdtCnt) = ⟨_, hin⟩ := by
        rw [countOf_live hk.opened, bump, dif_pos hin]
      rw [need, if_neg (by rw [isLive_of_dead hH hz]; decide), hslot, countOf_live hk.opened,
        countOf_lat hk.opened]
      exact costs_insert hk.opened hz rfl (by omega) (by omega)
  refine ⟨hcosts.then_pure _, ?_⟩
  rw [plain, bind_ok _ hr]
  exact hI'

theorem metes_remove (hI : Inv calls h) (hfit : callsOn w calls + 3 < 2 ^ 31) :
    Metes calls h (.remove w z) := by
  obtain ⟨g, hk⟩ := hI w
  have hH := hk.opened.holds
  have h1 := hk.tracks.paced.access
  by_cases hz : g.Has z
  · have he := hk.opened.entry hz
    obtain ⟨h', hs, hI'⟩ := remove_inv hI (insert_mem_of_live ((hk.tracks.has z).mp hz)) hfit
    obtain ⟨⟨⟩, hr⟩ := ok_of_finished hs
    obtain ⟨p, hp1, hp, rfl⟩ := hz
    have hneed : need h (.remove w (g.ind p)) = blocks 0 0 (if p = g.live then 0 else 1) := by
      rw [need, isLive_of_has hH ⟨p, hp1, hp, rfl⟩, find_some (hH.pair p hp1 hp), numberAt_zero,
        countOf_live hk.opened]
      by_cases hpl : p = g.live
      · simp [hpl, blocks_zero]
      · simp [hpl]
    refine ⟨hneed ▸ (costs_remove he hp1 hp (by omega)).then_pure _, ?_⟩
    rw [plain, bind_ok _ hr]
    exact hI'
  · obtain ⟨hcosts, hafter⟩ := costs_remove_dead hH hz
    have hneed : need h (.remove w z) = 0 := by
      rw [need, isLive_of_dead hH hz]
      rfl
    refine ⟨hneed ▸ hcosts.then_pure _, ?_⟩
    rw [plain, after_then_pure, hafter]
    exact inv_of_kept hI (hk.idle (by simp) (hk.tracks.remove_dead
      (eq_false_of_ne_true fun e => hz ((hk.tracks.has z).mpr e)))) fun v _ => same_refl h v

theorem metes_search (hI : Inv calls h) (hfit : callsOn w calls + 3 < 2 ^ 31) :
    Metes calls h (.search w) := by
  obtain ⟨g, hk⟩ := hI w
  have hH := hk.opened.holds
  have h1 := hk.tracks.paced.access
  have h2 := hk.tracks.src_le
  have hlive := hH.live_le
  have hlat := hH.lat_le
  have hneed : need h (.search w) =
      blocks 0 0 ((initSlots g.live one).map fun s => boxesOf g.acc s.index).sum := by
    rw [need, countOf_live hk.opened]
    congr 2
    refine List.map_congr_left fun s hs => ?_
    obtain ⟨hs1, hs2⟩ := mem_initSlots.mp (List.mem_map_of_mem hs)
    rw [boxesOf, accessOf, find_some (hH.slot s.index hs1 (by omega)), numberAt_one, boxesOf]
  rcases hk.opened with he | ⟨hb, rfl⟩
  · obtain ⟨h', res, next, hr, -, -, hn, he', hg, hs⟩ := search_spec he (by omega) (by omega)
    refine ⟨hneed ▸ costs_search he (by omega) (by omega), ?_⟩
    rw [plain, hr]
    exact inv_of_kept hI (hk.next he' (hk.tracks.refile hH hn) hg fun y e => by cases e) hs
  · have hn : number ([] : Str) h = .error .stoi h := rfl
    refine ⟨?_, ?_⟩
    · rw [hneed]
      change Costs (search w) (Horus.search w) h (blocks 0 0 0)
      rw [blocks_zero]
      unfold search Horus.search
      apply Costs.lift_bind (findCnt_run _)
      rw [find_none (hb.cnts _)]
      exact .lift_fail hn
    · rw [plain, Horus.search, bind_ok _ (findCnt_run _), find_none (hb.cnts _), bind_error _ hn]
      exact inv_of_kept hI (hk.idle (by simp) (hk.tracks.idle rfl fun _ => rfl)) fun v _ =>
        same_refl h v

/-- **One call** of a run. -/
theorem metes (hI : Inv calls h) (hfit : callsOn c.keyword calls + 3 < 2 ^ 31) :
    Metes calls h c := by
  cases c with
  | insert w z => exact metes_insert hI hfit
  | remove w z => exact metes_remove hI hfit
  | search w => exact metes_search hI hfit

end

/-! ## Runs -/

def Spacious (t : List (Call × Outcome)) : Prop := ∀ e ∈ t, e.2 ≠ .failed .noSpace

theorem spacious_iff {calls : List Call} : ∀ {pre : List Call} {h : Client} {free : Store → Nat},
    Inv pre h → Fits (pre ++ calls) →
    (Spacious (trace ⟨h, free⟩ calls) ↔ taken h calls ≤ free) := by
  induction calls with
  | nil => exact fun _ _ => ⟨fun _ _ => Nat.zero_le _, fun _ e he => absurd he List.not_mem_nil⟩
  | cons c cs ih =>
    intro pre h free hI hfit
    rw [List.append_cons] at hfit
    obtain ⟨hcosts, hI'⟩ := metes (c := c) hI (hfit.of_prefix (List.prefix_append _ _))
    simp only [Spacious, trace, taken, List.forall_mem_cons]
    by_cases hle : need h c ≤ free
    · have hp := hcosts.paid free hle
      have hout : outcome (perform c ⟨h, free⟩) ≠ .failed .noSpace := by
        rw [hp]
        cases plain c h <;> simp [charge, outcome]
      have hafter : after (perform c ⟨h, free⟩) = ⟨after (plain c h), free - need h c⟩ := by
        rw [hp]
        cases plain c h <;> rfl
      rw [hafter, ← le_tsub_iff_left hle]
      exact (and_iff_right hout).trans (ih hI' hfit)
    · obtain ⟨m, hm⟩ := hcosts.short free hle
      refine iff_of_false (fun hs => hs.1 (by rw [hm]; rfl)) fun hs => hle ?_
      exact le_trans le_self_add hs

/-- **A run of Horus** raises no "no more space" exactly when its calls take no more blocks than
the constructor gave the stores. -/
theorem space_suffices_iff (maxSize : Nat) (calls : List Call) (hfit : Fits calls) :
    Spacious (trace (Metered.init maxSize) calls) ↔
      taken Client.init calls ≤ capacity maxSize :=
  @spacious_iff calls [] _ _ inv_init hfit

/-- Two keywords, which take 10 of 12 blocks in `CNTs`. -/
def spaceCalls : List Call :=
  [.insert kwA one, .insert kwA (cint 2), .search kwA, .insert kwB one, .remove kwA one,
    .search kwA]

theorem space_suffices_eight : Spacious (trace (Metered.init 8) spaceCalls) :=
  (space_suffices_iff 8 spaceCalls (fits_of_length (by decide))).mpr fun s => by
    cases s <;> decide +kernel

/-- The first insertion finds no block for its fifth counter. -/
theorem first_insert_fails :
    (∀ pre, pre <+: [Call.insert kwA one] → ∀ l : List (Kw × CInt), l.Nodup →
      (∀ p ∈ l, live pre p.1 p.2 = true) → l.length ≤ 4) ∧
    trace (Metered.init 4) [.insert kwA one] = [(.insert kwA one, .failed .noSpace)] := by
  refine ⟨fun pre hpre l hnd hl => ?_, by decide +kernel⟩
  have hsub : l ⊆ [(kwA, one)] := fun p hp => by
    have := hpre.subset (insert_mem_of_live (hl p hp))
    simpa [Prod.ext_iff] using this
  exact (hnd.subperm hsub).length_le.trans (by decide)

end SmallClientSSE.Horus.Space
