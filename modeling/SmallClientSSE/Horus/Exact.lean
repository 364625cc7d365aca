import SmallClientSSE.Horus.Calls
import SmallClientSSE.Horus.Live

/-!
# Online runs of Horus

`Kept` ties the ledger of a keyword to the stores and to the calls so far. Every
call keeps it, and so after any run of allowed calls a search lists the live
items of its keyword.
-/

namespace SmallClientSSE.Horus

open Lib

/-- Only pairs inserted before are removed, and keywords inserted before searched. -/
def Allowed (calls : List Call) : Call → Prop
  | .insert _ _ => True
  | .remove w z => .insert w z ∈ calls
  | .search w => inserted calls w = true

instance (calls : List Call) : (c : Call) → Decidable (Allowed calls c)
  | .insert _ _ => inferInstanceAs (Decidable True)
  | .remove w z => inferInstanceAs (Decidable (.insert w z ∈ calls))
  | .search w => inferInstanceAs (Decidable (inserted calls w = true))

structure Kept (calls : List Call) (h : Client) (w : Kw) (g : Ledger) : Prop where
  opened : Opened h w g
  entry : inserted calls w = true → Entry h w g true
  tracks : Tracks calls w g
  stored : ∀ z, Call.insert w z ∈ calls → (h.OMAP_updt (createBid 0 w z)).isSome

def Inv (calls : List Call) (h : Client) : Prop := ∀ w, ∃ g, Kept calls h w g

theorem inv_init : Inv [] Client.init := fun w =>
  ⟨Ledger.blank, .inr ⟨⟨fun _ _ => rfl, fun _ => rfl, fun _ _ _ => rfl⟩, rfl⟩,
    fun h => absurd h (by simp [inserted]), tracks_blank w, fun z h => absurd h List.not_mem_nil⟩

section

variable {calls : List Call} {h h' : Client} {c : Call} {w : Kw} {g g' : Ledger}

theorem Kept.frame (hk : Kept calls h w g) (hc : c.keyword ≠ w) (hs : Same h h' w) :
    Kept (calls ++ [c]) h' w g := by
  refine ⟨?_, fun hi => ?_, hk.tracks.other hc, fun z hz => ?_⟩
  · exact hk.opened.imp (·.frame hs) fun hb => ⟨hb.1.frame hs, hb.2⟩
  · exact (hk.entry (inserted_of_other hc hi)).frame hs
  · rw [hs.updt]
    exact hk.stored z (insert_mem_of_other hc hz)

theorem Kept.next (hk : Kept calls h w g) (he : Entry h' w g' true) (ht : Tracks (calls ++ [c]) w g')
    (hg : Grows h h' w) (hnew : ∀ z, c = .insert w z → (h'.OMAP_updt (createBid 0 w z)).isSome) :
    Kept (calls ++ [c]) h' w g' := by
  refine ⟨.inl he, fun _ => he, ht, fun z hz => ?_⟩
  rcases List.mem_append.mp hz with hz | hz
  · exact hg z (hk.stored z hz)
  · exact hnew z (List.mem_singleton.mp hz).symm

theorem Kept.idle (hk : Kept calls h w g) (hc : ∀ z, c ≠ .insert w z)
    (ht : Tracks (calls ++ [c]) w g) : Kept (calls ++ [c]) h w g := by
  have hold : ∀ z, Call.insert w z ∈ calls ++ [c] → Call.insert w z ∈ calls := fun z hz =>
    (List.mem_append.mp hz).resolve_right fun e => hc z (List.mem_singleton.mp e).symm
  refine ⟨hk.opened, fun hi => ?_, ht, fun z hz => hk.stored z (hold z hz)⟩
  obtain ⟨z, hz⟩ := inserted_iff.mp hi
  exact hk.entry (inserted_iff.mpr ⟨z, hold z hz⟩)

theorem same_refl (h : Client) (w : Kw) : Same h h w :=
  ⟨fun _ _ => rfl, fun _ => rfl, fun _ _ _ => rfl⟩

/-- The invariant from the keyword of the call and the frame of the others. -/
theorem inv_of_kept (hI : Inv calls h) {g' : Ledger} (hk : Kept (calls ++ [c]) h' c.keyword g')
    (hs : ∀ v, v ≠ c.keyword → Same h h' v) : Inv (calls ++ [c]) h' := fun v => by
  by_cases hv : v = c.keyword
  · exact ⟨g', hv ▸ hk⟩
  · obtain ⟨g, hg⟩ := hI v
    exact ⟨g, hg.frame (Ne.symm hv) (hs v hv)⟩

theorem step_insert {z : CInt} (hr : insert w z h = .ok () h') :
    step h (.insert w z) = some h' := by
  simp only [step, finished, hr, Option.map_some]

theorem step_remove {z : CInt} (hr : remove w z h = .ok () h') :
    step h (.remove w z) = some h' := by
  simp only [step, finished, hr, Option.map_some]

theorem step_search {res : List CInt} (hr : search w h = .ok res h') :
    step h (.search w) = some h' := by
  simp only [step, finished, hr, Option.map_some]

theorem Kept.removed (hk : Kept calls h w g) {z : CInt} (hz : Call.insert w z ∈ calls)
    (hl : live calls w z = false) :
    ∃ k, h.OMAP_updt (createBid 0 w z) = some (removedText k) := by
  have hn : ¬ g.Has z := fun hh => by rw [(hk.tracks.has z).mp hh] at hl; cases hl
  refine (hk.opened.holds.dead z hn).resolve_left fun e => ?_
  have := hk.stored z hz
  rw [e] at this
  cases this

theorem Holds.isSome_pair {P B : FMap 24} (hH : Holds P B w g) {z : CInt} (hz : g.Has z) :
    (P (createBid 0 w z)).isSome := by
  obtain ⟨i, hi1, hi2, rfl⟩ := hz
  rw [hH.pair i hi1 hi2]
  rfl

theorem Opened.entry (ho : Opened h w g) {z : CInt} (hz : g.Has z) : Entry h w g true :=
  ho.resolve_right fun hb => by
    have := ho.holds.isSome_pair hz
    rw [hb.1.updt] at this
    cases this

theorem insert_inv {z : CInt} (hI : Inv calls h) (hfit : callsOn w calls + 3 < 2 ^ 31) :
    ∃ h', step h (.insert w z) = some h' ∧ Inv (calls ++ [.insert w z]) h' := by
  obtain ⟨g, hk⟩ := hI w
  have hH := hk.opened.holds
  have h1 := hk.tracks.paced.access
  have h2 := hk.tracks.lat_le
  by_cases hz : g.Has z
  · refine ⟨h, step_insert (insert_live hH hz), inv_of_kept hI (hk.next (hk.opened.entry hz)
      (hk.tracks.insert_live ((hk.tracks.has z).mp hz)) (fun _ hy => hy) fun y e => ?_)
      fun v _ => same_refl h v⟩
    obtain rfl : z = y := by injection e
    exact hH.isSome_pair hz
  · obtain ⟨h', i0, a0, s0, hr, hi0, ha0, he, hg, hs⟩ := insert_spec hk.opened hz (by omega)
      (by omega)
    refine ⟨h', step_insert hr, inv_of_kept hI (hk.next he (hk.tracks.put hH hi0 ha0) hg
      fun y e => ?_) hs⟩
    obtain rfl : z = y := by injection e
    exact he.holds.isSome_pair ((Ledger.has_put hH.live_nonneg hi0 z).mpr (.inl rfl))

theorem remove_inv {z : CInt} (hI : Inv calls h) (hc : Call.insert w z ∈ calls)
    (hfit : callsOn w calls + 3 < 2 ^ 31) :
    ∃ h', step h (.remove w z) = some h' ∧ Inv (calls ++ [.remove w z]) h' := by
  obtain ⟨g, hk⟩ := hI w
  have h1 := hk.tracks.paced.access
  have he := hk.entry (inserted_iff.mpr ⟨z, hc⟩)
  cases hl : live calls w z with
  | true =>
    obtain ⟨p, hp1, hp2, rfl⟩ := (hk.tracks.has z).mpr hl
    obtain ⟨h', live', a1, hr, hlv, ha1, he', hg, hs⟩ := remove_spec he hp1 hp2 (by omega)
    exact ⟨h', step_remove hr, inv_of_kept hI (hk.next he'
      (hk.tracks.free he.holds hp1 hp2 hlv ha1) hg fun y e => by cases e) hs⟩
  | false =>
    obtain ⟨k, hrem⟩ := hk.removed hc hl
    exact ⟨h, step_remove (remove_removed hrem), inv_of_kept hI (hk.next he
      (hk.tracks.remove_dead hl) (fun _ hy => hy) fun y e => by cases e) fun v _ => same_refl h v⟩

theorem search_inv (hI : Inv calls h) (hc : inserted calls w = true)
    (hfit : callsOn w calls + 3 < 2 ^ 31) :
    ∃ h', step h (.search w) = some h' ∧ Inv (calls ++ [.search w]) h' := by
  obtain ⟨g, hk⟩ := hI w
  have h1 := hk.tracks.paced.access
  have h3 := hk.tracks.src_le
  have he := hk.entry hc
  obtain ⟨h', res, next, hr, -, -, hn, he', hg, hs⟩ := search_spec he (by omega) (by omega)
  exact ⟨h', step_search hr, inv_of_kept hI (hk.next he' (hk.tracks.refile he.holds hn) hg
    fun y e => by cases e) hs⟩

/-- **Every allowed call** succeeds and keeps the invariant. -/
theorem step_inv (hI : Inv calls h) (hc : Allowed calls c)
    (hfit : callsOn c.keyword calls + 3 < 2 ^ 31) :
    ∃ h', step h c = some h' ∧ Inv (calls ++ [c]) h' := by
  cases c with
  | insert w z => exact insert_inv hI hfit
  | remove w z => exact remove_inv hI hc hfit
  | search w => exact search_inv hI hc hfit

end

/-! ## Runs -/

/-- The calls on each keyword fit an `int`. -/
def Fits (calls : List Call) : Prop := ∀ w, callsOn w calls + 2 < 2 ^ 31

theorem Fits.of_prefix {calls pre : List Call} {c : Call} (h : Fits calls)
    (hpre : pre ++ [c] <+: calls) : callsOn c.keyword pre + 3 < 2 ^ 31 := by
  have h1 := callsOn_mono (w := c.keyword) hpre
  have h2 := h c.keyword
  rw [callsOn_snoc, if_pos rfl] at h1
  omega

theorem Fits.left {calls more : List Call} (h : Fits (calls ++ more)) : Fits calls := fun w =>
  lt_of_le_of_lt (Nat.add_le_add_right (callsOn_mono (List.prefix_append calls more)) 2) (h w)

theorem run_inv {calls : List Call} (hok : Each Allowed calls) (hfit : Fits calls) :
    ∃ h, run step Client.init calls = some h ∧ Inv calls h :=
  Lib.run_inv (fun pre h => Inv pre h) inv_init fun _ _ _ hpre _ hI =>
    step_inv hI (hok.of_prefix hpre) (hfit.of_prefix hpre)

/-- **Horus search is exact** after every online run. -/
theorem search_exact (calls : List Call) (hok : Each Allowed calls) (hfit : Fits calls) :
    ∃ h, run step Client.init calls = some h ∧
      (∀ w, inserted calls w = true → ∃ res h', search w h = .ok res h' ∧ res.Nodup ∧
        ∀ z, z ∈ res ↔ live calls w z = true) ∧
      (∀ w z, live calls w z = true → step h (.insert w z) = some h) ∧
      ∀ w z, Call.insert w z ∈ calls → live calls w z = false → step h (.remove w z) = some h := by
  obtain ⟨h, hrun, hI⟩ := run_inv hok hfit
  refine ⟨h, hrun, fun w hw => ?_, fun w z hz => ?_, fun w z hz hl => ?_⟩
  · obtain ⟨g, hk⟩ := hI w
    have h1 := hk.tracks.paced.access
    have h3 := hk.tracks.src_le
    have h4 := hfit w
    obtain ⟨h', res, next, hr, hnd, hmem, -⟩ := search_spec (hk.entry hw) (by omega) (by omega)
    exact ⟨res, h', hr, hnd, fun z => (hmem z).trans (hk.tracks.has z)⟩
  · obtain ⟨g, hk⟩ := hI w
    exact step_insert (insert_live hk.opened.holds ((hk.tracks.has z).mpr hz))
  · obtain ⟨g, hk⟩ := hI w
    obtain ⟨k, hrem⟩ := hk.removed hz hl
    exact step_remove (remove_removed hrem)

/-- Two pairs, a removal that swaps, and searches around it. -/
def sampleCalls : List Call :=
  let w : Kw := kwA
  [.insert w (cint 5), .insert w (cint 6), .search w, .remove w (cint 5),
    .insert w (cint 5), .remove w (cint 6)]

theorem fits_of_length {calls : List Call} (h : calls.length + 2 < 2 ^ 31) : Fits calls := fun _ =>
  lt_of_le_of_lt (Nat.add_le_add_right List.countP_le_length 2) h

theorem search_exact_sample :
    ∃ h, run step Client.init sampleCalls = some h ∧
      (∀ w, inserted sampleCalls w = true → ∃ res h', search w h = .ok res h' ∧ res.Nodup ∧
        ∀ z, z ∈ res ↔ live sampleCalls w z = true) ∧
      (∀ w z, live sampleCalls w z = true → step h (.insert w z) = some h) ∧
      ∀ w z, Call.insert w z ∈ sampleCalls → live sampleCalls w z = false →
        step h (.remove w z) = some h :=
  search_exact sampleCalls (by decide) (fits_of_length (by decide))

/-! ## Past the range of the counter -/

def searched (n : Nat) : List Call :=
  .insert kwA (cint 5) :: List.replicate n (.search kwA)

theorem searched_succ (n : Nat) : searched (n + 1) = searched n ++ [.search kwA] := by
  rw [searched, List.replicate_succ']
  rfl

theorem inserted_searched (n : Nat) : inserted (searched n) kwA = true :=
  inserted_iff.mpr ⟨_, List.mem_cons_self⟩

theorem searched_allowed (n : Nat) : Each Allowed (searched n) := by
  rintro ⟨i, hi⟩
  cases i with
  | zero => trivial
  | succ i =>
    have hget : (searched n).get ⟨i + 1, hi⟩ = .search kwA := by simp [searched]
    rw [hget]
    exact inserted_iff.mpr ⟨cint 5, by simp [searched]⟩

theorem searched_run {n : Nat} (hn : n < 2 ^ 31) : ∃ h g,
    run step Client.init (searched n) = some h ∧ Entry h kwA g true ∧ g.src.val = n ∧
      g.access.val ≤ 2 := by
  induction n with
  | zero =>
    have hnot : ¬ Ledger.blank.Has (cint 5) := fun ⟨i, h1, h2, _⟩ =>
      absurd (h1.trans h2) (by decide)
    obtain ⟨h, i0, a0, s0, hr, hi0, ha0, he, -⟩ := @insert_spec Client.init kwA Ledger.blank
      (.inr ⟨⟨fun _ _ => rfl, fun _ => rfl, fun _ _ _ => rfl⟩, rfl⟩) _ hnot (by decide) (by decide)
    have hstep : run step Client.init ([] ++ [.insert kwA (cint 5)]) = some h :=
      run_snoc rfl (step_insert hr)
    obtain rfl : a0 = one := ha0.resolve_right fun hused => by
      rw [hi0] at hused
      exact absurd hused.1 (by decide)
    exact ⟨h, _, hstep, he, rfl, (larger_val one one).trans_le (by decide)⟩
  | succ n ih =>
    obtain ⟨h, g, hrun, he, hsrc, hacc⟩ := ih (by omega)
    obtain ⟨h', res, next, hr, -, -, hnext, he', -⟩ := search_spec he (by omega) (by omega)
    rw [searched_succ]
    exact ⟨h', _, run_snoc hrun (step_search hr), he', by
      rw [Ledger.refile, hnext, hsrc, Nat.cast_succ], hacc⟩

/-- After `2^31 - 1` searches of a keyword, the next one leaves the range of `int`. -/
theorem search_counter_overflows : Each Allowed (searched (2 ^ 31 - 1)) ∧
    inserted (searched (2 ^ 31 - 1)) kwA = true ∧
    ∃ h, run step Client.init (searched (2 ^ 31 - 1)) = some h ∧
      ∀ res h', search kwA h ≠ .ok res h' := by
  obtain ⟨h, g, hrun, he, hsrc, -⟩ := searched_run (n := 2 ^ 31 - 1) (by decide)
  refine ⟨searched_allowed _, inserted_searched _, h, hrun, fun res h' hr => ?_⟩
  rw [search_overflow he (by omega)] at hr
  cases hr

end SmallClientSSE.Horus
