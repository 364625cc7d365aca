import SmallClientSSE.Horus.Client
import SmallClientSSE.Lib.Effect

/-!
# What Horus only reads

The parts of the calls that change nothing: numbers, lookups and the loop of a search. The
answer of a lookup depends on the key looked up, that of the loop on the boxes of the keyword.
-/

namespace SmallClientSSE.Horus

open Lib Lib.Effect

variable {part : Client → Client → Prop}

/-! ## Numbers and tokens -/

theorem reads_number (s : Str) : Reads part (number s) := by
  unfold number
  split
  · exact .pure _
  · exact .throw _

theorem reads_checked (z : Int) : Reads part (checked z) := by
  unfold checked
  split
  · exact .pure _
  · exact .throw _

theorem reads_add (a : CInt) (k : Int) : Reads part (add a k) := reads_checked _

theorem reads_tokenAt (tokens : List Str) (i : Nat) : Reads part (tokenAt tokens i) := by
  unfold tokenAt
  split
  · exact .pure _
  · exact .throw _

theorem reads_half (l r : CInt) : Reads part (half l r) :=
  (reads_add _ _).bind fun _ => reads_checked _

theorem reads_floorHalf (l r : CInt) : Reads part (floorHalf l r) :=
  (reads_add _ _).bind fun _ => reads_checked _

theorem reads_ceilHalf (l r : CInt) : Reads part (ceilHalf l r) :=
  (reads_add _ _).bind fun _ => reads_checked _

/-! ## Lookups -/

theorem reads_findUpdt {k : Bid 24}
    (hk : ∀ h h', part h h' → h.OMAP_updt.find k = h'.OMAP_updt.find k) :
    Reads part (findUpdt k) :=
  .get (fun h h' hp => by rw [hk h h' hp]) fun _ => .pure _

theorem reads_findCnt {k : Bid 24} (hk : ∀ h h', part h h' → h.CNTs.find k = h'.CNTs.find k) :
    Reads part (findCnt k) :=
  .get (fun h h' hp => by rw [hk h h' hp]) fun _ => .pure _

/-! ## The loop of a search -/

theorem reads_firstStep (s : Slot) (id : Str) : Reads part (firstStep s id) :=
  .ite ((reads_number _).bind fun _ => (reads_half _ _).bind fun _ => .pure _)
    ((reads_half _ _).bind fun _ => .pure _)

theorem reads_laterStep (s : Slot) (id : Str) : Reads part (laterStep s id) :=
  .ite
    (.ite ((reads_number _).bind fun _ => .pure _)
      (.ite ((reads_floorHalf _ _).bind fun _ => .pure _)
        ((reads_ceilHalf _ _).bind fun _ => .pure _)))
    (.ite ((reads_ceilHalf _ _).bind fun _ => .pure _)
      ((reads_floorHalf _ _).bind fun _ => .pure _))

section

variable {w : Kw} (srcCnt next : CInt) (hbox : ∀ h h', part h h' → ∀ i s a,
  h.ORAM_srch.find (oramBid w i s a) = h'.ORAM_srch.find (oramBid w i s a))

include hbox

theorem reads_round (firstRun : Bool) : ∀ (slots : List Slot) (q : FMap 24),
    Reads part (round w srcCnt next firstRun slots q) := by
  intro slots
  induction slots with
  | nil => exact fun q => .pure _
  | cons s ss ih =>
    intro q
    unfold round
    refine .ite ((ih q).bind fun _ => .pure _)
      (.get (fun h h' hp => by rw [hbox h h' hp]) fun h => ?_)
    exact .ite ((reads_firstStep _ _).bind fun _ => (ih _).bind fun _ => .pure _)
      ((reads_laterStep _ _).bind fun _ => (ih _).bind fun _ => .pure _)

theorem reads_rounds : ∀ (fuel : Nat) (firstRun : Bool) (slots : List Slot) (q : FMap 24),
    Reads part (rounds w srcCnt next fuel firstRun slots q) := by
  intro fuel
  induction fuel with
  | zero => exact fun _ _ _ => .throw _
  | succ fuel ih =>
    intro firstRun slots q
    unfold rounds
    exact .ite (.pure _) ((reads_round srcCnt next hbox firstRun slots q).bind fun _ =>
      (ih false _ _).bind fun _ => .pure _)

end

/-! ## The boxes a search queues -/

/-- Every key of the query is that of a box of `w`. -/
def OwnBoxes (w : Kw) (q : FMap 24) : Prop :=
  ∀ k, (q k).isSome → ∃ i s a, k = oramBid w i s a

section

variable {w : Kw} {srcCnt next : CInt} {h h' : Client} {q q' : FMap 24}

theorem ownBoxes_empty : OwnBoxes w fun _ => none := fun _ hk => by cases hk

theorem OwnBoxes.enqueue (hq : OwnBoxes w q) (i s a : CInt) (v : Str) :
    OwnBoxes w (enqueue q (oramBid w i s a) v) := fun k hk => by
  unfold Horus.enqueue at hk
  split at hk
  · exact hq k hk
  · rw [FMap.insert_apply] at hk
    split at hk
    · next e => exact ⟨i, s, a, e⟩
    · exact hq k hk

theorem OwnBoxes.enqueueSlot (hq : OwnBoxes w q) (s : Slot) :
    OwnBoxes w (enqueueSlot w next q s) := by
  unfold Horus.enqueueSlot
  dsimp only
  split
  · exact (hq.enqueue _ _ _ _).enqueue _ _ _ _
  · exact hq.enqueue _ _ _ _

theorem OwnBoxes.round (firstRun : Bool) : ∀ {slots slots' : List Slot} {res : List CInt}
    {h h' : Client} {q q' : FMap 24},
    round w srcCnt next firstRun slots q h = .ok (slots', res, q') h' →
    OwnBoxes w q → OwnBoxes w q' := by
  intro slots
  induction slots with
  | nil =>
    intro slots' res h h' q q' hr hq
    cases hr
    exact hq
  | cons s ss ih =>
    intro slots' res h h' q q' hr hq
    unfold Horus.round at hr
    split at hr
    · obtain ⟨⟨ss', res', q1⟩, h1, hr1, hr⟩ := bind_inv hr
      cases hr
      exact ih hr1 hq
    · obtain ⟨h0, h1, -, hr⟩ := bind_inv hr
      dsimp only at hr
      split at hr
      · obtain ⟨s', h2, -, hr⟩ := bind_inv hr
        obtain ⟨⟨ss', res', q1⟩, h3, hr1, hr⟩ := bind_inv hr
        cases hr
        exact ih hr1 hq
      · obtain ⟨⟨s', item⟩, h2, -, hr⟩ := bind_inv hr
        obtain ⟨⟨ss', res', q1⟩, h3, hr1, hr⟩ := bind_inv hr
        cases hr
        refine ih hr1 ?_
        split
        · exact hq.enqueueSlot s'
        · exact hq

theorem OwnBoxes.rounds : ∀ {fuel : Nat} {firstRun : Bool} {slots : List Slot} {res : List CInt}
    {h h' : Client} {q q' : FMap 24},
    rounds w srcCnt next fuel firstRun slots q h = .ok (res, q') h' →
    OwnBoxes w q → OwnBoxes w q' := by
  intro fuel
  induction fuel with
  | zero =>
    intro _ _ _ _ _ _ _ hr
    cases hr
  | succ fuel ih =>
    intro firstRun slots res h h' q q' hr hq
    unfold Horus.rounds at hr
    split at hr
    · cases hr
      exact hq
    · obtain ⟨⟨slots', found, q1⟩, h1, hr1, hr⟩ := bind_inv hr
      obtain ⟨⟨res', q2⟩, h2, hr2, hr⟩ := bind_inv hr
      cases hr
      exact ih hr2 (hq.round firstRun hr1)

end

end SmallClientSSE.Horus
