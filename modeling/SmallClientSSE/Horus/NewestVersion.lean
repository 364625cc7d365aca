import SmallClientSSE.Horus.VersionSearch

/-!
# The newest version of every slot

The version search over any box table: one entry per slot, read at its newest access
(`newest_versions_found`). The midpoints are sums of two `int`s, which bounds the
accesses (`midpoint_overflows`).
-/

namespace SmallClientSSE.Horus

open Lib Lib.Effect

/-- **The batched version search terminates and finds the newest version of every slot**:
one entry for each slot, which is written again under the next `SrchCnt` at its newest
access, with a marker at access `1` when that is another one. -/
theorem newest_versions_found (h : Client) (w : Kw) (S next A U : CInt) (st acc ind : CInt → CInt)
    (txt : CInt → Str)
    (hV : ∀ i : CInt, 1 ≤ i.val → i.val ≤ U.val → (acc i).val ≤ A.val ∧
      (acc i).val + A.val < 2 ^ 31 ∧
      Texts (fun a => h.ORAM_srch (oramBid w i S a)) (st i) (acc i) (txt i) (ind i)) :
    ∃ (slots : List CInt) (q : FMap 24), slots.Nodup ∧
      (∀ i : CInt, i ∈ slots ↔ 1 ≤ i.val ∧ i.val ≤ U.val) ∧
      rounds w S next (loopFuel A) true (initSlots U A) (fun _ => none) h =
        .ok (slots.map ind, q) h ∧
      (∀ i ∈ slots, ∀ a, q (oramBid w i next a) =
        if a = acc i then some (txt i)
        else if a = one ∧ 1 < (acc i).val then some (marker (acc i))
        else none) ∧
      ∀ k, (∀ i ∈ slots, ∀ a, k ≠ oramBid w i next a) → q k = none := by
  have hold : ∀ i : CInt, 1 ≤ i.val → i.val ≤ U.val → Holding w S st acc ind txt A h i :=
    fun i h1 h2 => by
      obtain ⟨hle, hsum, hT⟩ := hV i h1 h2
      exact ⟨hle, hsum, hT⟩
  obtain ⟨slots, q, hnd, hmem, hrun, hq⟩ := @loop_texts _ _ next _ _ _ _ _ _ _ hold
  exact ⟨slots, q, hnd, hmem, hrun, hq.1, hq.2⟩

/-- The numbers `7`, `8` and `9` at the accesses 2 to 4 of slot 1, and `5` at the first access of
slot 2. -/
def filedVersions : List ((CInt × CInt) × Str) :=
  [((cint 1, cint 1), marker (cint 2)), ((cint 1, cint 2), intStr 7), ((cint 1, cint 3), intStr 8),
    ((cint 1, cint 4), intStr 9), ((cint 2, cint 1), intStr 5)]

def twoSlots : Client :=
  { Client.init with
    ORAM_srch := fun k =>
      (filedVersions.find? fun t => k = oramBid kwA t.1.1 zero t.1.2).map Prod.snd }

theorem twoSlots_apply (i a : CInt) : twoSlots.ORAM_srch (oramBid kwA i zero a) =
    (filedVersions.find? fun t => i = t.1.1 ∧ a = t.1.2).map Prod.snd := by
  simp [twoSlots]

theorem firstSlot_texts : Texts (fun a => twoSlots.ORAM_srch (oramBid kwA (cint 1) zero a))
    (cint 2) (cint 4) (intStr 9) (cint 9) where
  one_le := by decide
  le := by decide
  num a h1 h2 := by
    have h1 : 2 ≤ a.val := h1
    have h2 : a.val ≤ 4 := h2
    obtain h | h | h : a = cint 2 ∨ a = cint 3 ∨ a = cint 4 := by
      simp only [Subtype.ext_iff]
      change a.val = 2 ∨ a.val = 3 ∨ a.val = 4
      omega
    · exact ⟨intStr 7, cint 7, by rw [twoSlots_apply, h]; decide, by decide, by decide, by decide⟩
    · exact ⟨intStr 8, cint 8, by rw [twoSlots_apply, h]; decide, by decide, by decide, by decide⟩
    · exact ⟨intStr 9, cint 9, by rw [twoSlots_apply, h]; decide, by decide, by decide, by decide⟩
  last := by rw [twoSlots_apply]; decide
  item := by decide
  start _ := by rw [twoSlots_apply]; decide
  above a h := by
    have h : 4 < a.val := h
    have hne : ∀ i : Byte, i.val ≤ 4 → a ≠ cint i := fun i hi e => by
      have := congrArg Subtype.val e
      change a.val = i.val at this
      omega
    rw [twoSlots_apply]
    simp [filedVersions, hne]

theorem secondSlot_texts : Texts (fun a => twoSlots.ORAM_srch (oramBid kwA (cint 2) zero a))
    (cint 1) (cint 1) (intStr 5) (cint 5) where
  one_le := by decide
  le := by decide
  num a h1 h2 := by
    obtain rfl : a = cint 1 := Subtype.ext (le_antisymm h2 h1)
    exact ⟨intStr 5, cint 5, by rw [twoSlots_apply]; decide, by decide, by decide, by decide⟩
  last := by rw [twoSlots_apply]; decide
  item := by decide
  start h := absurd h (by decide)
  above a h := by
    have h : 1 < a.val := h
    have hne : a ≠ cint 1 := fun e => absurd (e ▸ h) (by decide)
    have h21 : ¬ cint 2 = cint 1 := by decide
    rw [twoSlots_apply]
    simp [filedVersions, hne, h21]

/-- Five accesses, and two slots of which one starts at its second. -/
theorem newest_versions_two :
    ∃ (slots : List CInt) (q : FMap 24), slots.Nodup ∧
      (∀ i : CInt, i ∈ slots ↔ 1 ≤ i.val ∧ i.val ≤ (cint 2).val) ∧
      rounds kwA zero one (loopFuel (cint 5)) true (initSlots (cint 2) (cint 5))
          (fun _ => none) twoSlots =
        .ok (slots.map fun i => if i = one then cint 9 else cint 5, q) twoSlots ∧
      (∀ i ∈ slots, ∀ a, q (oramBid kwA i one a) =
        if a = (if i = one then cint 4 else one) then
          some (if i = one then intStr 9 else intStr 5)
        else if a = one ∧ 1 < (if i = one then cint 4 else one : CInt).val then
          some (marker (if i = one then cint 4 else one))
        else none) ∧
      ∀ k, (∀ i ∈ slots, ∀ a, k ≠ oramBid kwA i one a) → q k = none := by
  refine newest_versions_found twoSlots kwA zero one (cint 5) (cint 2)
    (fun i => if i = one then cint 2 else one) (fun i => if i = one then cint 4 else one)
    (fun i => if i = one then cint 9 else cint 5)
    (fun i => if i = one then intStr 9 else intStr 5) fun i h1 h2 => ?_
  obtain rfl | rfl : i = cint 1 ∨ i = cint 2 := by
    have h2 : i.val ≤ 2 := h2
    simp only [Subtype.ext_iff]
    change i.val = 1 ∨ i.val = 2
    omega
  · exact ⟨by decide, by decide, firstSlot_texts⟩
  · exact ⟨by decide, by decide, secondSlot_texts⟩

/-- A client with the number 7 in the first slot of `w`, at access `m` only. -/
def oneVersion (w : Kw) (m : CInt) : Client :=
  { Client.init with
    ORAM_srch := fun k =>
      if k = oramBid w one zero m then some (intStr 7)
      else if k = oramBid w one zero one ∧ 1 < m.val then some (marker m)
      else none }

theorem oneVersion_texts {w : Kw} {m : CInt} (hm : 1 ≤ m.val) :
    Texts (fun a => (oneVersion w m).ORAM_srch (oramBid w one zero a)) m m (intStr 7)
      ⟨7, by decide⟩ where
  one_le := hm
  le := le_refl _
  num a h1 h2 := by
    obtain rfl : a = m := Subtype.ext (le_antisymm h2 h1)
    exact ⟨intStr 7, ⟨7, by decide⟩, by simp [oneVersion], by decide, by decide, by decide⟩
  last := by simp [oneVersion]
  item := by decide
  start h := by
    have hne : one ≠ m := fun e => by
      rw [← e] at h
      exact absurd h (by decide)
    simp [oneVersion, hne, h]
  above a h := by
    have h1 : a ≠ m := fun e => by
      rw [e] at h
      omega
    have h2 : a ≠ one := fun e => by
      rw [e] at h
      have : (one : CInt).val = 1 := rfl
      omega
    simp [oneVersion, h1, h2]

/-- With `2^30` accesses, the first midpoint `(left + right) / 2` of a slot that starts at the
last one leaves the range of `int`. -/
theorem midpoint_overflows :
    Texts (fun a => (oneVersion kwA ⟨2 ^ 30, by decide⟩).ORAM_srch
        (oramBid kwA one zero a)) ⟨2 ^ 30, by decide⟩ ⟨2 ^ 30, by decide⟩ (intStr 7)
        ⟨7, by decide⟩ ∧
      rounds kwA zero one (loopFuel ⟨2 ^ 30, by decide⟩) true
          (initSlots one ⟨2 ^ 30, by decide⟩) (fun _ => none)
          (oneVersion kwA ⟨2 ^ 30, by decide⟩) =
        .error .overflow (oneVersion kwA ⟨2 ^ 30, by decide⟩) := by
  refine ⟨oneVersion_texts (by decide), ?_⟩
  have hread : (oneVersion kwA ⟨2 ^ 30, by decide⟩).ORAM_srch.find
      (oramBid kwA one zero one) = marker ⟨2 ^ 30, by decide⟩ := by
    have h := (oneVersion_texts (w := kwA) (m := ⟨2 ^ 30, by decide⟩) (by decide)).start
      (by decide)
    rw [FMap.find, h]
    rfl
  have hslots : initSlots one ⟨2 ^ 30, by decide⟩ =
      [⟨one, false, one, ⟨2 ^ 30, by decide⟩, one, zero, []⟩] := rfl
  have hfirst : ∀ h, firstStep ⟨one, false, one, ⟨2 ^ 30, by decide⟩, one, zero, []⟩
      (marker ⟨2 ^ 30, by decide⟩) h = .error .overflow h := fun h => by
    rw [firstStep, if_pos ⟨by simp [marker], by simp [marker], rfl⟩,
      show (marker ⟨2 ^ 30, by decide⟩).tail = intStr (2 ^ 30) from rfl,
      bind_ok _ (number_intStr ⟨2 ^ 30, by decide⟩)]
    refine bind_error _ ?_
    rw [half, bind_error _ (add_overflow (by decide))]
  have hget : ∀ h : Client, (get : Op Client) h = .ok h h := fun _ => rfl
  rw [hslots, loopFuel, rounds, if_neg (by simp)]
  refine bind_error _ ?_
  rw [round, if_neg (by simp), bind_ok _ (hget _)]
  simp only [hread, if_true]
  exact bind_error _ (hfirst _)

end SmallClientSSE.Horus
