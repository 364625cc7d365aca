import SmallClientSSE.Horus.VersionSearch

/-!
# The ledger of a keyword

A `Ledger` lists the slots of one keyword: `live` of them in use, `top` ever
used, `lat` written since the last search; slot `i` last held `ind i` at access
`acc i`, and its accesses under `src` start at `st i`. `Holds P B w g` reads the
ledger off a pair map and a box map. Online calls keep it for `OMAP_updt` and
`ORAM_srch`, setup calls for the two setup maps: both file an item with `put`
and free a slot with `drop` or `move`.
-/

namespace SmallClientSSE.Horus

open Lib

structure Ledger where
  live : CInt
  top : CInt
  lat : CInt
  access : CInt
  src : CInt
  ind : CInt → CInt
  acc : CInt → CInt
  st : CInt → CInt

/-- No slot. -/
def Ledger.blank : Ledger := ⟨zero, zero, zero, one, zero, fun _ => zero, fun _ => zero, fun _ => zero⟩

def Ledger.Has (g : Ledger) (z : CInt) : Prop :=
  ∃ i : CInt, 1 ≤ i.val ∧ i.val ≤ g.live.val ∧ g.ind i = z

def removedText (k : CInt) : Str := minusOne ++ hash :: intStr k.val

structure Holds (P B : FMap 24) (w : Kw) (g : Ledger) : Prop where
  live_nonneg : 0 ≤ g.live.val
  live_le : g.live.val ≤ g.lat.val
  lat_le : g.lat.val ≤ g.top.val
  access_pos : 1 ≤ g.access.val
  src_nonneg : 0 ≤ g.src.val
  acc_pos : ∀ i : CInt, 1 ≤ i.val → i.val ≤ g.top.val → 1 ≤ (g.acc i).val
  acc_le : ∀ i : CInt, 1 ≤ i.val → i.val ≤ g.top.val → (g.acc i).val ≤ g.access.val
  slot : ∀ i : CInt, 1 ≤ i.val → i.val ≤ g.top.val →
    P (createBid 1 w i) = some (hashText (g.ind i) (g.acc i))
  unused : ∀ i : CInt, g.top.val < i.val → P (createBid 1 w i) = none
  pair : ∀ i : CInt, 1 ≤ i.val → i.val ≤ g.live.val →
    P (createBid 0 w (g.ind i)) = some (hashText i (g.acc i))
  dead : ∀ z, ¬ g.Has z → P (createBid 0 w z) = none ∨
    ∃ k, P (createBid 0 w z) = some (removedText k)
  inj : ∀ i j : CInt, 1 ≤ i.val → i.val ≤ g.live.val → 1 ≤ j.val → j.val ≤ g.live.val →
    g.ind i = g.ind j → i = j
  versions : ∀ i : CInt, 1 ≤ i.val → i.val ≤ g.lat.val →
    Versions (fun a => B (oramBid w i g.src a)) (g.st i) (g.acc i) (g.ind i)
  fresh : ∀ i a : CInt, g.lat.val < i.val → B (oramBid w i g.src a) = none
  later : ∀ i s a : CInt, g.src.val < s.val → B (oramBid w i s a) = none

/-- The larger of two counters. -/
def larger (a b : CInt) : CInt := if a.val < b.val then b else a

theorem larger_val (a b : CInt) : (larger a b).val = max a.val b.val := by
  unfold larger
  split <;> omega

section

variable {P B P' B' : FMap 24} {w : Kw} {g : Ledger}

theorem Holds.frame (h : Holds P B w g) (hP : ∀ p n, P' (createBid p w n) = P (createBid p w n))
    (hB : ∀ i s a, B' (oramBid w i s a) = B (oramBid w i s a)) : Holds P' B' w g where
  live_nonneg := h.live_nonneg
  live_le := h.live_le
  lat_le := h.lat_le
  access_pos := h.access_pos
  src_nonneg := h.src_nonneg
  acc_pos := h.acc_pos
  acc_le := h.acc_le
  slot i h1 h2 := by rw [hP]; exact h.slot i h1 h2
  unused i h1 := by rw [hP]; exact h.unused i h1
  pair i h1 h2 := by rw [hP]; exact h.pair i h1 h2
  dead z hz := by rw [hP]; exact h.dead z hz
  inj := h.inj
  versions i h1 h2 := by simp only [hB]; exact h.versions i h1 h2
  fresh i a h1 := by rw [hB]; exact h.fresh i a h1
  later i s a h1 := by rw [hB]; exact h.later i s a h1

theorem holds_blank (hP : ∀ p n, P (createBid p w n) = none)
    (hB : ∀ i s a, B (oramBid w i s a) = none) : Holds P B w Ledger.blank where
  live_nonneg := le_refl _
  live_le := le_refl _
  lat_le := le_refl _
  access_pos := le_refl _
  src_nonneg := le_refl _
  acc_pos i h1 h2 := absurd (h1.trans h2) (by decide)
  acc_le i h1 h2 := absurd (h1.trans h2) (by decide)
  slot i h1 h2 := absurd (h1.trans h2) (by decide)
  unused i _ := hP 1 i
  pair i h1 h2 := absurd (h1.trans h2) (by decide)
  dead z _ := .inl (hP 0 z)
  inj i j h1 h2 := absurd (h1.trans h2) (by decide)
  versions i h1 h2 := absurd (h1.trans h2) (by decide)
  fresh i a _ := hB i _ a
  later i s a _ := hB i s a

/-! ## Filing an item -/

/-- The access of an item filed in slot `i0`. -/
def Ledger.Next (g : Ledger) (i0 a0 : CInt) : Prop :=
  a0 = one ∨ i0.val ≤ g.top.val ∧ a0.val = (g.acc i0).val + 1

/-- The ledger once `z` is filed in slot `i0` at access `a0`. -/
def Ledger.put (g : Ledger) (z i0 a0 s0 : CInt) : Ledger where
  live := i0
  top := larger g.top i0
  lat := larger g.lat i0
  access := larger g.access a0
  src := g.src
  ind := Function.update g.ind i0 z
  acc := Function.update g.acc i0 a0
  st := Function.update g.st i0 s0

theorem Ledger.has_put {z i0 a0 s0 : CInt} (h0 : 0 ≤ g.live.val) (hi : i0.val = g.live.val + 1)
    (y : CInt) : (g.put z i0 a0 s0).Has y ↔ y = z ∨ g.Has y := by
  simp only [Ledger.Has, Ledger.put, Function.update_apply]
  constructor
  · rintro ⟨i, h1, h2, e⟩
    by_cases h : i = i0
    · exact .inl (by rw [if_pos h] at e; exact e.symm)
    · rw [if_neg h] at e
      have : i.val ≠ i0.val := fun e => h (Subtype.ext e)
      exact .inr ⟨i, h1, by omega, e⟩
  · rintro (rfl | ⟨i, h1, h2, e⟩)
    · exact ⟨i0, by omega, le_refl _, if_pos rfl⟩
    · have : i ≠ i0 := fun e => by rw [e] at h2; omega
      exact ⟨i, h1, by omega, by rw [if_neg this]; exact e⟩

theorem Holds.next_le (hH : Holds P B w g) {i0 a0 : CInt} (hi : 1 ≤ i0.val) (h : g.Next i0 a0) :
    a0.val ≤ g.access.val + 1 := by
  rcases h with rfl | ⟨htop, ha⟩
  · have := hH.access_pos
    show (1 : Int) ≤ g.access.val + 1
    omega
  · have := hH.acc_le i0 hi htop
    omega

/-- **Filing an item** that is not live. -/
theorem Holds.put (h : Holds P B w g) {z i0 a0 s0 : CInt} (hz : ¬ g.Has z)
    (hi : i0.val = g.live.val + 1) (ha : 1 ≤ a0.val)
    (hV : Versions (fun a => B' (oramBid w i0 g.src a)) s0 a0 z)
    (hB : ∀ i s a, i ≠ i0 ∨ s ≠ g.src → B' (oramBid w i s a) = B (oramBid w i s a)) :
    Holds ((P.insert (createBid 0 w z) (hashText i0 a0)).insert (createBid 1 w i0) (hashText z a0))
      B' w (g.put z i0 a0 s0) := by
  have h1 := h.live_nonneg
  have h2 := h.live_le
  have h3 := h.lat_le
  have h4 := h.access_pos
  have htop := larger_val g.top i0
  have hlat := larger_val g.lat i0
  have hacc := larger_val g.access a0
  have hold : ∀ {i : CInt}, i.val ≤ g.live.val → i ≠ i0 := fun hle e => by
    rw [e] at hle
    omega
  constructor
  case live_nonneg => simp only [Ledger.put]; omega
  case live_le => simp only [Ledger.put]; omega
  case lat_le => simp only [Ledger.put]; omega
  case access_pos => simp only [Ledger.put]; omega
  case src_nonneg => exact h.src_nonneg
  case acc_pos =>
    intro i hi1 hi2
    simp only [Ledger.put, Function.update_apply] at hi2 ⊢
    split
    · exact ha
    · next hne =>
      have : i.val ≠ i0.val := fun e => hne (Subtype.ext e)
      exact h.acc_pos i hi1 (by omega)
  case acc_le =>
    intro i hi1 hi2
    simp only [Ledger.put, Function.update_apply] at hi2 ⊢
    split
    · omega
    · next hne =>
      have : i.val ≠ i0.val := fun e => hne (Subtype.ext e)
      have := h.acc_le i hi1 (by omega)
      omega
  case slot =>
    intro i hi1 hi2
    simp only [Ledger.put, Function.update_apply, FMap.insert_apply, createBid_inj] at hi2 ⊢
    by_cases hne : i = i0
    · simp [hne]
    · have : i.val ≠ i0.val := fun e => hne (Subtype.ext e)
      simp only [hne, and_false, if_false, show (1 : Byte) ≠ 0 by decide, false_and]
      exact h.slot i hi1 (by omega)
  case unused =>
    intro i hi1
    simp only [Ledger.put, FMap.insert_apply, createBid_inj] at hi1 ⊢
    have hne : i ≠ i0 := fun e => by rw [e] at hi1; omega
    simp only [hne, and_false, if_false, show (1 : Byte) ≠ 0 by decide, false_and]
    exact h.unused i (by omega)
  case pair =>
    intro i hi1 hi2
    simp only [Ledger.put, Function.update_apply, FMap.insert_apply, createBid_inj] at hi2 ⊢
    by_cases hne : i = i0
    · simp [hne]
    · have : i.val ≠ i0.val := fun e => hne (Subtype.ext e)
      have hle : i.val ≤ g.live.val := by omega
      have hiz : g.ind i ≠ z := fun e => hz ⟨i, hi1, hle, e⟩
      simp only [hne, hiz, and_false, if_false, show (0 : Byte) ≠ 1 by decide, false_and]
      exact h.pair i hi1 hle
  case dead =>
    intro y hy
    rw [Ledger.has_put h1 hi, not_or] at hy
    simp only [FMap.insert_apply, createBid_inj, hy.1, and_false, if_false,
      show (0 : Byte) ≠ 1 by decide, false_and]
    exact h.dead y hy.2
  case inj =>
    intro i j hi1 hi2 hj1 hj2 e
    simp only [Ledger.put, Function.update_apply] at hi2 hj2 e
    by_cases hii : i = i0 <;> by_cases hjj : j = i0
    · rw [hii, hjj]
    · have : j.val ≠ i0.val := fun e => hjj (Subtype.ext e)
      rw [if_pos hii, if_neg hjj] at e
      exact absurd ⟨j, hj1, by omega, e.symm⟩ hz
    · have : i.val ≠ i0.val := fun e => hii (Subtype.ext e)
      rw [if_neg hii, if_pos hjj] at e
      exact absurd ⟨i, hi1, by omega, e⟩ hz
    · have : i.val ≠ i0.val := fun e => hii (Subtype.ext e)
      have : j.val ≠ i0.val := fun e => hjj (Subtype.ext e)
      rw [if_neg hii, if_neg hjj] at e
      exact h.inj i j hi1 (by omega) hj1 (by omega) e
  case versions =>
    intro i hi1 hi2
    simp only [Ledger.put, Function.update_apply] at hi2 ⊢
    by_cases hne : i = i0
    · simp only [hne, if_true]
      exact hV
    · have : i.val ≠ i0.val := fun e => hne (Subtype.ext e)
      simp only [hne, if_false, hB i _ _ (.inl hne)]
      exact h.versions i hi1 (by omega)
  case fresh =>
    intro i a hi1
    simp only [Ledger.put] at hi1 ⊢
    have hne : i ≠ i0 := fun e => by rw [e] at hi1; omega
    rw [hB i _ _ (.inl hne)]
    exact h.fresh i a (by omega)
  case later =>
    intro i s a hs
    simp only [Ledger.put] at hs
    rw [hB i s a (.inr fun e => by rw [e] at hs; omega)]
    exact h.later i s a hs

/-- A new box at the next access of a slot. -/
theorem Versions.extend {V V' : CInt → Option Str} {s m z m' y : CInt} (h : Versions V s m z)
    (hm : m'.val = m.val + 1) (hV : ∀ a, V' a = if a = m' then some (intStr y.val) else V a) :
    Versions V' s m' y where
  one_le := h.one_le
  le := by have := h.le; omega
  num a h1 h2 := by
    rw [hV]
    by_cases ha : a = m'
    · exact ⟨y, if_pos ha⟩
    · have : a.val ≠ m'.val := fun e => ha (Subtype.ext e)
      rw [if_neg ha]
      exact h.num a h1 (by omega)
  last := by rw [hV, if_pos rfl]
  start hs := by
    have h1 := h.le
    have : one ≠ m' := fun e => by
      have := congrArg Subtype.val e
      simp only at this
      omega
    rw [hV, if_neg this]
    exact h.start hs
  above a ha := by
    rw [hV, if_neg fun e => by rw [e] at ha; omega]
    exact h.above a (by omega)

/-- The only box of a slot, with the marker below it. -/
theorem Versions.single {V : CInt → Option Str} {m z : CInt} (hm : 1 ≤ m.val)
    (hV : ∀ a, V a = if a = m then some (intStr z.val)
      else if a = one ∧ 1 < m.val then some (marker m) else none) : Versions V m m z where
  one_le := hm
  le := le_refl _
  num a h1 h2 := ⟨z, by rw [hV, if_pos (Subtype.ext (le_antisymm h2 h1))]⟩
  last := by rw [hV, if_pos rfl]
  start hs := by
    have : one ≠ m := fun e => by rw [← e] at hs; exact absurd hs (by decide)
    rw [hV, if_neg this, if_pos ⟨rfl, hs⟩]
  above a ha := by
    have h1 : a ≠ m := fun e => by rw [e] at ha; omega
    have h2 : a ≠ one := fun e => by rw [e] at ha; simp only at ha; omega
    rw [hV, if_neg h1, if_neg fun h => h2 h.1]

/-! ## Freeing a slot -/

def Ledger.drop (g : Ledger) (live' : CInt) : Ledger := { g with live := live' }

/-- The last item moves to slot `p` at access `a1`. -/
def Ledger.move (g : Ledger) (live' p a1 : CInt) : Ledger :=
  { g with
    live := live'
    access := larger g.access a1
    ind := Function.update g.ind p (g.ind g.live)
    acc := Function.update g.acc p a1 }

section

variable {live' : CInt} (hpos : 1 ≤ g.live.val) (hl : live'.val = g.live.val - 1)

include hpos hl

theorem Holds.has_drop (h : Holds P B w g) (y : CInt) :
    (g.drop live').Has y ↔ g.Has y ∧ y ≠ g.ind g.live := by
  constructor
  · rintro ⟨i, h1, h2, e⟩
    simp only [Ledger.drop] at h2 e
    refine ⟨⟨i, h1, by omega, e⟩, fun e' => ?_⟩
    have := h.inj i g.live h1 (by omega) hpos (le_refl _) (e.trans e')
    rw [this] at h2
    omega
  · rintro ⟨⟨i, h1, h2, e⟩, hne⟩
    have : i.val ≠ g.live.val := fun e' => hne (by rw [← e, Subtype.ext e'])
    exact ⟨i, h1, by simp only [Ledger.drop]; omega, e⟩

/-- **Freeing the last slot.** -/
theorem Holds.drop (h : Holds P B w g) (k : CInt) :
    Holds (P.insert (createBid 0 w (g.ind g.live)) (removedText k)) B w (g.drop live') := by
  have h2 := h.live_le
  have hkey : ∀ n, (P.insert (createBid 0 w (g.ind g.live)) (removedText k)) (createBid 1 w n) =
      P (createBid 1 w n) := fun n => by
    simp [FMap.insert_apply]
  refine ⟨?_, ?_, h.lat_le, h.access_pos, h.src_nonneg, h.acc_pos, h.acc_le, ?_, ?_, ?_, ?_, ?_,
    h.versions, h.fresh, h.later⟩
  · simp only [Ledger.drop]; omega
  · simp only [Ledger.drop]; omega
  · intro i h1 h2
    rw [hkey]
    exact h.slot i h1 h2
  · intro i h1
    rw [hkey]
    exact h.unused i h1
  · intro i h1 h2
    simp only [Ledger.drop] at h2 ⊢
    have hne : g.ind i ≠ g.ind g.live := fun e => by
      have := h.inj i g.live h1 (by omega) hpos (le_refl _) e
      rw [this] at h2
      omega
    simp only [FMap.insert_apply, createBid_inj, hne, and_false, if_false]
    exact h.pair i h1 (by omega)
  · intro y hy
    simp only [FMap.insert_apply, createBid_inj, true_and]
    by_cases hyl : y = g.ind g.live
    · exact .inr ⟨k, if_pos hyl⟩
    · rw [if_neg hyl]
      exact h.dead y fun hh => hy ((h.has_drop hpos hl y).mpr ⟨hh, hyl⟩)
  · intro i j h1 h2 h3 h4
    simp only [Ledger.drop] at h2 h4
    exact h.inj i j h1 (by omega) h3 (by omega)

variable {p a1 : CInt} (hp1 : 1 ≤ p.val) (hp : p.val < g.live.val)

include hp1 hp

theorem Holds.has_move (h : Holds P B w g) (y : CInt) :
    (g.move live' p a1).Has y ↔ g.Has y ∧ y ≠ g.ind p := by
  have hinj : g.ind g.live ≠ g.ind p := fun e => by
    have := h.inj g.live p hpos (le_refl _) hp1 hp.le e
    rw [this] at hp
    omega
  simp only [Ledger.Has, Ledger.move, Function.update_apply]
  constructor
  · rintro ⟨i, h1, h2, e⟩
    by_cases hip : i = p
    · rw [if_pos hip] at e
      exact ⟨⟨g.live, hpos, le_refl _, e⟩, fun e' => hinj (e.trans e')⟩
    · rw [if_neg hip] at e
      exact ⟨⟨i, h1, by omega, e⟩, fun e' => hip (h.inj i p h1 (by omega) hp1 hp.le (e.trans e'))⟩
  · rintro ⟨⟨i, h1, h2, e⟩, hne⟩
    have hip : i ≠ p := fun e' => hne (by rw [← e, e'])
    by_cases hil : i = g.live
    · exact ⟨p, hp1, by omega, by rw [if_pos rfl, ← hil]; exact e⟩
    · have : i.val ≠ g.live.val := fun e' => hil (Subtype.ext e')
      exact ⟨i, h1, by omega, by rw [if_neg hip]; exact e⟩

/-- **Moving the last item into a freed slot.** -/
theorem Holds.move (h : Holds P B w g) (ha : a1.val = (g.acc p).val + 1) (k : CInt) :
    Holds (((P.insert (createBid 0 w (g.ind p)) (removedText k)).insert
      (createBid 0 w (g.ind g.live)) (hashText p a1)).insert (createBid 1 w p)
        (hashText (g.ind g.live) a1))
      (B.insert (oramBid w p g.src a1) (intStr (g.ind g.live).val)) w (g.move live' p a1) := by
  have h2 := h.live_le
  have h3 := h.lat_le
  have h4 := h.access_pos
  have hacc := larger_val g.access a1
  have hinj : g.ind g.live ≠ g.ind p := fun e => by
    have := h.inj g.live p hpos (le_refl _) hp1 hp.le e
    rw [this] at hp
    omega
  have hapos := h.acc_pos p hp1 (by omega)
  have hval : ∀ {i j : CInt}, i ≠ j → i.val ≠ j.val := fun hne e => hne (Subtype.ext e)
  constructor
  case live_nonneg => simp only [Ledger.move]; omega
  case live_le => simp only [Ledger.move]; omega
  case lat_le => exact h.lat_le
  case access_pos => simp only [Ledger.move]; omega
  case src_nonneg => exact h.src_nonneg
  case acc_pos =>
    intro i hi1 hi2
    simp only [Ledger.move, Function.update_apply] at hi2 ⊢
    split
    · omega
    · exact h.acc_pos i hi1 hi2
  case acc_le =>
    intro i hi1 hi2
    simp only [Ledger.move, Function.update_apply] at hi2 ⊢
    split
    · omega
    · have := h.acc_le i hi1 hi2
      omega
  case slot =>
    intro i hi1 hi2
    simp only [Ledger.move, Function.update_apply, FMap.insert_apply, createBid_inj] at hi2 ⊢
    by_cases hip : i = p
    · simp [hip]
    · simp only [hip, and_false, if_false, show (1 : Byte) ≠ 0 by decide, false_and]
      exact h.slot i hi1 hi2
  case unused =>
    intro i hi1
    simp only [Ledger.move, FMap.insert_apply, createBid_inj] at hi1 ⊢
    have hip : i ≠ p := fun e => by rw [e] at hi1; omega
    simp only [hip, and_false, if_false, show (1 : Byte) ≠ 0 by decide, false_and]
    exact h.unused i hi1
  case pair =>
    intro i hi1 hi2
    simp only [Ledger.move, Function.update_apply, FMap.insert_apply, createBid_inj] at hi2 ⊢
    by_cases hip : i = p
    · simp [hip]
    · have hil : g.ind i ≠ g.ind g.live := fun e => by
        have := h.inj i g.live hi1 (by omega) hpos (le_refl _) e
        rw [this] at hi2
        omega
      have hipz : g.ind i ≠ g.ind p := fun e => hip (h.inj i p hi1 (by omega) hp1 hp.le e)
      simp only [hip, hil, hipz, and_false, if_false, show (0 : Byte) ≠ 1 by decide, false_and]
      exact h.pair i hi1 (by omega)
  case dead =>
    intro y hy
    rw [h.has_move hpos hl hp1 hp] at hy
    simp only [FMap.insert_apply, createBid_inj, true_and, show (0 : Byte) ≠ 1 by decide, false_and,
      if_false]
    have hyl : y ≠ g.ind g.live := fun e => hy ⟨⟨g.live, hpos, le_refl _, e.symm⟩, e ▸ hinj⟩
    rw [if_neg hyl]
    by_cases hyp : y = g.ind p
    · exact .inr ⟨k, if_pos hyp⟩
    · rw [if_neg hyp]
      exact h.dead y fun hh => hy ⟨hh, hyp⟩
  case inj =>
    intro i j hi1 hi2 hj1 hj2 e
    simp only [Ledger.move, Function.update_apply] at hi2 hj2 e
    by_cases hii : i = p <;> by_cases hjj : j = p
    · rw [hii, hjj]
    · rw [if_pos hii, if_neg hjj] at e
      have := h.inj g.live j hpos (le_refl _) hj1 (by omega) e
      rw [← this] at hj2
      omega
    · rw [if_neg hii, if_pos hjj] at e
      have := h.inj i g.live hi1 (by omega) hpos (le_refl _) e
      rw [this] at hi2
      omega
    · rw [if_neg hii, if_neg hjj] at e
      exact h.inj i j hi1 (by omega) hj1 (by omega) e
  case versions =>
    intro i hi1 hi2
    simp only [Ledger.move, Function.update_apply] at hi2 ⊢
    by_cases hip : i = p
    · simp only [hip, if_true]
      refine (h.versions p hp1 (by omega)).extend ha fun a => ?_
      simp [FMap.insert_apply]
    · have hbox : ∀ a, (B.insert (oramBid w p g.src a1) (intStr (g.ind g.live).val))
          (oramBid w i g.src a) = B (oramBid w i g.src a) := fun a => by
        simp [FMap.insert_apply, hip]
      simp only [hip, if_false, hbox]
      exact h.versions i hi1 hi2
  case fresh =>
    intro i a hi1
    simp only [Ledger.move] at hi1 ⊢
    have hip : i ≠ p := fun e => by rw [e] at hi1; omega
    simp only [FMap.insert_apply, oramBid_inj, hip, false_and, and_false, if_false]
    exact h.fresh i a hi1
  case later =>
    intro i s a hs
    simp only [Ledger.move] at hs
    have hne : s ≠ g.src := fun e => by rw [e] at hs; omega
    simp only [FMap.insert_apply, oramBid_inj, hne, false_and, and_false, if_false]
    exact h.later i s a hs

end

/-- The ledger once slot `p` is freed at access `a1`. -/
def Ledger.free (g : Ledger) (p live' a1 : CInt) : Ledger :=
  if p = g.live then g.drop live' else g.move live' p a1

def freePairs (P : FMap 24) (w : Kw) (g : Ledger) (p a1 : CInt) : FMap 24 :=
  let P := P.insert (createBid 0 w (g.ind p)) (removedText a1)
  if p = g.live then P
  else (P.insert (createBid 0 w (g.ind g.live)) (hashText p a1)).insert (createBid 1 w p)
    (hashText (g.ind g.live) a1)

def freeBoxes (B : FMap 24) (w : Kw) (g : Ledger) (p a1 : CInt) : FMap 24 :=
  if p = g.live then B else B.insert (oramBid w p g.src a1) (intStr (g.ind g.live).val)

section

variable {p live' a1 : CInt} (hp1 : 1 ≤ p.val) (hp : p.val ≤ g.live.val)
  (hl : live'.val = g.live.val - 1)

theorem Ledger.free_live : (g.free p live' a1).live = live' := by
  unfold Ledger.free
  split <;> rfl

theorem Ledger.free_lat : (g.free p live' a1).lat = g.lat := by
  unfold Ledger.free
  split <;> rfl

theorem Ledger.free_src : (g.free p live' a1).src = g.src := by
  unfold Ledger.free
  split <;> rfl

theorem Ledger.free_access :
    (g.free p live' a1).access = if p = g.live then g.access else larger g.access a1 := by
  unfold Ledger.free
  split <;> rfl

include hp1 hp hl

/-- **Freeing a slot.** -/
theorem Holds.free (h : Holds P B w g) (ha : a1.val = (g.acc p).val + 1) :
    Holds (freePairs P w g p a1) (freeBoxes B w g p a1) w (g.free p live' a1) := by
  unfold Ledger.free freePairs freeBoxes
  by_cases hpl : p = g.live
  · simp only [hpl, if_true]
    exact h.drop (hpl ▸ hp1) hl a1
  · have : p.val ≠ g.live.val := fun e => hpl (Subtype.ext e)
    simp only [hpl, if_false]
    exact h.move (by omega) hl hp1 (by omega) ha a1

theorem Holds.has_free (h : Holds P B w g) (y : CInt) :
    (g.free p live' a1).Has y ↔ g.Has y ∧ y ≠ g.ind p := by
  unfold Ledger.free
  by_cases hpl : p = g.live
  · rw [if_pos hpl, hpl]
    exact h.has_drop (hpl ▸ hp1) hl y
  · have : p.val ≠ g.live.val := fun e => hpl (Subtype.ext e)
    rw [if_neg hpl]
    exact h.has_move (by omega) hl hp1 (by omega) y

end

theorem freePairs_frame (P : FMap 24) {p a1 : CInt} {v : Kw} (hv : v ≠ w) (q : Byte) (n : CInt) :
    freePairs P w g p a1 (createBid q v n) = P (createBid q v n) := by
  unfold freePairs
  split <;> simp [FMap.insert_apply, hv]

theorem freeBoxes_frame (B : FMap 24) {p a1 : CInt} {v : Kw} (hv : v ≠ w) (i s a : CInt) :
    freeBoxes B w g p a1 (oramBid v i s a) = B (oramBid v i s a) := by
  unfold freeBoxes
  split <;> simp [FMap.insert_apply, hv]

/-! ## A search -/

def Ledger.refile (g : Ledger) (next : CInt) : Ledger :=
  { g with src := next, lat := g.live, st := g.acc }

/-- **Filing every live item again** under the next `SrchCnt`. -/
theorem Holds.refile (h : Holds P B w g) {next : CInt} (hn : next.val = g.src.val + 1)
    {q : FMap 24} {new : List CInt}
    (hnew : ∀ i : CInt, i ∈ new ↔ 1 ≤ i.val ∧ i.val ≤ g.live.val)
    (hW : Wrote w next g.acc g.ind (fun _ => none) q new) :
    Holds P (B.setupInsert q) w (g.refile next) := by
  have h1 := h.live_nonneg
  have h2 := h.live_le
  have h3 := h.lat_le
  have h4 := h.src_nonneg
  have hother : ∀ i s a : CInt, s ≠ next ∨ i ∉ new → q (oramBid w i s a) = none := by
    intro i s a hne
    refine hW.2 _ fun j hj b e => ?_
    obtain ⟨-, rfl, rfl, -⟩ := oramBid_inj.mp e
    rcases hne with hne | hne
    exacts [hne rfl, hne hj]
  refine ⟨h1, le_refl _, ?_, h.access_pos, ?_, h.acc_pos, h.acc_le, h.slot, h.unused, h.pair,
    h.dead, h.inj, ?_, ?_, ?_⟩
  · simp only [Ledger.refile]; omega
  · simp only [Ledger.refile]; omega
  · intro i hi1 hi2
    simp only [Ledger.refile] at hi2 ⊢
    refine Versions.single (h.acc_pos i hi1 (by omega)) fun a => ?_
    simp only [FMap.setupInsert]
    rw [hW.1 i ((hnew i).mpr ⟨hi1, hi2⟩), h.later i next a (by omega), Option.or_none]
    rfl
  · intro i a hi1
    simp only [Ledger.refile] at hi1 ⊢
    have hni : i ∉ new := fun hmem => by
      have := ((hnew i).mp hmem).2
      omega
    simp only [FMap.setupInsert, hother i next a (.inr hni), Option.none_or]
    exact h.later i next a (by omega)
  · intro i s a hs
    simp only [Ledger.refile] at hs
    have hne : s ≠ next := fun e => by rw [e] at hs; omega
    simp only [FMap.setupInsert, hother i s a (.inl hne), Option.none_or]
    exact h.later i s a (by omega)

end

end SmallClientSSE.Horus
