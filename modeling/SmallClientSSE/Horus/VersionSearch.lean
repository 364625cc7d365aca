import SmallClientSSE.Horus.Keys
import SmallClientSSE.Lib.Effect

/-!
# The version search of Horus

`Versions V s m z`: a slot holds numbers at the accesses `s` to `m`, `z` at `m`,
the marker at access `1` when `s` is not `1`, and nothing above. The loop of
`search` keeps `m` between `left` and `right`; every run lowers `weight`, and
when the two meet the slot is found with its newest item. Slots do not interact,
so `rounds_spec` follows slot by slot.
-/

namespace SmallClientSSE.Horus

open Lib Lib.Effect

/-! ## Effects -/

section

variable {α : Type} {h : Client}

@[simp] theorem pure_run (a : α) : (pure a : Op α) h = .ok a h := rfl

theorem checked_ok {z : Int} (hz : InInt z) : checked z h = .ok ⟨z, hz⟩ h := by
  simp [checked, hz]

theorem add_overflow {a : CInt} {k : Int} (hz : ¬ InInt (a.val + k)) :
    add a k h = .error .overflow h := by
  simp only [add, checked, dif_neg hz]
  rfl

theorem add_ok {a : CInt} {k : Int} (hz : InInt (a.val + k)) : add a k h = .ok ⟨_, hz⟩ h :=
  checked_ok hz

theorem number_ok {v : Str} {z : CInt} (hv : stoi v = some z) : number v h = .ok z h := by
  simp [number, hv]

theorem number_intStr (z : CInt) : number (intStr z.val) h = .ok z h :=
  number_ok (stoi_intStr_self z)

end

/-- The accesses of one slot. -/
structure Versions (V : CInt → Option Str) (s m z : CInt) : Prop where
  one_le : 1 ≤ s.val
  le : s.val ≤ m.val
  num : ∀ a : CInt, s.val ≤ a.val → a.val ≤ m.val → ∃ y : CInt, V a = some (intStr y.val)
  last : V m = some (intStr z.val)
  start : 1 < s.val → V one = some (marker s)
  above : ∀ a : CInt, m.val < a.val → V a = none

/-- The same with any texts that `stoi` reads and that are no markers: `v` with number `z` is
the newest one. -/
structure Texts (V : CInt → Option Str) (s m : CInt) (v : Str) (z : CInt) : Prop where
  one_le : 1 ≤ s.val
  le : s.val ≤ m.val
  num : ∀ a : CInt, s.val ≤ a.val → a.val ≤ m.val →
    ∃ u y, V a = some u ∧ u ≠ [] ∧ u[0]? ≠ some 64 ∧ stoi u = some y
  last : V m = some v
  item : stoi v = some z
  start : 1 < s.val → V one = some (marker s)
  above : ∀ a : CInt, m.val < a.val → V a = none

theorem Versions.texts {V : CInt → Option Str} {s m z : CInt} (hV : Versions V s m z) :
    Texts V s m (intStr z.val) z where
  one_le := hV.one_le
  le := hV.le
  num a h1 h2 := by
    obtain ⟨y, hy⟩ := hV.num a h1 h2
    exact ⟨_, y, hy, intStr_ne_nil _, head_intStr y, stoi_intStr_self y⟩
  last := hV.last
  item := stoi_intStr_self z
  start := hV.start
  above := hV.above

/-- What the loop knows of a slot whose accesses are at most `A`. -/
structure SlotOk (V : CInt → Option Str) (s m A : CInt) (t : Slot) : Prop where
  start_le : s.val ≤ t.left.val
  left_le : t.left.val ≤ m.val
  le_right : m.val ≤ t.right.val
  right_le : t.right.val ≤ A.val
  left_cur : t.left.val ≤ t.curValue.val
  cur_right : t.curValue.val ≤ t.right.val
  at_left : t.curValue.val = t.left.val → t.right.val - t.left.val ≤ 1
  at_right : t.curValue.val = t.right.val → t.right.val - t.left.val ≤ 1
  last : t.lastID = [] ∨ (t.lastAcc = t.left ∧ V t.left = some t.lastID)

/-- How far a slot is from being found. -/
def weight (t : Slot) : Nat :=
  (2 * (t.right.val - t.left.val) + if t.curValue.val = t.right.val then 0 else 1).toNat

section

variable {V : CInt → Option Str} {s m z A : CInt} {v : Str} {t : Slot} {h : Client}

theorem half_ok {l r : CInt} (hl : 0 ≤ l.val) (hr : 0 ≤ r.val) (hlr : l.val + r.val < 2 ^ 31) :
    ∃ c : CInt, half l r h = .ok c h ∧ c.val = (l.val + r.val) / 2 := by
  have h1 : InInt (l.val + r.val) := ⟨by omega, by omega⟩
  have h2 : (l.val + r.val).tdiv 2 = (l.val + r.val) / 2 := Int.tdiv_eq_ediv_of_nonneg (by omega)
  have h3 : InInt ((l.val + r.val).tdiv 2) := by rw [h2]; exact ⟨by omega, by omega⟩
  exact ⟨⟨_, h3⟩, by rw [half, bind_ok _ (add_ok h1), checked_ok h3], h2⟩

theorem floorHalf_ok {l r : CInt} (hl : 0 ≤ l.val) (hr : 0 ≤ r.val) (hlr : l.val + r.val < 2 ^ 31) :
    ∃ c : CInt, floorHalf l r h = .ok c h ∧ c.val = (l.val + r.val) / 2 := by
  have h1 : InInt (l.val + r.val) := ⟨by omega, by omega⟩
  have h3 : InInt ((l.val + r.val) / 2) := ⟨by omega, by omega⟩
  exact ⟨⟨_, h3⟩, by rw [floorHalf, bind_ok _ (add_ok h1), checked_ok h3], rfl⟩

theorem ceilHalf_ok {l r : CInt} (hl : 0 ≤ l.val) (hr : 0 ≤ r.val) (hlr : l.val + r.val < 2 ^ 31) :
    ∃ c : CInt, ceilHalf l r h = .ok c h ∧ c.val = (l.val + r.val + 1) / 2 := by
  have h1 : InInt (l.val + r.val) := ⟨by omega, by omega⟩
  have h3 : InInt ((l.val + r.val + 1) / 2) := ⟨by omega, by omega⟩
  exact ⟨⟨_, h3⟩, by rw [ceilHalf, bind_ok _ (add_ok h1), checked_ok h3], rfl⟩

/-- What a read at an access of the slot returns. -/
theorem Texts.read (hV : Texts V s m v z) {a : CInt} (ha : s.val ≤ a.val) :
    (a.val ≤ m.val ∧ ∃ u, V a = some u ∧ u ≠ []) ∨ (m.val < a.val ∧ V a = none) := by
  rcases le_or_gt a.val m.val with hle | hlt
  · obtain ⟨u, _, hu, hne, -⟩ := hV.num a ha hle
    exact .inl ⟨hle, u, hu, hne⟩
  · exact .inr ⟨hlt, hV.above a hlt⟩

/-- **The first run** moves `left` to the start of the accesses. -/
theorem firstStep_spec (hV : Texts V s m v z) (hmA : m.val ≤ A.val) (hA : m.val + A.val < 2 ^ 31)
    (hleft : t.left = one) (hright : t.right = A) (hcur : t.curValue = one) (hid : t.lastID = []) :
    ∃ t', firstStep t ((V t.curValue).getD []) h = .ok t' h ∧ t'.index = t.index ∧
      t'.found = t.found ∧ SlotOk V s m A t' ∧ weight t' < 2 * A.val.toNat := by
  have h1 := hV.one_le
  have h2 := hV.le
  have hl1 : t.left.val = 1 := by rw [hleft]
  have hr : t.right.val = A.val := by rw [hright]
  have key : ∀ l c : CInt, l.val = s.val → c.val = (l.val + A.val) / 2 → ∀ a : CInt,
      SlotOk V s m A { t with left := l, curValue := c, lastAcc := a } ∧
        weight { t with left := l, curValue := c, lastAcc := a } < 2 * A.val.toNat := by
    intro l c hl hc a
    refine ⟨⟨?_, ?_, ?_, ?_, ?_, ?_, ?_, ?_, .inl hid⟩, ?_⟩
    all_goals simp only [weight]
    all_goals omega
  by_cases hs : 1 < s.val
  · have hread : (V t.curValue).getD [] = marker s := by rw [hcur, hV.start hs]; rfl
    obtain ⟨c, hc1, hc2⟩ := half_ok (h := h) (l := s) (r := t.right) (by omega) (by omega) (by omega)
    refine ⟨{ t with left := s, curValue := c, lastAcc := c }, ?_, rfl, rfl,
      key s c rfl (by rw [hc2, hr]) c⟩
    rw [hread, firstStep, if_pos ⟨by simp [marker], by simp [marker], hl1⟩,
      show (marker s).tail = intStr s.val from rfl, bind_ok _ (number_intStr s), bind_ok _ hc1]
    rfl
  · have hs1 : s = one := Subtype.ext (show s.val = 1 by omega)
    obtain ⟨u, _, hu, -, hhead, -⟩ := hV.num one (by rw [hs1]) (by rw [← hs1]; exact h2)
    have hread : (V t.curValue).getD [] = u := by rw [hcur, hu]; rfl
    obtain ⟨c, hc1, hc2⟩ := half_ok (h := h) (l := t.left) (r := t.right) (by omega) (by omega)
      (by omega)
    refine ⟨{ t with curValue := c }, ?_, rfl, rfl,
      key t.left c (by rw [hl1, hs1]) (by rw [hc2, hr]) t.lastAcc⟩
    rw [hread, firstStep, if_neg (fun hcond => hhead hcond.2.1), bind_ok _ hc1]
    rfl

/-- **A later run** finds the slot or comes closer. -/
theorem laterStep_spec (hV : Texts V s m v z) (hA : m.val + A.val < 2 ^ 31) (hT : SlotOk V s m A t)
    (hf : t.found = false) :
    ∃ t' item, laterStep t ((V t.curValue).getD []) h = .ok (t', item) h ∧ t'.index = t.index ∧
      ((item = some z ∧ t'.found = true ∧ t'.lastAcc = m ∧ t'.lastID = v) ∨
        (item = none ∧ t'.found = false ∧ SlotOk V s m A t' ∧ weight t' < weight t)) := by
  obtain ⟨h1, h2, h3, h4, h5, h6, h7, h8, h9⟩ := hT
  have hs := hV.one_le
  rcases hV.read (a := t.curValue) (by omega) with ⟨hle, u, hy, hne⟩ | ⟨hlt, hy⟩
  · by_cases hlr : t.left.val = t.right.val
    · -- left and right have met at the newest access
      have hcm : t.curValue = m := Subtype.ext (by omega)
      have hlm : t.left = m := Subtype.ext (by omega)
      have hyz : u = v := by
        have := hV.last
        rw [← hcm, hy] at this
        simpa using this
      rw [hy, Option.getD_some, hyz, laterStep, if_pos (.inr (Subtype.coe_le_coe.mp (by omega))),
        if_pos (Subtype.coe_le_coe.mp (by omega))]
      by_cases hid : t.lastID = []
      · refine ⟨{ t with lastID := v, lastAcc := t.curValue, found := true }, some z, ?_,
          rfl, .inl ⟨rfl, rfl, hcm, rfl⟩⟩
        simp only [if_pos hid]
        rw [bind_ok _ (number_ok hV.item)]
        rfl
      · obtain ⟨ha, hv⟩ := h9.resolve_left hid
        have hidz : t.lastID = v := by
          have := hV.last
          rw [← hlm, hv] at this
          simpa using this
        refine ⟨{ t with found := true }, some z, ?_, rfl, .inl ⟨rfl, rfl, ha.trans hlm, hidz⟩⟩
        simp only [if_neg hid]
        rw [hidz, bind_ok _ (number_ok hV.item), ← hidz]
        rfl
    · have hlt' : ¬ t.right ≤ t.left := fun hle' => by
        have := Subtype.coe_le_coe.mpr hle'
        omega
      rw [hy, Option.getD_some, laterStep, if_neg (by
        rintro (h | h)
        exacts [hne h, hlt' h])]
      by_cases hcl : t.curValue = t.left
      · have hclv : t.curValue.val = t.left.val := congrArg Subtype.val hcl
        have hd := h7 hclv
        obtain ⟨c, hc1, hc2⟩ := ceilHalf_ok (h := h) (l := t.left) (r := t.right) (by omega)
          (by omega) (by omega)
        refine ⟨{ t with lastID := u, lastAcc := t.curValue, curValue := c }, none,
          by simp only [if_pos hcl]; rw [bind_ok _ hc1]; rfl, rfl,
          .inr ⟨rfl, hf, ⟨h1, h2, h3, h4, ?_, ?_, ?_, ?_, .inr ⟨hcl, hcl ▸ hy⟩⟩, ?_⟩⟩
        all_goals simp only [weight]
        all_goals omega
      · have hclv : t.curValue.val ≠ t.left.val := fun e => hcl (Subtype.ext e)
        obtain ⟨c, hc1, hc2⟩ := floorHalf_ok (h := h) (l := t.curValue) (r := t.right) (by omega)
          (by omega) (by omega)
        refine ⟨{ t with
            lastID := u, lastAcc := t.curValue, left := t.curValue, curValue := c }, none,
          by simp only [if_neg hcl]; rw [bind_ok _ hc1]; rfl, rfl,
          .inr ⟨rfl, hf, ⟨?_, hle, h3, h4, ?_, ?_, ?_, ?_, .inr ⟨rfl, hy⟩⟩, ?_⟩⟩
        all_goals simp only [weight]
        all_goals omega
  · -- nothing at this access: the newest one is before it
    have hlr : t.left.val < t.right.val := by omega
    have hlt' : ¬ t.right ≤ t.left := fun hle' => by
      have := Subtype.coe_le_coe.mpr hle'
      omega
    rw [hy, Option.getD_none, laterStep, if_pos (.inl rfl), if_neg hlt']
    by_cases hcr : t.curValue = t.right
    · have hcrv : t.curValue.val = t.right.val := congrArg Subtype.val hcr
      have hd := h8 hcrv
      obtain ⟨c, hc1, hc2⟩ := floorHalf_ok (h := h) (l := t.left) (r := t.right) (by omega)
        (by omega) (by omega)
      refine ⟨{ t with curValue := c, right := c }, none,
        by rw [if_pos hcr, bind_ok _ hc1]; rfl, rfl,
        .inr ⟨rfl, hf, ⟨h1, h2, ?_, ?_, ?_, ?_, ?_, ?_, h9⟩, ?_⟩⟩
      all_goals simp only [weight]
      all_goals omega
    · have hcrv : t.curValue.val ≠ t.right.val := fun e => hcr (Subtype.ext e)
      obtain ⟨c, hc1, hc2⟩ := ceilHalf_ok (h := h) (l := t.left) (r := t.curValue) (by omega)
        (by omega) (by omega)
      refine ⟨{ t with curValue := c, right := t.curValue }, none,
        by rw [if_neg hcr, bind_ok _ hc1]; rfl, rfl,
        .inr ⟨rfl, hf, ⟨h1, h2, ?_, ?_, ?_, ?_, ?_, ?_, h9⟩, ?_⟩⟩
      all_goals simp only [weight]
      all_goals omega

end

/-! ## The loop -/

/-- What a search files for slot `i` with newest access `acc i` and item `ind i`. -/
def target (acc ind : CInt → CInt) (i a : CInt) : Option Str :=
  if a = acc i then some (intStr (ind i).val)
  else if a = one ∧ 1 < (acc i).val then some (marker (acc i))
  else none

/-- The same with the text `txt i` of the item. -/
def rewritten (acc : CInt → CInt) (txt : CInt → Str) (i a : CInt) : Option Str :=
  if a = acc i then some (txt i)
  else if a = one ∧ 1 < (acc i).val then some (marker (acc i))
  else none

/-- The slots not found yet. -/
def pending (ss : List Slot) : List CInt := (ss.filter fun t => !t.found).map Slot.index

section

variable (w : Kw) (S next : CInt) (st acc ind : CInt → CInt) (txt : CInt → Str) (A : CInt)
  (h : Client)

def boxes (i a : CInt) : Option Str := h.ORAM_srch (oramBid w i S a)

/-- Slot `i` holds texts at the accesses `st i` to `acc i`, within what the loop can add. -/
structure Holding (i : CInt) : Prop where
  acc_le : (acc i).val ≤ A.val
  int : (acc i).val + A.val < 2 ^ 31
  texts : Texts (boxes w S h i) (st i) (acc i) (txt i) (ind i)

/-- A slot that is found, or will be within `B` runs. -/
def Ready (B : Nat) (t : Slot) : Prop :=
  t.found = true ∨ (t.found = false ∧
    SlotOk (boxes w S h t.index) (st t.index) (acc t.index) A t ∧ weight t < B)

/-- `q'` holds the items of the slots `new`, and what `q` holds elsewhere. -/
def Wrote (q q' : FMap 24) (new : List CInt) : Prop :=
  (∀ i ∈ new, ∀ a, q' (oramBid w i next a) = target acc ind i a) ∧
    ∀ k, (∀ i ∈ new, ∀ a, k ≠ oramBid w i next a) → q' k = q k

/-- The same with the texts of the items. -/
def Rewrote (q q' : FMap 24) (new : List CInt) : Prop :=
  (∀ i ∈ new, ∀ a, q' (oramBid w i next a) = rewritten acc txt i a) ∧
    ∀ k, (∀ i ∈ new, ∀ a, k ≠ oramBid w i next a) → q' k = q k

variable {w S next st acc ind txt A h}

theorem rewrote_nil (q : FMap 24) : Rewrote w next acc txt q q [] :=
  ⟨fun _ hi => absurd hi List.not_mem_nil, fun _ _ => rfl⟩

theorem Rewrote.append {q q1 q2 : FMap 24} {l1 l2 : List CInt}
    (h1 : Rewrote w next acc txt q q1 l1) (h2 : Rewrote w next acc txt q1 q2 l2)
    (hd : ∀ i ∈ l1, i ∉ l2) : Rewrote w next acc txt q q2 (l1 ++ l2) := by
  refine ⟨fun i hi a => ?_, fun k hk => ?_⟩
  · rcases List.mem_append.mp hi with hi | hi
    · rw [h2.2 _ fun j hj b e => hd i hi (by rw [(oramBid_inj.mp e).2.1]; exact hj), h1.1 i hi]
    · exact h2.1 i hi a
  · rw [h2.2 k fun i hi => hk i (List.mem_append_right _ hi),
      h1.2 k fun i hi => hk i (List.mem_append_left _ hi)]

theorem enqueue_apply (q : FMap 24) {k : Bid 24} (hk : q k = none) (v : Str) (j : Bid 24) :
    enqueue q k v j = if j = k then some v else q j := by
  rw [enqueue, hk]
  exact FMap.insert_apply q k j v

theorem enqueueSlot_wrote {q : FMap 24} {t : Slot}
    (hq : ∀ a, q (oramBid w t.index next a) = none) (hacc : t.lastAcc = acc t.index)
    (hid : t.lastID = txt t.index) :
    Rewrote w next acc txt q (enqueueSlot w next q t) [t.index] := by
  have h1 := enqueue_apply q (hq t.lastAcc) t.lastID
  unfold enqueueSlot
  by_cases hlt : t.lastAcc.val > 1
  · have hne : oramBid w t.index next one ≠ oramBid w t.index next t.lastAcc := fun e => by
      rw [← (oramBid_inj.mp e).2.2.2] at hlt
      exact absurd hlt (by decide)
    have h2 := enqueue_apply (enqueue q (oramBid w t.index next t.lastAcc) t.lastID)
      (k := oramBid w t.index next one) (by rw [h1, if_neg hne, hq]) (marker t.lastAcc)
    rw [if_pos hlt]
    refine ⟨fun i hi a => ?_, fun k hk => ?_⟩
    · rw [List.mem_singleton.mp hi, h2, h1, hq, rewritten, ← hacc, ← hid]
      by_cases ha1 : a = one
      · have : a ≠ t.lastAcc := fun e => hne (by rw [← e, ha1])
        rw [if_pos (by rw [ha1]), if_neg this, if_pos ⟨ha1, hlt⟩]
      · by_cases ha : a = t.lastAcc
        · have hl1 : t.lastAcc ≠ one := fun e => ha1 (ha.trans e)
          simp [ha, hl1]
        · simp [ha1, ha]
    · have := hk t.index List.mem_cons_self
      rw [h2, h1, if_neg (this _), if_neg (this _)]
  · rw [if_neg hlt]
    refine ⟨fun i hi a => ?_, fun k hk => ?_⟩
    · rw [List.mem_singleton.mp hi, h1, hq, rewritten, ← hacc, ← hid]
      by_cases ha : a = t.lastAcc
      · simp [ha]
      · simp [ha, Int.not_lt.mpr (Int.not_lt.mp hlt)]
    · rw [h1, if_neg (hk t.index List.mem_cons_self _)]

/-- **One run** finds some slots and brings the others closer. -/
theorem round_spec {B : Nat} : ∀ (ss : List Slot) (q : FMap 24),
    (ss.map Slot.index).Nodup →
    (∀ t ∈ ss, Holding w S st acc ind txt A h t.index) →
    (∀ t ∈ ss, Ready w S st acc A h (B + 1) t) →
    (∀ i ∈ pending ss, ∀ a, q (oramBid w i next a) = none) →
    ∃ ss' new q', round w S next false ss q h = .ok (ss', new.map ind, q') h ∧
      ss'.map Slot.index = ss.map Slot.index ∧ (∀ t ∈ ss', Ready w S st acc A h B t) ∧
      (pending ss).Perm (new ++ pending ss') ∧ Rewrote w next acc txt q q' new := by
  intro ss
  induction ss with
  | nil =>
    intro q _ _ _ _
    exact ⟨[], [], q, rfl, rfl, fun t ht => absurd ht List.not_mem_nil, List.Perm.refl _, rewrote_nil q⟩
  | cons t ss ih =>
    intro q hnd hV hR hq
    obtain ⟨hnot, hnd⟩ := List.nodup_cons.mp hnd
    have hVs := fun u hu => hV u (List.mem_cons_of_mem _ hu)
    have hRs := fun u hu => hR u (List.mem_cons_of_mem _ hu)
    have hpend : ∀ i ∈ pending ss, i ≠ t.index := fun i hi e => hnot (by
      obtain ⟨u, hu, rfl⟩ := List.mem_map.mp hi
      exact e ▸ List.mem_map_of_mem (List.mem_filter.mp hu).1)
    rcases hR t List.mem_cons_self with hf | ⟨hf, hT, hw⟩
    · have hp : pending (t :: ss) = pending ss := by simp [pending, hf]
      rw [hp] at hq ⊢
      obtain ⟨ss', new, q', hrun, hidx, hR', hperm, hW⟩ := ih q hnd hVs hRs hq
      refine ⟨t :: ss', new, q', ?_, by simp [hidx], ?_, by simpa [pending, hf] using hperm, hW⟩
      · unfold round
        rw [if_pos hf, bind_ok _ hrun]
        rfl
      · intro u hu
        rcases List.mem_cons.mp hu with rfl | hu
        · exact .inl hf
        · exact hR' u hu
    · have hp : pending (t :: ss) = t.index :: pending ss := by simp [pending, hf]
      rw [hp] at hq ⊢
      obtain ⟨t', item, hstep, hti, hcase⟩ := laterStep_spec (h := h)
        (hV t List.mem_cons_self).texts (hV t List.mem_cons_self).int hT hf
      have hget : (get : Op Client) h = .ok h h := rfl
      have hid : h.ORAM_srch.find (oramBid w t.index S t.curValue) =
          (boxes w S h t.index t.curValue).getD [] := rfl
      rcases hcase with ⟨rfl, hf', hla, hli⟩ | ⟨rfl, hf', hT', hw'⟩
      · have hWt : Rewrote w next acc txt q (enqueueSlot w next q t') [t'.index] := enqueueSlot_wrote
          (by rw [hti]; exact hq t.index List.mem_cons_self) (by rw [hla, hti]) (by rw [hli, hti])
        rw [hti] at hWt
        obtain ⟨ss', new, q', hrun, hidx, hR', hperm, hW⟩ := ih (enqueueSlot w next q t') hnd hVs
          hRs fun i hi a => by
            rw [hWt.2 _ fun j hj b e => hpend i hi
              ((oramBid_inj.mp e).2.1.trans (List.mem_singleton.mp hj))]
            exact hq i (List.mem_cons_of_mem _ hi) a
        have hsub : ∀ i ∈ new, i ∈ pending ss := fun i hi =>
          hperm.symm.subset (List.mem_append_left _ hi)
        refine ⟨t' :: ss', t.index :: new, q', ?_, by simp [hti, hidx], ?_, ?_, ?_⟩
        · unfold round
          rw [if_neg (by simp [hf]), bind_ok _ hget]
          simp only [Bool.false_eq_true, if_false, hid]
          rw [bind_ok _ hstep]
          simp only [Option.isSome_some, if_true]
          rw [bind_ok _ hrun]
          rfl
        · intro u hu
          rcases List.mem_cons.mp hu with rfl | hu
          · exact .inl hf'
          · exact hR' u hu
        · simpa [pending, hf'] using hperm
        · exact hWt.append hW fun i hi hmem =>
            hpend i (hsub i hmem) (List.mem_singleton.mp hi)
      · obtain ⟨ss', new, q', hrun, hidx, hR', hperm, hW⟩ := ih q hnd hVs hRs
          fun i hi => hq i (List.mem_cons_of_mem _ hi)
        refine ⟨t' :: ss', new, q', ?_, by simp [hti, hidx], ?_, ?_, hW⟩
        · unfold round
          rw [if_neg (by simp [hf]), bind_ok _ hget]
          simp only [Bool.false_eq_true, if_false, hid]
          rw [bind_ok _ hstep]
          simp only [Option.isSome_none, Bool.false_eq_true, if_false]
          rw [bind_ok _ hrun]
          rfl
        · intro u hu
          rcases List.mem_cons.mp hu with rfl | hu
          · refine .inr ⟨hf', ?_, by omega⟩
            rw [hti]
            exact hT'
          · exact hR' u hu
        · have hp' : pending (t' :: ss') = t.index :: pending ss' := by simp [pending, hf', hti]
          rw [hp']
          exact (hperm.cons _).trans List.perm_middle.symm

/-- **The loop finds every slot.** -/
theorem rounds_spec : ∀ (B fuel : Nat) (ss : List Slot) (q : FMap 24),
    B < fuel → (ss.map Slot.index).Nodup →
    (∀ t ∈ ss, Holding w S st acc ind txt A h t.index) →
    (∀ t ∈ ss, Ready w S st acc A h B t) →
    (∀ i ∈ pending ss, ∀ a, q (oramBid w i next a) = none) →
    ∃ new q', rounds w S next fuel false ss q h = .ok (new.map ind, q') h ∧
      (pending ss).Perm new ∧ Rewrote w next acc txt q q' new := by
  intro B
  induction B with
  | zero =>
    rintro (_ | fuel) ss q hfuel - - hR -
    · omega
    have hall : ∀ t ∈ ss, t.found = true := fun t ht =>
      (hR t ht).resolve_right fun h' => absurd h'.2.2 (Nat.not_lt_zero _)
    refine ⟨[], q, ?_, ?_, rewrote_nil q⟩
    · rw [rounds, if_pos (List.all_eq_true.mpr hall)]
      rfl
    · have : ss.filter (fun t => !t.found) = [] :=
        List.filter_eq_nil_iff.mpr fun t ht => by simp [hall t ht]
      rw [pending, this]
      exact List.Perm.refl _
  | succ B ih =>
    rintro (_ | fuel) ss q hfuel hnd hV hR hq
    · omega
    by_cases hall : ss.all Slot.found = true
    · refine ⟨[], q, ?_, ?_, rewrote_nil q⟩
      · rw [rounds, if_pos hall]
        rfl
      · have : ss.filter (fun t => !t.found) = [] :=
          List.filter_eq_nil_iff.mpr fun t ht => by simp [List.all_eq_true.mp hall t ht]
        rw [pending, this]
        exact List.Perm.refl _
    · obtain ⟨ss', new, q1, hrun, hidx, hR', hperm, hW⟩ := round_spec ss q hnd hV hR hq
      have hpn : (pending ss).Nodup := hnd.sublist (List.filter_sublist.map _)
      obtain ⟨-, -, hdisj⟩ := List.nodup_append.mp (hperm.nodup_iff.mp hpn)
      have hV' : ∀ t ∈ ss', Holding w S st acc ind txt A h t.index := fun t ht => by
        have := List.mem_map_of_mem (f := Slot.index) ht
        rw [hidx] at this
        obtain ⟨u, hu, e⟩ := List.mem_map.mp this
        exact e ▸ hV u hu
      obtain ⟨new', q', hrun', hperm', hW'⟩ := ih fuel ss' q1 (by omega) (hidx ▸ hnd) hV' hR'
        fun i hi a => by
          rw [hW.2 _ fun j hj b e => hdisj j hj i hi (oramBid_inj.mp e).2.1.symm]
          exact hq i (hperm.symm.subset (List.mem_append_right _ hi)) a
      refine ⟨new ++ new', q', ?_, hperm.trans (hperm'.append_left _), hW.append hW' fun i hi hi' =>
        hdisj i hi i (hperm'.symm.subset hi') rfl⟩
      rw [rounds, if_neg hall, bind_ok _ hrun]
      simp only
      rw [bind_ok _ hrun', List.map_append]
      rfl

/-- **The first run of all slots.** -/
theorem first_round : ∀ (ss : List Slot) (q : FMap 24),
    (∀ t ∈ ss, t.found = false ∧ t.left = one ∧ t.right = A ∧ t.curValue = one ∧ t.lastID = [] ∧
      Holding w S st acc ind txt A h t.index) →
    ∃ ss', round w S next true ss q h = .ok (ss', [], q) h ∧
      ss'.map Slot.index = ss.map Slot.index ∧
      ∀ t ∈ ss', t.found = false ∧ Ready w S st acc A h (2 * A.val.toNat) t := by
  intro ss
  induction ss with
  | nil => exact fun q _ => ⟨[], rfl, rfl, fun t ht => absurd ht List.not_mem_nil⟩
  | cons t ss ih =>
    intro q hall
    obtain ⟨hf, hl, hr, hc, hid, hV⟩ := hall t List.mem_cons_self
    obtain ⟨t', hstep, hti, hf', hT, hw⟩ := firstStep_spec (h := h) hV.texts hV.acc_le
      hV.int hl hr hc hid
    obtain ⟨ss', hrun, hidx, hR⟩ := ih q fun u hu => hall u (List.mem_cons_of_mem _ hu)
    have hget : (get : Op Client) h = .ok h h := rfl
    have hread : h.ORAM_srch.find (oramBid w t.index S t.curValue) =
        (boxes w S h t.index t.curValue).getD [] := rfl
    refine ⟨t' :: ss', ?_, by simp [hti, hidx], fun u hu => ?_⟩
    · unfold round
      rw [if_neg (by simp [hf]), bind_ok _ hget]
      simp only [if_true, hread]
      rw [bind_ok _ hstep, bind_ok _ hrun]
      rfl
    · rcases List.mem_cons.mp hu with rfl | hu
      · rw [hf] at hf'
        exact ⟨hf', .inr ⟨hf', by rw [hti]; exact hT, hw⟩⟩
      · exact hR u hu

theorem mem_initSlots {U : CInt} {i : CInt} :
    i ∈ (initSlots U A).map Slot.index ↔ 1 ≤ i.val ∧ i.val ≤ U.val := by
  simp only [initSlots, List.map_ofFn, List.mem_ofFn, Function.comp_apply]
  constructor
  · rintro ⟨⟨k, hk⟩, rfl⟩
    simp only
    omega
  · rintro ⟨h1, h2⟩
    exact ⟨⟨(i.val - 1).toNat, by omega⟩, Subtype.ext (by simp only; omega)⟩

theorem nodup_initSlots (U : CInt) : ((initSlots U A).map Slot.index).Nodup := by
  rw [initSlots, List.map_ofFn, List.nodup_ofFn]
  rintro ⟨i, hi⟩ ⟨j, hj⟩ e
  have := congrArg Subtype.val e
  simp only [Function.comp_apply] at this
  exact Fin.ext (by simp only; omega)

/-- **The loop** returns the number of the newest text of every slot. -/
theorem loop_texts {U : CInt}
    (hV : ∀ i : CInt, 1 ≤ i.val → i.val ≤ U.val → Holding w S st acc ind txt A h i) :
    ∃ (new : List CInt) (q : FMap 24), new.Nodup ∧
      (∀ i : CInt, i ∈ new ↔ 1 ≤ i.val ∧ i.val ≤ U.val) ∧
      rounds w S next (loopFuel A) true (initSlots U A) (fun _ => none) h =
        .ok (new.map ind, q) h ∧
      Rewrote w next acc txt (fun _ => none) q new := by
  have hmem := fun i => mem_initSlots (A := A) (U := U) (i := i)
  have hVs : ∀ t ∈ initSlots U A, Holding w S st acc ind txt A h t.index := fun t ht => by
    have := (hmem t.index).mp (List.mem_map_of_mem ht)
    exact hV t.index this.1 this.2
  have hinit : ∀ t ∈ initSlots U A, t.found = false ∧ t.left = one ∧ t.right = A ∧
      t.curValue = one ∧ t.lastID = [] := by
    intro t ht
    obtain ⟨i, rfl⟩ := List.mem_ofFn.mp ht
    exact ⟨rfl, rfl, rfl, rfl, rfl⟩
  obtain ⟨ss, hrun, hidx, hR⟩ := @first_round w S next st acc ind txt A h (initSlots U A)
    (fun _ => none) fun t ht => by
      obtain ⟨h1, h2, h3, h4, h5⟩ := hinit t ht
      exact ⟨h1, h2, h3, h4, h5, hVs t ht⟩
  have hpend : pending ss = (initSlots U A).map Slot.index := by
    have : ss.filter (fun t => !t.found) = ss :=
      List.filter_eq_self.mpr fun t ht => by simp [(hR t ht).1]
    rw [pending, this, hidx]
  have hVss : ∀ t ∈ ss, Holding w S st acc ind txt A h t.index := fun t ht => by
    have := List.mem_map_of_mem (f := Slot.index) ht
    rw [hidx, hmem] at this
    exact hV _ this.1 this.2
  obtain ⟨new, q, hrun', hperm, hW⟩ := @rounds_spec w S next st acc ind txt A h (2 * A.val.toNat)
    (2 * A.val.toNat + 2) ss (fun _ => none) (by omega) (hidx ▸ nodup_initSlots U) hVss (fun t ht => (hR t ht).2)
    fun _ _ _ => rfl
  rw [hpend] at hperm
  refine ⟨new, q, hperm.nodup_iff.mp (nodup_initSlots U), fun i => ?_, ?_, hW⟩
  · rw [← hperm.mem_iff, hmem]
  · by_cases hall : (initSlots U A).all Slot.found = true
    · -- no slot at all
      have hnil : initSlots U A = [] := List.eq_nil_iff_forall_not_mem.mpr fun t ht => by
        have h1 := List.all_eq_true.mp hall t ht
        rw [(hinit t ht).1] at h1
        cases h1
      rw [hnil, List.map_nil] at hperm
      obtain rfl := hperm.nil_eq
      have hq : (fun _ => none : FMap 24) = q := funext fun k =>
        (hW.2 k fun i hi => absurd hi List.not_mem_nil).symm
      rw [loopFuel, rounds, if_pos hall, hq]
      rfl
    · rw [loopFuel, rounds, if_neg hall, bind_ok _ hrun]
      simp only
      rw [bind_ok _ hrun']
      rfl

/-- **The version search** returns the newest item of every slot. -/
theorem loop_spec {U : CInt} (hA : A.val < 2 ^ 30)
    (hV : ∀ i : CInt, 1 ≤ i.val → i.val ≤ U.val → (acc i).val ≤ A.val ∧
      Versions (boxes w S h i) (st i) (acc i) (ind i)) :
    ∃ (new : List CInt) (q : FMap 24), new.Nodup ∧
      (∀ i : CInt, i ∈ new ↔ 1 ≤ i.val ∧ i.val ≤ U.val) ∧
      rounds w S next (loopFuel A) true (initSlots U A) (fun _ => none) h =
        .ok (new.map ind, q) h ∧
      Wrote w next acc ind (fun _ => none) q new :=
  have hold : ∀ i : CInt, 1 ≤ i.val → i.val ≤ U.val →
      Holding w S st acc ind (fun i => intStr (ind i).val) A h i := fun i h1 h2 => by
    obtain ⟨hle, hver⟩ := hV i h1 h2
    exact ⟨hle, by omega, hver.texts⟩
  loop_texts hold

end

end SmallClientSSE.Horus
