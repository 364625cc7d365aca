import SmallClientSSE.Horus.Client

/-!
# Horus keys

The three key layouts are injective in all their parts, and none of their keys
is the test key that `endSetup` inserts.
-/

namespace SmallClientSSE.Horus

open Lib Buf

theorem kw_ext {w v : Kw} (h : ∀ i, i < 12 → w.val.getD i 0 = v.val.getD i 0) : w = v :=
  Subtype.ext (nulFree_ext w.2.2.1 v.2.2.1 w.2.2.2 v.2.2.2 h)

theorem cint_ext {y z : CInt} (h : ∀ k, k < 4 → leByte y.val k = leByte z.val k) : y = z :=
  Subtype.ext (leByte_inj y.2 z.2 h)

theorem kw_head (w : Kw) : w.val.getD 0 0 ≠ 0 := by
  obtain ⟨w, hne, hnul, -⟩ := w
  obtain ⟨c, t, rfl⟩ := List.exists_cons_of_ne_nil hne
  exact fun h => hnul (h ▸ List.mem_cons_self)

theorem getD_copyAt (w : Kw) (off i : Nat) (b : Buf 24) (hi : i < 12) (hoff : off + i < 24)
    (hb : b.at' (off + i) = 0) : (b.copyAt off w.val).at' (off + i) = w.val.getD i 0 := by
  rw [copyAt_at _ _ _ _ hoff]
  by_cases h : i < w.val.length
  · rw [if_pos ⟨by omega, by omega⟩, Nat.add_sub_cancel_left]
  · rw [if_neg (by omega), hb, List.getD_eq_default _ _ (by omega)]

theorem zero_at (i : Nat) : (Buf.zero : Buf 24).at' i = 0 := by
  unfold Buf.at'
  split <;> rfl

/-! ## `createBid` -/

theorem createBid_pre (pre : Byte) (w : Kw) (n : CInt) : (createBid pre w n).id.at' 0 = pre := by
  rw [createBid, putInt_at _ _ _ _ (by omega), if_neg (by omega), copyAt_at _ _ _ _ (by omega),
    if_neg (by omega), put_at _ _ _ _ (by omega), if_pos rfl]

theorem createBid_kw (pre : Byte) (w : Kw) (n : CInt) {i : Nat} (hi : i < 12) :
    (createBid pre w n).id.at' (1 + i) = w.val.getD i 0 := by
  rw [createBid, putInt_at _ _ _ _ (by omega), if_neg (by omega)]
  refine getD_copyAt w 1 i _ hi (by omega) ?_
  rw [put_at _ _ _ _ (by omega), if_neg (by omega), zero_at]

theorem createBid_num (pre : Byte) (w : Kw) (n : CInt) {k : Nat} (hk : k < 4) :
    (createBid pre w n).id.at' (20 + k) = leByte n.val k := by
  rw [createBid, putInt_at _ _ _ _ (by omega), if_pos (by omega), Nat.add_sub_cancel_left]

@[simp] theorem createBid_inj {pre pre' : Byte} {w w' : Kw} {n n' : CInt} :
    createBid pre w n = createBid pre' w' n' ↔ pre = pre' ∧ w = w' ∧ n = n' := by
  constructor
  · intro h
    refine ⟨?_, kw_ext fun i hi => ?_, cint_ext fun k hk => ?_⟩
    · rw [← createBid_pre pre w n, h, createBid_pre]
    · rw [← createBid_kw pre w n hi, h, createBid_kw _ _ _ hi]
    · rw [← createBid_num pre w n hk, h, createBid_num _ _ _ hk]
  · rintro ⟨rfl, rfl, rfl⟩
    rfl

/-! ## `createBid` for boxes -/

section

variable (w : Kw) (a b c : CInt) {k : Nat} (hk : k < 4)

include hk

theorem oramBid_val1 : (oramBid w a b c).id.at' k = leByte a.val k := by
  rw [oramBid, copyAt_at _ _ _ _ (by omega), if_neg (by omega), putInt_at _ _ _ _ (by omega),
    if_neg (by omega), putInt_at _ _ _ _ (by omega), if_neg (by omega),
    putInt_at _ _ _ _ (by omega), if_pos (by omega)]
  rfl

theorem oramBid_val2 : (oramBid w a b c).id.at' (4 + k) = leByte b.val k := by
  rw [oramBid, copyAt_at _ _ _ _ (by omega), if_neg (by omega), putInt_at _ _ _ _ (by omega),
    if_neg (by omega), putInt_at _ _ _ _ (by omega), if_pos (by omega), Nat.add_sub_cancel_left]

theorem oramBid_val3 : (oramBid w a b c).id.at' (8 + k) = leByte c.val k := by
  rw [oramBid, copyAt_at _ _ _ _ (by omega), if_neg (by omega), putInt_at _ _ _ _ (by omega),
    if_pos (by omega), Nat.add_sub_cancel_left]

end

theorem oramBid_kw (w : Kw) (a b c : CInt) {i : Nat} (hi : i < 12) :
    (oramBid w a b c).id.at' (12 + i) = w.val.getD i 0 := by
  refine getD_copyAt w 12 i _ hi (by omega) ?_
  rw [putInt_at _ _ _ _ (by omega), if_neg (by omega), putInt_at _ _ _ _ (by omega),
    if_neg (by omega), putInt_at _ _ _ _ (by omega), if_neg (by omega), zero_at]

@[simp] theorem oramBid_inj {w w' : Kw} {a a' b b' c c' : CInt} :
    oramBid w a b c = oramBid w' a' b' c' ↔ w = w' ∧ a = a' ∧ b = b' ∧ c = c' := by
  constructor
  · intro h
    refine ⟨kw_ext fun i hi => ?_, cint_ext fun k hk => ?_, cint_ext fun k hk => ?_,
      cint_ext fun k hk => ?_⟩
    · rw [← oramBid_kw w a b c hi, h, oramBid_kw _ _ _ _ hi]
    · rw [← oramBid_val1 w a b c hk, h, oramBid_val1 _ _ _ _ hk]
    · rw [← oramBid_val2 w a b c hk, h, oramBid_val2 _ _ _ _ hk]
    · rw [← oramBid_val3 w a b c hk, h, oramBid_val3 _ _ _ _ hk]
  · rintro ⟨rfl, rfl, rfl, rfl⟩
    rfl

/-! ## `getBid` -/

theorem getBid_kw (w : Kw) (t : Cnt) {i : Nat} (hi : i < 12) :
    (getBid w t).id.at' i = w.val.getD i 0 := by
  rw [getBid, putInt_at _ _ _ _ (by omega), if_neg (by omega), copyStr_zero_at _ _ (by omega)]

theorem getBid_num (w : Kw) (t : Cnt) {k : Nat} (hk : k < 4) :
    (getBid w t).id.at' (20 + k) = leByte t.number.val k := by
  rw [getBid, putInt_at _ _ _ _ (by omega), if_pos (by omega), Nat.add_sub_cancel_left]

@[simp] theorem getBid_inj {w w' : Kw} {t t' : Cnt} :
    getBid w t = getBid w' t' ↔ w = w' ∧ t = t' := by
  constructor
  · intro h
    refine ⟨kw_ext fun i hi => ?_, ?_⟩
    · rw [← getBid_kw w t hi, h, getBid_kw _ _ hi]
    · have : t.number = t'.number := cint_ext fun k hk => by
        rw [← getBid_num w t hk, h, getBid_num _ _ hk]
      revert this
      cases t <;> cases t' <;> simp [Cnt.number]
  · rintro ⟨rfl, rfl⟩
    rfl

/-! ## The test key -/

theorem ofValue_at (v : Int) {i : Nat} (hi : i < 24) : (Bid.ofValue v : Bid 24).id.at' i =
    if i < 4 then leByte v (3 - i) else 0 := by
  simp [Bid.ofValue, hi]

@[simp] theorem createBid_ne_test (pre : Byte) (w : Kw) (n : CInt) :
    createBid pre w n ≠ Bid.ofValue 1 := by
  intro h
  have h1 := createBid_kw pre w n (i := 0) (by omega)
  rw [h, ofValue_at _ (by omega), if_pos (by omega)] at h1
  exact kw_head w h1.symm

@[simp] theorem getBid_ne_test (w : Kw) (t : Cnt) : getBid w t ≠ Bid.ofValue 1 := by
  intro h
  have h1 := getBid_kw w t (i := 0) (by omega)
  rw [h, ofValue_at _ (by omega), if_pos (by omega)] at h1
  exact kw_head w h1.symm

/-! ## Text -/

theorem not_mem_hash (a : CInt) : hash ∉ intStr a.val := not_mem_intStr (by decide) (by decide)

/-- **Slot text round trip.** -/
theorem tokensOn_hashText (a b : CInt) : tokensOn hash (hashText a b) = [intStr a.val, intStr b.val] := by
  rw [hashText, tokensOn_append (not_mem_hash a), tokensOn_of_not_mem (not_mem_hash b)]

theorem tokensOn_removed (b : CInt) :
    tokensOn hash (minusOne ++ hash :: intStr b.val) = [minusOne, intStr b.val] := by
  rw [tokensOn_append (by decide), tokensOn_of_not_mem (not_mem_hash b)]

theorem hashText_ne_nil (a b : CInt) : hashText a b ≠ [] := by simp [hashText]

/-- The text of a natural number is not that of a removed slot. -/
theorem intStr_ne_minusOne {a : Int} (h : 0 ≤ a) : intStr a ≠ minusOne := by
  intro e
  have := not_mem_intStr_of_nonneg h (c := 45) (by decide)
  rw [e] at this
  exact this List.mem_cons_self

theorem head_intStr (a : CInt) : (intStr a.val)[0]? ≠ some 64 := by
  intro h
  have hmem : (64 : Byte) ∈ intStr a.val := List.mem_of_getElem? h
  exact not_mem_intStr (by decide) (by decide) hmem

def kwA : Kw := ⟨[97], by decide⟩

def kwB : Kw := ⟨[98], by decide⟩

end SmallClientSSE.Horus
