import SmallClientSSE.Mitra.Client

/-!
# PRF inputs and masks of the Mitra client

The client overwrites one keyword buffer before every PRF call. `slot` is the
input as a function of the keyword: whatever was written before does not matter
(`prfInput_prfInput`). For keywords of at most seven bytes the fields do not
overlap, so distinct records have distinct inputs (`slot_inj`). Unmasking gives
back the id and the op (`unmask_id`, `unmask_op`).
-/

namespace SmallClientSSE.Mitra

open Lib

def Keyword (w : Str) : Prop := NulFree w ∧ 1 ≤ w.length ∧ w.length ≤ 7

instance (w : Str) : Decidable (Keyword w) := inferInstanceAs (Decidable (_ ∧ _))

def slot (df : Bool) (w : Str) (op : Byte) (srcCnt fileCnt : Nat) : Block :=
  prfInput df (kw w) op srcCnt fileCnt

theorem prfInput_at (df : Bool) (k : Block) (o : Byte) (s c : Int) (i : Nat) (hi : i < 16) :
    (prfInput df k o s c).at' i =
      if 12 ≤ i then Buf.leByte c (i - 12) else if i = 11 then o
      else if df = true ∧ 7 ≤ i then Buf.leByte s (i - 7) else k.at' i := by
  cases df with
  | false =>
    simp only [prfInput, Bool.false_eq_true, if_false, false_and]
    rw [Buf.putInt_at _ _ _ _ hi, Buf.put_at _ _ _ _ hi]
    split_ifs <;> first | rfl | omega
  | true =>
    simp only [prfInput, if_true, true_and]
    rw [Buf.putInt_at _ _ _ _ hi, Buf.put_at _ _ _ _ hi, Buf.putInt_at _ _ _ _ hi]
    split_ifs <;> first | rfl | omega

theorem prfInput_prfInput (df : Bool) (k : Block) (o o' : Byte) (s s' c c' : Int) :
    prfInput df (prfInput df k o s c) o' s' c' = prfInput df k o' s' c' := by
  refine Buf.ext_at fun i hi => ?_
  rw [prfInput_at _ _ _ _ _ _ hi, prfInput_at _ _ _ _ _ _ hi, prfInput_at _ _ _ _ _ _ hi]
  split_ifs <;> rfl

theorem slot_inj {df : Bool} {w w' : Str} {o o' : Byte} {s s' c c' : Nat}
    (hw : Keyword w) (hw' : Keyword w') (hs : s < 2 ^ 31) (hs' : s' < 2 ^ 31) (hc : c < 2 ^ 31)
    (hc' : c' < 2 ^ 31) (h : slot df w o s c = slot df w' o' s' c') :
    w = w' ∧ o = o' ∧ (df = true → s = s') ∧ c = c' := by
  have hat : ∀ i, i < 16 → (slot df w o s c).at' i = (slot df w' o' s' c').at' i :=
    fun i _ => by rw [h]
  simp only [slot] at hat
  refine ⟨?_, ?_, fun hdf => ?_, ?_⟩
  · refine nulFree_ext hw.1 hw'.1 hw.2.2 hw'.2.2 fun i hi => ?_
    have := hat i (by omega)
    rw [prfInput_at _ _ _ _ _ _ (by omega), prfInput_at _ _ _ _ _ _ (by omega)] at this
    rw [if_neg (by omega), if_neg (by omega), if_neg (by omega)] at this
    rw [if_neg (by omega), if_neg (by omega), if_neg (by omega)] at this
    simpa only [kw, Buf.copyStr_zero_at _ _ (show i < 16 by omega)] using this
  · have := hat 11 (by omega)
    rw [prfInput_at _ _ _ _ _ _ (by omega), prfInput_at _ _ _ _ _ _ (by omega)] at this
    simpa using this
  · have : (s : Int) = s' := by
      refine Buf.leByte_inj ⟨by omega, by omega⟩ ⟨by omega, by omega⟩ fun k hk => ?_
      have := hat (7 + k) (by omega)
      rw [prfInput_at _ _ _ _ _ _ (by omega), prfInput_at _ _ _ _ _ _ (by omega)] at this
      rw [if_neg (by omega), if_neg (by omega), if_pos ⟨hdf, by omega⟩] at this
      rw [if_neg (by omega), if_neg (by omega), if_pos ⟨hdf, by omega⟩] at this
      simpa using this
    omega
  · have : (c : Int) = c' := by
      refine Buf.leByte_inj ⟨by omega, by omega⟩ ⟨by omega, by omega⟩ fun k hk => ?_
      have := hat (12 + k) (by omega)
      rw [prfInput_at _ _ _ _ _ _ (by omega), prfInput_at _ _ _ _ _ _ (by omega)] at this
      rw [if_pos (by omega), if_pos (by omega)] at this
      simpa using this
    omega

/-! ## Masks -/

theorem unmask_at (rnd : Block) (ind : Int) (op : OP) (pad : Nat → Byte) (i : Nat) (hi : i < 5) :
    (bitwiseXOR rnd (bitwiseXORInt ind op rnd pad)).at' i =
      if i < 4 then Buf.leByte ind i else op.toByte := by
  rw [Buf.at'_of_lt _ (by omega)]
  simp only [bitwiseXOR, bitwiseXORInt]
  split
  · exact xor_cancel _ _
  · rw [if_pos (by omega)]; exact xor_cancel _ _

theorem unmask_id (rnd : Block) (ind : CInt) (op : OP) (pad : Nat → Byte) :
    (bitwiseXOR rnd (bitwiseXORInt ind.val op rnd pad)).getInt 0 = ind := by
  refine Eq.trans ?_ (Buf.getInt_putInt 0 ind (Buf.zero : Block) (by decide))
  refine Buf.getInt_congr fun i hi => ?_
  rw [unmask_at _ _ _ _ _ (by omega), if_pos (by omega),
    Buf.putInt_at _ _ _ _ (by omega), if_pos (by omega)]
  simp

theorem unmask_op (rnd : Block) (ind : Int) (op : OP) (pad : Nat → Byte) :
    (bitwiseXOR rnd (bitwiseXORInt ind op rnd pad)) 4 = op.toByte := by
  have := unmask_at rnd ind op pad 4 (by omega)
  simpa using this

end SmallClientSSE.Mitra
