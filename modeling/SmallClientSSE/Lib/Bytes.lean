import Mathlib.Data.List.GetD
import Mathlib.Data.List.Lex
import Mathlib.Data.Fin.Basic
import Mathlib.Data.Fintype.Pi
import Mathlib.Order.Fin.Basic
import Mathlib.Tactic.Ring

/-!
# Byte buffers

Fixed-size byte arrays with the three accesses C code makes to them: a string
copied to the front (`copyStr`), an `int` stored or loaded at an offset in
little-endian order (`putInt`, `getInt`), and the C string at the front
(`cstr`). Strings are byte lists; a string is NUL-free when it holds no `0`.
-/

namespace Lib

abbrev Byte := Fin 256

/-- The proofs inside the literals of bytes and of indices into a block. -/
instance neZero_byte : NeZero (256 : Nat) := ⟨by decide⟩

instance neZero_block : NeZero (16 : Nat) := ⟨by decide⟩

abbrev Str := List Byte

abbrev Buf (n : Nat) := Fin n → Byte

def InInt (z : Int) : Prop := -2 ^ 31 ≤ z ∧ z < 2 ^ 31

instance (z : Int) : Decidable (InInt z) := inferInstanceAs (Decidable (_ ∧ _))

abbrev CInt := {z : Int // InInt z}

abbrev cint (i : Byte) : CInt := ⟨(i.val : Int), by
  have := i.isLt
  exact ⟨by omega, by omega⟩⟩

instance : DecidableLT CInt := fun a b => inferInstanceAs (Decidable (a.val < b.val))

instance : DecidableLE CInt := fun a b => inferInstanceAs (Decidable (a.val ≤ b.val))

def NulFree (w : Str) : Prop := (0 : Byte) ∉ w

instance (w : Str) : Decidable (NulFree w) := inferInstanceAs (Decidable (_ ∉ _))

namespace Buf

variable {n : Nat}

def zero : Buf n := fun _ => 0

def at' (b : Buf n) (i : Nat) : Byte := if h : i < n then b ⟨i, h⟩ else 0

@[simp] theorem at'_of_lt (b : Buf n) {i : Nat} (h : i < n) : b.at' i = b ⟨i, h⟩ := by
  simp [at', h]

@[simp] theorem at'_val (b : Buf n) (i : Fin n) : b.at' i = b i := by
  simp [at']

theorem ext_at {a b : Buf n} (h : ∀ i, i < n → a.at' i = b.at' i) : a = b := by
  funext i
  simpa using h i i.isLt

def put (off : Nat) (c : Byte) (b : Buf n) : Buf n := fun i => if i.val = off then c else b i

def copyStr (w : Str) (b : Buf n) : Buf n := fun i => if h : i.val < w.length then w[i.val] else b i

def copyAt (off : Nat) (w : Str) (b : Buf n) : Buf n := fun i =>
  if off ≤ i.val ∧ i.val - off < w.length then w.getD (i.val - off) 0 else b i

/-- Byte `k` of the two's complement representation of `z`. -/
def leByte (z : Int) (k : Nat) : Byte := ⟨(z / 256 ^ k % 256).toNat, by
  have h1 := Int.emod_nonneg (z / 256 ^ k) (b := 256) (by decide)
  have h2 := Int.emod_lt_of_pos (z / 256 ^ k) (b := 256) (by decide)
  omega⟩

def putInt (off : Nat) (z : Int) (b : Buf n) : Buf n := fun i =>
  if off ≤ i.val ∧ i.val < off + 4 then leByte z (i.val - off) else b i

/-- The unsigned value of the four bytes at `off`. -/
def getUInt (off : Nat) (b : Buf n) : Nat :=
  (b.at' off).val + 256 * (b.at' (off + 1)).val + 65536 * (b.at' (off + 2)).val
    + 16777216 * (b.at' (off + 3)).val

theorem getUInt_lt (off : Nat) (b : Buf n) : b.getUInt off < 2 ^ 32 := by
  have h0 := (b.at' off).isLt
  have h1 := (b.at' (off + 1)).isLt
  have h2 := (b.at' (off + 2)).isLt
  have h3 := (b.at' (off + 3)).isLt
  simp only [getUInt]
  omega

def getInt (off : Nat) (b : Buf n) : CInt :=
  ⟨if b.getUInt off < 2 ^ 31 then b.getUInt off else (b.getUInt off : Int) - 2 ^ 32, by
    have := b.getUInt_lt off
    simp only [InInt]
    split <;> omega⟩

def cstr (b : Buf n) : Str := (List.ofFn b).takeWhile (· ≠ 0)

/-! ## Reading back what was stored -/

theorem put_at (off : Nat) (c : Byte) (b : Buf n) (i : Nat) (hi : i < n) :
    (b.put off c).at' i = if i = off then c else b.at' i := by
  simp [put, hi]

theorem putInt_at (off : Nat) (z : Int) (b : Buf n) (i : Nat) (hi : i < n) :
    (b.putInt off z).at' i = if off ≤ i ∧ i < off + 4 then leByte z (i - off) else b.at' i := by
  simp [putInt, hi]

theorem copyStr_at (w : Str) (b : Buf n) (i : Nat) (hi : i < n) :
    (b.copyStr w).at' i = if i < w.length then w.getD i 0 else b.at' i := by
  by_cases h : i < w.length
  · simp [copyStr, hi, h]
  · simp [copyStr, hi, h]

theorem copyAt_at (off : Nat) (w : Str) (b : Buf n) (i : Nat) (hi : i < n) :
    (b.copyAt off w).at' i =
      if off ≤ i ∧ i - off < w.length then w.getD (i - off) 0 else b.at' i := by
  simp [copyAt, hi]

theorem copyStr_zero_at (w : Str) (i : Nat) (hi : i < n) :
    ((zero : Buf n).copyStr w).at' i = w.getD i 0 := by
  rw [copyStr_at _ _ _ hi]
  split
  · rfl
  · next h => simp [zero, hi, Nat.le_of_not_lt h]

/-- The four bytes of a stored integer, read as an unsigned number. -/
theorem leByte_sum (z : Int) :
    ((leByte z 0).val : Int) + 256 * (leByte z 1).val + 65536 * (leByte z 2).val
      + 16777216 * (leByte z 3).val = z % 2 ^ 32 := by
  simp only [leByte]
  norm_num
  omega

theorem getUInt_putInt (off : Nat) (z : Int) (b : Buf n) (h : off + 4 ≤ n) :
    (((b.putInt off z).getUInt off : Nat) : Int) = z % 2 ^ 32 := by
  rw [← leByte_sum]
  simp only [getUInt]
  rw [putInt_at _ _ _ _ (by omega), putInt_at _ _ _ _ (by omega), putInt_at _ _ _ _ (by omega),
    putInt_at _ _ _ _ (by omega)]
  simp

theorem getInt_putInt (off : Nat) (z : CInt) (b : Buf n) (h : off + 4 ≤ n) :
    (b.putInt off z.val).getInt off = z := by
  have hu := getUInt_putInt off z.val b h
  obtain ⟨z, h1, h2⟩ := z
  apply Subtype.ext
  simp only [getInt] at hu ⊢
  split <;> omega

/-- A load sees only the four bytes at its offset. -/
theorem getInt_congr {m off : Nat} {a : Buf n} {b : Buf m}
    (h : ∀ i, i < 4 → a.at' (off + i) = b.at' (off + i)) : a.getInt off = b.getInt off := by
  have hu : a.getUInt off = b.getUInt off := by
    simp only [getUInt]
    rw [h 1 (by omega), h 2 (by omega), h 3 (by omega)]
    have := h 0 (by omega)
    rw [Nat.add_zero] at this
    rw [this]
  simp only [getInt, hu]

/-- Two integers in range with the same four bytes are equal. -/
theorem leByte_inj {y z : Int} (hy : InInt y) (hz : InInt z)
    (h : ∀ k, k < 4 → leByte y k = leByte z k) : y = z := by
  have h1 := leByte_sum y
  have h2 := leByte_sum z
  rw [h 0 (by omega), h 1 (by omega), h 2 (by omega), h 3 (by omega), h2] at h1
  obtain ⟨a, b⟩ := hy
  obtain ⟨c, d⟩ := hz
  omega

/-! ## Strings in buffers -/

/-- The C string of a buffer that starts with `w` and a terminator. -/
theorem cstr_eq {b : Buf n} {w : Str} (hw : NulFree w) (hlen : w.length < n)
    (hpre : ∀ i, i ≤ w.length → b.at' i = w.getD i 0) : b.cstr = w := by
  have hsplit : List.ofFn b = w ++ (List.ofFn b).drop w.length := by
    apply List.ext_getElem?
    intro i
    by_cases hi : i < w.length
    · have := hpre i (by omega)
      rw [at'_of_lt _ (by omega)] at this
      rw [List.getElem?_append_left hi, List.getElem?_ofFn, dif_pos (by omega : i < n), this]
      simp [hi]
    · rw [List.getElem?_append_right (by omega), List.getElem?_drop]
      congr 1
      omega
  have hdrop : (List.ofFn b).drop w.length =
      0 :: (List.ofFn b).drop (w.length + 1) := by
    have hz := hpre w.length (Nat.le_refl _)
    rw [at'_of_lt _ hlen] at hz
    rw [List.drop_eq_getElem_cons (by simpa using hlen)]
    simp [hz]
  unfold cstr
  rw [hsplit, hdrop, List.takeWhile_append_of_pos]
  · simp
  · intro c hc
    have : c ≠ 0 := fun e => hw (e ▸ hc)
    simpa using this

theorem at_length_cstr {b : Buf n} (h : b.cstr.length < n) : b.at' b.cstr.length = 0 := by
  have hlen : (List.ofFn b).length = n := List.length_ofFn
  have hpre : b.cstr ++ (List.ofFn b).dropWhile (· ≠ 0) = List.ofFn b := List.takeWhile_append_dropWhile
  cases hd : (List.ofFn b).dropWhile (· ≠ 0) with
  | nil =>
    rw [hd, List.append_nil] at hpre
    rw [hpre, hlen] at h
    exact absurd h (lt_irrefl n)
  | cons c l =>
    have hc : c = 0 := by
      have := List.head?_dropWhile_not (fun c : Byte => decide (c ≠ 0)) (List.ofFn b)
      rw [hd] at this
      simpa using this
    have hget : (List.ofFn b)[b.cstr.length]? = some c := by
      rw [← hpre, hd]
      simp
    rw [List.getElem?_ofFn, dif_pos h] at hget
    rw [at'_of_lt _ h, Option.some.inj hget, hc]

/-- A string that fits a buffer of zeros is read back. -/
theorem cstr_copyStr {w : Str} (hw : NulFree w) (hlen : w.length ≤ n) :
    (copyStr w (zero : Buf n)).cstr = w := by
  rcases hlen.lt_or_eq with hlt | heq
  · refine cstr_eq hw hlt fun i hi => ?_
    rw [copyStr_zero_at _ _ (by omega)]
  · subst heq
    have hall : List.ofFn (copyStr w (zero : Buf w.length)) = w := by
      apply List.ext_getElem (by simp)
      intro i h1 h2
      simp [copyStr, h2]
    unfold cstr
    rw [hall, ← List.append_nil w, List.takeWhile_append_of_pos, List.takeWhile_nil]
    intro c hc
    have : c ≠ 0 := fun e => hw (e ▸ hc)
    simpa using this

end Buf

/-- NUL-free strings of at most `m` bytes that agree byte by byte are equal. -/
theorem nulFree_ext {w v : Str} {m : Nat} (hw : NulFree w) (hv : NulFree v)
    (hwl : w.length ≤ m) (hvl : v.length ≤ m) (h : ∀ i, i < m → w.getD i 0 = v.getD i 0) :
    w = v := by
  have key : ∀ {w v : Str}, NulFree w → w.length ≤ m →
      (∀ i, i < m → w.getD i 0 = v.getD i 0) → w.length ≤ v.length := by
    intro w v hw hwl h
    by_contra hlt
    have := h v.length (by omega)
    rw [List.getD_eq_getElem _ _ (by omega), List.getD_eq_default _ _ (Nat.le_refl _)] at this
    exact hw (this ▸ List.getElem_mem _)
  have hlen : w.length = v.length :=
    Nat.le_antisymm (key hw hwl h) (key hv hvl fun i hi => (h i hi).symm)
  apply List.ext_getElem hlen
  intro i h1 h2
  have := h i (by omega)
  rwa [List.getD_eq_getElem _ _ h1, List.getD_eq_getElem _ _ h2] at this

end Lib
