import Mathlib.Data.Nat.Digits.Defs
import Mathlib.Data.Nat.Digits.Lemmas
import SmallClientSSE.Lib.Bytes

/-!
# Decimal text

`intStr` prints an integer, `stoi` reads one back the way `std::stoi` does:
leading blanks and one sign are skipped, the number ends at the first byte that
is no digit, and text without digits or outside the 32-bit range is refused.
`tokensOn` splits a string at a separator and keeps empty tokens.
-/

namespace Lib

def digitByte (d : Nat) : Byte := Fin.ofNat 256 (48 + d)

def isDigit (c : Byte) : Bool := decide (48 ≤ c.val) && decide (c.val ≤ 57)

def isBlank (c : Byte) : Bool := c.val == 32 || (decide (9 ≤ c.val) && decide (c.val ≤ 13))

def natStr (n : Nat) : Str := if n = 0 then [48] else ((Nat.digits 10 n).map digitByte).reverse

/-- `std::to_string`. -/
def intStr (z : Int) : Str := if z < 0 then 45 :: natStr z.natAbs else natStr z.natAbs

def digitsVal (ds : Str) : Nat := ds.foldl (fun a d => 10 * a + (d.val - 48)) 0

/-- The optional sign in front of the digits. -/
def signOf : Str → Bool × Str
  | c :: s => if c = 45 then (true, s) else if c = 43 then (false, s) else (false, c :: s)
  | [] => (false, [])

def stoi (s : Str) : Option CInt :=
  let (neg, t) := signOf (s.dropWhile isBlank)
  let ds := t.takeWhile isDigit
  if ds = [] then none
  else
    let z : Int := if neg then -(digitsVal ds : Int) else digitsVal ds
    if h : InInt z then some ⟨z, h⟩ else none

/-- Split at every `d`, keeping empty tokens. -/
def tokensOn (d : Byte) : Str → List Str
  | [] => [[]]
  | c :: s =>
    if c = d then [] :: tokensOn d s
    else match tokensOn d s with
      | [] => [[c]]
      | t :: ts => (c :: t) :: ts

/-! ## Printing -/

theorem digitByte_val {d : Nat} (h : d < 10) : (digitByte d).val = 48 + d := by
  simp only [digitByte, Fin.ofNat_eq_cast, Fin.val_natCast]
  omega

theorem isDigit_digitByte {d : Nat} (h : d < 10) : isDigit (digitByte d) = true := by
  simp only [isDigit, digitByte_val h, Bool.and_eq_true, decide_eq_true_eq]
  omega

theorem natStr_ne_nil (n : Nat) : natStr n ≠ [] := by
  unfold natStr
  split
  · simp
  · next h => simp [Nat.digits_ne_nil_iff_ne_zero.mpr h]

theorem length_natStr (n : Nat) : (natStr n).length = Nat.log 10 n + 1 := by
  unfold natStr
  split
  · next h => simp [h]
  · next h => simp [Nat.length_digits 10 n (by decide) h]

/-- The next number is at most one digit longer, and not shorter. -/
theorem length_natStr_succ (n : Nat) : (natStr n).length ≤ (natStr (n + 1)).length ∧
    (natStr (n + 1)).length ≤ (natStr n).length + 1 := by
  simp only [length_natStr]
  refine ⟨Nat.succ_le_succ (Nat.log_mono_right (Nat.le_succ n)), Nat.succ_le_succ ?_⟩
  by_cases hn : n = 0
  · simp [hn]
  · rw [← Nat.log_mul_base (by decide) hn]
    exact Nat.log_mono_right (by omega)

theorem isDigit_of_mem_natStr {n : Nat} {c : Byte} (hc : c ∈ natStr n) : isDigit c = true := by
  unfold natStr at hc
  split at hc
  · rw [List.mem_singleton] at hc
    subst hc
    decide
  · rw [List.mem_reverse, List.mem_map] at hc
    obtain ⟨d, hd, rfl⟩ := hc
    exact isDigit_digitByte (Nat.digits_lt_base (by decide) hd)

theorem digitsVal_natStr (n : Nat) : digitsVal (natStr n) = n := by
  have key : ∀ ds : List Nat, (∀ d ∈ ds, d < 10) →
      (ds.map digitByte).foldr (fun d a => 10 * a + (d.val - 48)) 0 = Nat.ofDigits 10 ds := by
    intro ds
    induction ds with
    | nil => simp
    | cons d ds ih =>
      intro h
      have hd := digitByte_val (h d List.mem_cons_self)
      have := ih fun x hx => h x (List.mem_cons_of_mem _ hx)
      simp only [List.map_cons, List.foldr_cons, this, hd, Nat.ofDigits_cons]
      omega
  unfold natStr digitsVal
  split
  · next h => subst h; decide
  · rw [List.foldl_reverse, key _ fun d hd => Nat.digits_lt_base (by decide) hd, Nat.ofDigits_digits]

/-- A digit ends neither the blanks nor the sign in front of a number. -/
theorem not_sign_of_isDigit {c : Byte} (h : isDigit c = true) :
    isBlank c = false ∧ c ≠ 45 ∧ c ≠ 43 := by
  simp only [isDigit, Bool.and_eq_true, decide_eq_true_eq] at h
  refine ⟨?_, ?_, ?_⟩
  · simp only [isBlank, Bool.or_eq_false_iff, beq_eq_false_iff_ne, Bool.and_eq_false_iff,
      decide_eq_false_iff_not]
    omega
  · rintro rfl; revert h; decide
  · rintro rfl; revert h; decide

/-- No digit follows. -/
def EndsNumber (r : Str) : Prop := ∀ c ∈ r.head?, isDigit c = false

theorem endsNumber_nil : EndsNumber [] := by intro c hc; cases hc

theorem takeWhile_natStr (n : Nat) {r : Str} (hr : EndsNumber r) :
    (natStr n ++ r).takeWhile isDigit = natStr n := by
  rw [List.takeWhile_append_of_pos fun c hc => isDigit_of_mem_natStr hc]
  cases r with
  | nil => simp
  | cons c r => simp [hr c (by simp)]

/-- **Reading back a printed integer**, whatever follows it. -/
theorem stoi_intStr (z : CInt) {r : Str} (hr : EndsNumber r) :
    stoi (intStr z.val ++ r) = some z := by
  obtain ⟨z, hz⟩ := z
  obtain ⟨c, t, hct⟩ := List.exists_cons_of_ne_nil (natStr_ne_nil z.natAbs)
  have hc := not_sign_of_isDigit (isDigit_of_mem_natStr (hct ▸ List.mem_cons_self))
  have htw := takeWhile_natStr z.natAbs hr
  have hne := natStr_ne_nil z.natAbs
  simp only [intStr]
  split
  · next hneg =>
    have h1 : (45 :: natStr z.natAbs ++ r).dropWhile isBlank = 45 :: (natStr z.natAbs ++ r) := by
      simp [show isBlank 45 = false by decide]
    simp only [stoi, h1, signOf, if_true, htw, hne, if_false, digitsVal_natStr]
    have : -(z.natAbs : Int) = z := by omega
    simp only [this, hz, dif_pos]
  · next hneg =>
    have h1 : (natStr z.natAbs ++ r).dropWhile isBlank = natStr z.natAbs ++ r := by
      rw [hct]; simp [hc.1]
    have h2 : signOf (natStr z.natAbs ++ r) = (false, natStr z.natAbs ++ r) := by
      rw [hct]; simp [signOf, hc.2.1, hc.2.2]
    simp only [stoi, h1, h2, htw, hne, if_false, digitsVal_natStr]
    have : (z.natAbs : Int) = z := by omega
    simp [this, hz]

theorem stoi_intStr_self (z : CInt) : stoi (intStr z.val) = some z := by
  simpa using stoi_intStr z endsNumber_nil

theorem intStr_ne_nil (z : Int) : intStr z ≠ [] := by
  unfold intStr
  split
  · simp
  · exact natStr_ne_nil _

theorem not_mem_intStr {z : Int} {c : Byte} (h : isDigit c = false) (hm : c ≠ 45) :
    c ∉ intStr z := by
  have hn : c ∉ natStr z.natAbs := fun hc => by
    rw [isDigit_of_mem_natStr hc] at h; cases h
  unfold intStr
  split
  · simp [hm, hn]
  · exact hn

theorem not_mem_intStr_of_nonneg {z : Int} (hz : 0 ≤ z) {c : Byte} (h : isDigit c = false) :
    c ∉ intStr z := by
  rw [intStr, if_neg (by omega)]
  intro hc
  rw [isDigit_of_mem_natStr hc] at h
  cases h

theorem intStr_natCast (n : Nat) : intStr n = natStr n := by
  unfold intStr
  rw [if_neg (by omega), Int.natAbs_natCast]

theorem length_intStr_succ {z : Int} (h : 0 ≤ z) : (intStr z).length ≤ (intStr (z + 1)).length ∧
    (intStr (z + 1)).length ≤ (intStr z).length + 1 := by
  obtain ⟨n, rfl⟩ := Int.eq_ofNat_of_zero_le h
  rw [intStr_natCast, show ((n : Int) + 1) = ((n + 1 : Nat) : Int) by push_cast; rfl,
    intStr_natCast]
  exact length_natStr_succ n

theorem natStr_inj {m n : Nat} (h : natStr m = natStr n) : m = n := by
  rw [← digitsVal_natStr m, h, digitsVal_natStr]

/-- A printed natural number does not start with a sign. -/
theorem minus_notMem_natStr (n : Nat) : 45 ∉ natStr n := fun h =>
  absurd (isDigit_of_mem_natStr h) (by decide)

theorem intStr_inj {y z : Int} (h : intStr y = intStr z) : y = z := by
  have hhead : ∀ {m n : Nat}, natStr m ≠ 45 :: natStr n := fun {m n} e =>
    minus_notMem_natStr m (e ▸ List.mem_cons_self)
  unfold intStr at h
  split at h <;> split at h
  · have := natStr_inj (List.cons.inj h).2
    omega
  · exact absurd h.symm hhead
  · exact absurd h hhead
  · have := natStr_inj h
    omega

theorem nulFree_intStr (z : Int) : NulFree (intStr z) := not_mem_intStr (by decide) (by decide)

/-- A number behind a separator is read off the end of a text. -/
theorem append_intStr_inj {w v : Str} {c : Byte} {x y : Int} (hc : isDigit c = false) (hx : 0 ≤ x)
    (hy : 0 ≤ y) (e : w ++ c :: intStr x = v ++ c :: intStr y) : w = v ∧ x = y := by
  have hnot : ∀ {z : Int}, 0 ≤ z → ∀ b ∈ (intStr z).reverse, decide (b ≠ c) = true := by
    intro z hz b hb
    rw [List.mem_reverse] at hb
    refine decide_eq_true fun e => ?_
    rw [e] at hb
    exact not_mem_intStr_of_nonneg hz hc hb
  have htake : ∀ {u : Str} {z : Int}, 0 ≤ z →
      (u ++ c :: intStr z).reverse.takeWhile (fun b => decide (b ≠ c)) = (intStr z).reverse := by
    intro u z hz
    rw [List.reverse_append, List.reverse_cons, List.append_assoc,
      List.takeWhile_append_of_pos (hnot hz), List.singleton_append, List.takeWhile_cons]
    simp
  have hstr : intStr x = intStr y :=
    List.reverse_injective ((htake hx).symm.trans ((congrArg _ (congrArg _ e)).trans (htake hy)))
  refine ⟨?_, intStr_inj hstr⟩
  rw [hstr] at e
  exact List.append_cancel_right e

/-! ## Splitting -/

theorem tokensOn_of_not_mem {d : Byte} {a : Str} (h : d ∉ a) : tokensOn d a = [a] := by
  induction a with
  | nil => rfl
  | cons c a ih =>
    simp only [List.mem_cons, not_or] at h
    simp [tokensOn, Ne.symm h.1, ih h.2]

theorem tokensOn_append {d : Byte} {a b : Str} (h : d ∉ a) :
    tokensOn d (a ++ d :: b) = a :: tokensOn d b := by
  induction a with
  | nil => simp [tokensOn]
  | cons c a ih =>
    simp only [List.mem_cons, not_or] at h
    simp [tokensOn, Ne.symm h.1, ih h.2]

end Lib
