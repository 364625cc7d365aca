import SmallClientSSE.Omap.Exact

/-!
# Counters in an OMAP

The texts `a-b` that clients keep in an OMAP are counted up in place. The new text
is cut out of all sixteen bytes of `value`, padding included, so it is as long as
`value` only while the number keeps its digits; a longer one runs into `pos`
(`increment_clean_iff`).
-/

namespace SmallClientSSE.Omap

open Lib ORAM BinaryTree

variable {n : Nat}

/-- What an increment does at the node it looks for: the text it returns, the text it
copies, and the node with it. -/
abbrev Increment (n : Nat) := Node n → Option (Str × Str × Node n)

def incrementFirst : Increment n := fun head => do
  let res := List.ofFn head.value
  let parts := splitData res dash
  let first ← parts[0]? >>= stoi
  let second ← parts[1]?
  guard (InInt (first.val + 1))
  let newval := intStr (first.val + 1) ++ dash :: second
  pure (res, newval, head.copyValue newval)

def incrementSrcCnt : Increment n := incrementFirst

def incrementFileCnt : Increment n := incrementFirst

def incrementAwCnt : Increment n := fun head => do
  let res := List.ofFn head.value
  let parts := splitData res dash
  let first ← parts[0]?
  let second ← parts[1]? >>= stoi
  guard (InInt (second.val + 1))
  let newval := first ++ dash :: intStr (second.val + 1)
  pure (res, newval, head.copyValue newval)

section

variable {nd : Node n} {a b : Int} {w : Str}

theorem ofFn_copyStr {m : Nat} (hw : w.length ≤ m) :
    List.ofFn (Buf.copyStr w (Buf.zero : Buf m)) = w ++ List.replicate (m - w.length) 0 := by
  apply List.ext_getElem (by simp; omega)
  intro i h1 h2
  rw [List.getElem_ofFn, List.getElem_append]
  simp only [Buf.copyStr]
  split
  · rfl
  · simp [Buf.zero]

/-- The tokens of a padded text: the padding belongs to the second number. -/
theorem splitData_padded (ha : 0 ≤ a) (hb : 0 ≤ b) (k : Nat) :
    splitData (pairStr a b ++ List.replicate k 0) dash =
      [intStr a, intStr b ++ List.replicate k 0] := by
  have h1 := not_mem_intStr_of_nonneg ha (c := dash) (by decide)
  have h2 : dash ∉ intStr b ++ List.replicate k 0 := by
    rw [List.mem_append, not_or]
    refine ⟨not_mem_intStr_of_nonneg hb (by decide), fun h => ?_⟩
    exact absurd (List.eq_of_mem_replicate h) (by decide)
  rw [pairStr, List.append_assoc, List.cons_append, splitData, tokensOn_append h1,
    tokensOn_of_not_mem h2]
  simp [intStr_ne_nil]

theorem length_pairStr (a b : Int) :
    (pairStr a b).length = (intStr a).length + 1 + (intStr b).length := by
  rw [pairStr, List.length_append, List.length_cons]
  omega

/-- Padding at the end of a text is no part of it. -/
theorem copyStr_append_zeros (w : Str) (k : Nat) :
    Buf.copyStr (w ++ List.replicate k 0) (Buf.zero : Buf 16) = Buf.copyStr w Buf.zero := by
  refine Buf.ext_at fun i hi => ?_
  rw [Buf.copyStr_zero_at _ _ hi, Buf.copyStr_zero_at _ _ hi]
  by_cases h : i < w.length
  · rw [List.getD_append _ _ _ _ h]
  · rw [List.getD_append_right _ _ _ _ (by omega), List.getD_eq_default w _ (by omega)]
    by_cases hk : i - w.length < k
    · rw [List.getD_eq_getElem _ _ (by simpa using hk), List.getElem_replicate]
    · rw [List.getD_eq_default _ _ (by simpa using hk)]

theorem incrementFirst_eq (ha : 0 ≤ a) (hb : 0 ≤ b) (ha' : a < 2 ^ 31)
    (hval : nd.value = Buf.zero.copyStr (pairStr a b)) (hlen : (pairStr a b).length ≤ 16) :
    incrementFirst nd = if a + 1 < 2 ^ 31 then
      some (List.ofFn nd.value, pairStr (a + 1) b ++ List.replicate (16 - (pairStr a b).length) 0,
        nd.copyValue (pairStr (a + 1) b ++ List.replicate (16 - (pairStr a b).length) 0))
      else none := by
  have hsplit : splitData (List.ofFn nd.value) dash =
      [intStr a, intStr b ++ List.replicate (16 - (pairStr a b).length) 0] := by
    rw [hval, ofFn_copyStr hlen, splitData_padded ha hb]
  have hstoi := stoi_intStr_self ⟨a, ⟨by omega, ha'⟩⟩
  simp only [incrementFirst, hsplit, List.getElem?_cons_zero, List.getElem?_cons_succ,
    Option.bind_eq_bind, Option.bind_some, hstoi]
  by_cases h : a + 1 < 2 ^ 31
  · have hin : InInt (a + 1) := ⟨by omega, h⟩
    rw [if_pos h]
    simp only [hin, guard_true, Option.pure_def, Option.bind_some, pairStr, List.append_assoc,
      List.cons_append]
  · have hin : ¬ InInt (a + 1) := fun hin => h hin.2
    rw [if_neg h]
    simp [hin]

/-- An increment that returns the old text, copies at most sixteen bytes, and leaves the
new text in `value` and the other fields alone. -/
def Clean (f : Increment n) (nd : Node n) (a b : Int) : Prop :=
  ∃ newval, newval.length ≤ 16 ∧
    f nd = some (List.ofFn nd.value, newval,
      { nd with value := Buf.zero.copyStr (pairStr (a + 1) b) })

theorem incrementFirst_clean_iff (ha : 0 ≤ a) (hb : 0 ≤ b) (ha' : a < 2 ^ 31)
    (hval : nd.value = Buf.zero.copyStr (pairStr a b)) (hlen : (pairStr a b).length ≤ 16) :
    Clean incrementFirst nd a b ↔
      a + 1 < 2 ^ 31 ∧ (intStr (a + 1)).length ≤ (intStr a).length := by
  have hlong : (pairStr (a + 1) b ++ List.replicate (16 - (pairStr a b).length) 0).length ≤ 16 ↔
      (intStr (a + 1)).length ≤ (intStr a).length := by
    rw [List.length_append, List.length_replicate, length_pairStr] at *
    rw [length_pairStr]
    omega
  unfold Clean
  rw [incrementFirst_eq ha hb ha' hval hlen]
  constructor
  · rintro ⟨newval, hle, h⟩
    split at h
    · next hi =>
      obtain ⟨-, h⟩ := Prod.mk.inj (Option.some.inj h)
      obtain ⟨rfl, -⟩ := Prod.mk.inj h
      exact ⟨hi, hlong.mp hle⟩
    · cases h
  · rintro ⟨hi, hdigits⟩
    rw [if_pos hi]
    refine ⟨_, hlong.mpr hdigits, ?_⟩
    rw [copyValue_padded (hlong.mpr hdigits), copyStr_append_zeros]

end

/-- **Counting up writes only `value`** exactly while the number keeps its digits and
stays an `int`. -/
theorem increment_clean_iff (nd : Node n) (a b : Int) (ha : 0 ≤ a) (hb : 0 ≤ b) (ha' : a < 2 ^ 31)
    (hval : nd.value = Buf.zero.copyStr (pairStr a b)) (hlen : (pairStr a b).length ≤ 16) :
    (Clean incrementSrcCnt nd a b ↔
        a + 1 < 2 ^ 31 ∧ (intStr (a + 1)).length ≤ (intStr a).length) ∧
      (Clean incrementFileCnt nd a b ↔
        a + 1 < 2 ^ 31 ∧ (intStr (a + 1)).length ≤ (intStr a).length) :=
  ⟨incrementFirst_clean_iff ha hb ha' hval hlen, incrementFirst_clean_iff ha hb ha' hval hlen⟩

/-- A node at leaf 255 that holds two counters. -/
def counterNode (a b : Int) : Node 16 :=
  { Node.dummy 16 with
    value := Buf.zero.copyStr (pairStr a b)
    pos := 255 }

theorem increment_clean_eight :
    Clean incrementSrcCnt (counterNode 8 0) 8 0 ∧ Clean incrementFileCnt (counterNode 8 0) 8 0 := by
  obtain ⟨hsrc, hfile⟩ := increment_clean_iff (counterNode 8 0) 8 0 (by decide) (by decide)
    (by decide) rfl (by decide)
  exact ⟨hsrc.mpr ⟨by decide, by decide⟩, hfile.mpr ⟨by decide, by decide⟩⟩

/-- From `9-0` to `10-0`: seventeen bytes are copied, and the last of them clears the low
byte of `pos`. -/
theorem increment_nine_clears_pos :
    (pairStr (9 + 1) 0).length ≤ 16 ∧ ¬ Clean incrementSrcCnt (counterNode 9 0) 9 0 ∧
      ¬ Clean incrementFileCnt (counterNode 9 0) 9 0 ∧
      (incrementSrcCnt (counterNode 9 0)).map (fun out => (out.2.1.length, out.2.2.pos)) =
        some (17, 0) := by
  have hclean : ¬ Clean incrementFirst (counterNode 9 0) 9 0 := by
    rw [incrementFirst_clean_iff (by decide) (by decide) (by decide) rfl (by decide)]
    decide
  exact ⟨by decide, hclean, hclean, by decide⟩

end SmallClientSSE.Omap
