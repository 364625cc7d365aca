import SmallClientSSE.Lib.Bytes
import SmallClientSSE.Lib.Decimal

/-!
# Shared types and utilities

`Block` is `prf_type`, the 16-byte array every scheme stores. `Bid` is the key
of an oblivious map: `ID_SIZE` bytes compared from the first to the last, while
its test against the integer `0` looks at the first four bytes only.
`splitData` cuts counter text into its non-empty tokens.
-/

namespace SmallClientSSE

open Lib

/-- `prf_type`; `AES_KEY_SIZE` is 16. -/
abbrev Block := Buf 16

/-- The updates a client sends. -/
inductive OP where
  | INS
  | DEL
  deriving DecidableEq, Repr

def OP.toByte : OP → Byte
  | .INS => 0
  | .DEL => 1

/-- What one record adds to the tally of its id: `2 * op - 1`. -/
def OP.weight : OP → Int
  | .INS => -1
  | .DEL => 1

theorem OP.weight_eq (op : OP) : 2 * (op.toByte.val : Int) - 1 = op.weight := by
  cases op <;> rfl

/-- Keys of oblivious maps. -/
structure Bid (n : Nat) where
  id : Buf n
  deriving DecidableEq

instance lawfulBEq_bid {n : Nat} : LawfulBEq (Bid n) := inferInstance

namespace Bid

variable {n : Nat}

def bytes (b : Bid n) : List Byte := List.ofFn b.id

theorem bytes_inj : Function.Injective (bytes (n := n)) := by
  intro a b h
  have : a.id = b.id := List.ofFn_injective h
  cases a; cases b; simp_all

instance : LinearOrder (Bid n) := LinearOrder.lift' bytes bytes_inj

/-- The loop of `operator<`. -/
def ltLoop : List Byte → List Byte → Bool
  | x :: xs, y :: ys => if x < y then true else if y < x then false else ltLoop xs ys
  | _, _ => false

theorem ltLoop_iff : ∀ {xs ys : List Byte}, xs.length = ys.length →
    (ltLoop xs ys = true ↔ xs < ys)
  | [], [], _ => by simp [ltLoop]
  | x :: xs, y :: ys, h => by
    have ih : ltLoop xs ys = true ↔ xs < ys := ltLoop_iff (by simpa using h)
    simp only [ltLoop, List.cons_lt_cons_iff]
    split
    · next hlt => simp [hlt]
    · next hlt =>
      split
      · next hgt => simp [hlt, hgt.ne']
      · next hgt =>
        have : x = y := le_antisymm (not_lt.mp hgt) (not_lt.mp hlt)
        simp [this, ih]

theorem lt_iff_ltLoop (a b : Bid n) : a < b ↔ ltLoop a.bytes b.bytes = true := by
  rw [ltLoop_iff (by simp [bytes])]
  rfl

/-- `operator==(0)`: the first four bytes are zero. -/
def isZero (b : Bid n) : Bool := (List.range 4).all fun i => b.id.at' (3 - i) == 0

/-- `setValue`: the integer in the first four bytes, most significant first. -/
def ofValue (v : Int) : Bid n :=
  ⟨fun i => if i.val < 4 then Buf.leByte v (3 - i.val) else 0⟩

/-- The key assigned from `0`. -/
def null : Bid n := ofValue 0

/-- `getBid`: the keyword padded with zeros. -/
def ofStr (w : Str) : Bid n := ⟨Buf.zero.copyStr w⟩

/-- The test key `Bid(1)` of `endSetup` is the key of no keyword. -/
theorem ofStr_ne_one {w : Str} (hw : NulFree w) (hne : w ≠ []) :
    (Bid.ofStr w : Bid 16) ≠ Bid.ofValue 1 := by
  intro h
  have h0 : ((Bid.ofStr w : Bid 16).id).at' 0 = ((Bid.ofValue 1 : Bid 16).id).at' 0 := by rw [h]
  obtain ⟨c, t, rfl⟩ := List.exists_cons_of_ne_nil hne
  have h1 : c = ((Bid.ofValue 1 : Bid 16).id).at' 0 := by
    rw [← h0]
    simp [Bid.ofStr, Buf.copyStr]
  have h2 : ((Bid.ofValue 1 : Bid 16).id).at' 0 = 0 := by decide
  exact hw (by rw [h1, h2]; exact List.mem_cons_self)

theorem ofStr_inj {w v : Str} (hw : NulFree w) (hv : NulFree v) (hwl : w.length ≤ n)
    (hvl : v.length ≤ n) (h : (ofStr w : Bid n) = ofStr v) : w = v := by
  refine nulFree_ext hw hv hwl hvl fun i hi => ?_
  have : ((ofStr w : Bid n).id).at' i = ((ofStr v : Bid n).id).at' i := by rw [h]
  simpa only [ofStr, Buf.copyStr_zero_at _ _ hi] using this

end Bid

/-- `Utilities::splitData` with a one-byte delimiter. -/
def splitData (str : Str) (delim : Byte) : List Str := (tokensOn delim str).filter fun t => t ≠ []

/-- The separator of counter text. -/
abbrev dash : Byte := 45

/-- `to_string(a) + "-" + to_string(b)`. -/
def pairStr (a b : Int) : Str := intStr a ++ dash :: intStr b

theorem pairStr_ne_nil (a b : Int) : pairStr a b ≠ [] := by simp [pairStr]

theorem splitData_pairStr {a b : Int} (ha : 0 ≤ a) (hb : 0 ≤ b) :
    splitData (pairStr a b) dash = [intStr a, intStr b] := by
  have h1 := not_mem_intStr_of_nonneg ha (c := dash) (by decide)
  have h2 := not_mem_intStr_of_nonneg hb (c := dash) (by decide)
  simp [splitData, pairStr, tokensOn_append h1, tokensOn_of_not_mem h2, intStr_ne_nil]

/-- Split at `-` and parse both tokens: how every client reads a counter pair. -/
def parsePair (s : Str) : Option (Int × Int) := do
  let parts := splitData s dash
  let a ← parts[0]? >>= stoi
  let b ← parts[1]? >>= stoi
  pure (a.val, b.val)

/-- **Counter text round trip.** -/
theorem parsePair_pairStr {a b : Int} (ha : 0 ≤ a) (hb : 0 ≤ b) (ha' : a < 2 ^ 31)
    (hb' : b < 2 ^ 31) : parsePair (pairStr a b) = some (a, b) := by
  have h1 := stoi_intStr_self ⟨a, ⟨by omega, ha'⟩⟩
  have h2 := stoi_intStr_self ⟨b, ⟨by omega, hb'⟩⟩
  simp only at h1 h2
  simp [parsePair, splitData_pairStr ha hb, h1, h2]

theorem xor_cancel (a b : Byte) : a ^^^ (a ^^^ b) = b := by
  have h : (a ^^^ b).val = a.val ^^^ b.val := by
    rw [Fin.xor_val]
    exact Nat.mod_eq_of_lt (Nat.xor_lt_two_pow (n := 8) a.isLt b.isLt)
  apply Fin.ext
  rw [Fin.xor_val, h, ← Nat.xor_assoc, Nat.xor_self, Nat.zero_xor]
  exact Nat.mod_eq_of_lt b.isLt

end SmallClientSSE
