import SmallClientSSE.Utils.Utilities

/-!
# `Utilities::encode` and `Utilities::decode`

Both clients of the leveled schemes encrypt one block at a time: `encode` passes
the first fifteen bytes of its argument to AES-128-CBC, and `decode` gives back
fifteen bytes in a buffer whose last byte it leaves as it was. `Aes` is the
cipher, with the one fact the code relies on.
-/

namespace SmallClientSSE

open Lib

/-- AES-128-CBC on one padded block, under the fixed `iv`. -/
structure Aes where
  encrypt : Block → Buf 15 → Block
  decrypt : Block → Block → Buf 15
  decrypt_encrypt : ∀ key p, decrypt key (encrypt key p) = p
  /-- The static key, used where the argument is `NULL`. -/
  key : Block
  /-- What the last byte of `decode`'s buffer held. -/
  spare : Block → Byte

/-- The bytes of a block that `encode` reads. -/
def head15 (b : Block) : Buf 15 := fun i => b ⟨i.val, by omega⟩

@[simp] theorem head15_at (b : Block) {i : Nat} (hi : i < 15) : (head15 b).at' i = b.at' i := by
  rw [Buf.at'_of_lt _ hi, Buf.at'_of_lt _ (by omega)]
  rfl

theorem head15_ext {a b : Block} : head15 a = head15 b ↔ ∀ i, i < 15 → a.at' i = b.at' i := by
  constructor
  · intro h i hi
    rw [← head15_at a hi, h, head15_at b hi]
  · intro h
    refine Buf.ext_at fun i hi => ?_
    rw [head15_at a hi, head15_at b hi, h i hi]

namespace Aes

variable (A : Aes)

/-- `Utilities::encode(string, curkey)`. -/
def encode (keyword : Str) (curkey : Option Block) : Block :=
  A.encrypt (curkey.getD A.key) (head15 (Buf.zero.copyStr keyword))

/-- `Utilities::encode(unsigned char*, curkey)`. -/
def encodeBlock (plaintext : Block) (curkey : Option Block) : Block :=
  A.encrypt (curkey.getD A.key) (head15 plaintext)

/-- `Utilities::decode(ciphertext, plaintext, curkey)`. -/
def decode (ciphertext : Block) (curkey : Option Block) : Block := fun i =>
  if h : i.val < 15 then A.decrypt (curkey.getD A.key) ciphertext ⟨i.val, h⟩ else A.spare ciphertext

variable {A}

/-- **Decoding inverts encoding** on the bytes that are encoded. -/
@[simp] theorem head15_decode (b : Block) (curkey : Option Block) :
    head15 (A.decode (A.encodeBlock b curkey) curkey) = head15 b := by
  funext i
  simp [head15, decode, encodeBlock, A.decrypt_encrypt]

theorem encode_inj {w v : Str} {curkey : Option Block} (hw : NulFree w) (hv : NulFree v)
    (hwl : w.length ≤ 15) (hvl : v.length ≤ 15) (h : A.encode w curkey = A.encode v curkey) :
    w = v := by
  have h' := congrArg (A.decrypt (curkey.getD A.key)) h
  simp only [encode, A.decrypt_encrypt] at h'
  refine nulFree_ext hw hv hwl hvl fun i hi => ?_
  have := head15_ext.mp h' i hi
  rwa [Buf.copyStr_zero_at _ _ (by omega), Buf.copyStr_zero_at _ _ (by omega)] at this

end Aes

/-- No encryption at all. -/
def plainAes : Aes where
  encrypt _ p := fun i => p.at' i.val
  decrypt _ b := head15 b
  decrypt_encrypt _ p := by
    refine Buf.ext_at fun i hi => ?_
    rw [head15_at _ hi, Buf.at'_of_lt _ (show i < 16 by omega)]
  key := Buf.zero
  spare _ := 0

end SmallClientSSE
