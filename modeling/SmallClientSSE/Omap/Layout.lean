import Mathlib.Data.Nat.Log
import SmallClientSSE.Utils.Utilities

/-!
# The bucket tree of an ORAM

What the constructor of `ORAM` computes from `maxSize`, and the buckets on the way
from a leaf to the root. The scheme folders share this code.
-/

namespace SmallClientSSE.Omap

open Lib

def Z : Nat := 4

def depthOf (maxSize : Nat) : Nat := Nat.log 2 (maxSize / Z)

def bucketCount (depth : Nat) : Nat := 2 ^ (depth + 1) - 1

def blockCount (depth : Nat) : Nat := Z * (2 ^ (depth + 1) - 1)

def maxHeightOfAVLTree (maxSize : Nat) : Nat := Nat.log 2 (blockCount (depthOf maxSize)) + 1

theorem maxHeightOfAVLTree_eq (maxSize : Nat) :
    maxHeightOfAVLTree maxSize = depthOf maxSize + 3 := by
  unfold maxHeightOfAVLTree blockCount Z
  have h : 1 ≤ 2 ^ depthOf maxSize := Nat.one_le_two_pow
  rw [Nat.log_eq_of_pow_le_of_lt_pow (m := depthOf maxSize + 2)]
  · simp only [pow_succ]
    omega
  · simp only [pow_succ]
    omega

end SmallClientSSE.Omap
