import Mathlib.Logic.Function.Basic
import SmallClientSSE.Utils.Utilities

/-!
# Oblivious maps read as finite maps

The clients use an OMAP only through its operations. Here these act on a plain
finite map from keys to text; `find` renders an absent key as the empty string.
-/

namespace SmallClientSSE

open Lib

/-- The contents of an OMAP. -/
abbrev FMap (n : Nat) := Bid n → Option Str

namespace FMap

variable {n : Nat}

/-- `OMAP::find`. -/
def find (m : FMap n) (key : Bid n) : Str := (m key).getD []

/-- `OMAP::insert`. -/
def insert (m : FMap n) (key : Bid n) (value : Str) : FMap n := Function.update m key (some value)

/-- `OMAP::setupInsert`. -/
def setupInsert (m : FMap n) (pairs : FMap n) : FMap n := fun k => (pairs k).or (m k)

theorem insert_apply (m : FMap n) (k j : Bid n) (v : Str) :
    m.insert k v j = if j = k then some v else m j := by
  simp [insert, Function.update_apply]

theorem find_insert_self (m : FMap n) (k : Bid n) (v : Str) : (m.insert k v).find k = v := by
  simp [find, insert]

theorem find_insert_of_ne {m : FMap n} {k j : Bid n} (v : Str) (h : j ≠ k) :
    (m.insert k v).find j = m.find j := by
  simp [find, insert, h]

theorem insert_self (m : FMap n) (k : Bid n) (v : Str) : m.insert k v k = some v := by
  simp [insert]

theorem insert_of_ne {m : FMap n} {k j : Bid n} (v : Str) (h : j ≠ k) : m.insert k v j = m j := by
  simp [insert, h]

theorem foldl_insert_of_ne {k j : Bid n} (v : Str) (h : j ≠ k) (l : List Nat) :
    ∀ m : FMap n, (l.foldl (fun m _ => m.insert k v) m) j = m j := by
  induction l with
  | nil => exact fun _ => rfl
  | cons _ l ih => exact fun m => (ih _).trans (insert_of_ne v h)

end FMap

end SmallClientSSE
