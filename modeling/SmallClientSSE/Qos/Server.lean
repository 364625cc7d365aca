import Mathlib.Data.Nat.Log
import Mathlib.Logic.Function.Iterate
import SmallClientSSE.Utils.Encode

/-!
# The QOS server

Positions of a keyword are the leaves of a complete binary tree of `height`
levels, its nodes numbered from the root `0` row by row. `I` maps the address of
a leaf to a cipher, `Dstate` holds the addresses of marked nodes, whose leaves
are all deleted. A search walks down from the covering nodes of the positions
used so far, turns back at marks, and takes what it meets out of both maps.

Addresses are encodings of a key with the node number at `AES_KEY_SIZE - 5`. A
conversion or sum outside `int`, and a recursion that does not end, are `none`.
-/

namespace SmallClientSSE.Qos

open Lib

def heightOf (N : CInt) : Nat := Nat.clog 2 N.val.toNat + 1

/-- A value of type `int`. -/
def int (z : Int) : Option Int := if InInt z then some z else none

/-- One level up: `(leaf + 1) / 2 - 1`. -/
def parent (leaf : Int) : Int := (leaf + 1).tdiv 2 - 1

/-- `getNodeOnPath`, the same in client and server. -/
def getNodeOnPath (height : Nat) (leaf curDepth : Int) : Option Int := do
  let full ← int (2 ^ height - 1)
  let leaf ← int (leaf + full.tdiv 2)
  pure (parent^[(height - curDepth).toNat] leaf)

structure Server where
  height : Nat
  I : Block → Option Block
  Dstate : Block → Option Block

/-- Set the node number of a key. -/
def atNode (key : Block) (index : Int) : Block := key.putInt 11 index

/-- `map<int, prf_type>::operator[]` followed by an assignment. -/
def assign (index : Int) (v : Block) : List (Int × Block) → List (Int × Block)
  | [] => [(index, v)]
  | (j, u) :: m =>
    if index < j then (index, v) :: (j, u) :: m
    else if index = j then (index, v) :: m
    else (j, u) :: assign index v m

namespace Server

def init (N : CInt) : Server := ⟨heightOf N, fun _ => none, fun _ => none⟩

def insert (s : Server) (key value : Block) : Server :=
  { s with I := Function.update s.I key (some value) }

def insertInDstate (s : Server) (key value : Block) : Server :=
  { s with Dstate := Function.update s.Dstate key (some value) }

def insertAll (s : Server) (items ditems : List (Block × Block)) : Server :=
  let s := items.foldl (fun s e => s.insert e.1 e.2) s
  ditems.foldl (fun s e => s.insertInDstate e.1 e.2) s

def coverLoop (height : Nat) : Nat → Int → Int → Option (List Int)
  | 0, _, _ => none
  | fuel + 1, a_w, totIndex =>
    if a_w ≥ 0 then do
      let lastTreeHeight : Int := if a_w = 0 then 1 else (a_w + 1).toNat.log2 + 1
      let lastIndex : Int := if a_w = 0 then 0 else 2 ^ (a_w + 1).toNat.log2 - 1
      let index ← getNodeOnPath height (lastIndex + totIndex) (height - lastTreeHeight + 1)
      let coverSet ← coverLoop height fuel (a_w - (lastIndex + 1)) (totIndex + (lastIndex + 1))
      pure (index :: coverSet)
    else some []

def findCoveringSet (height : Nat) (a_w : Int) : Option (List Int) :=
  coverLoop height ((a_w + 1).toNat + 1) a_w 0

/-- `Dstate`, `result` and `deletes` during the recursion. -/
structure Walk where
  Dstate : Block → Option Block
  result : List Int
  deletes : List Int

variable (A : Aes)

def recursiveSearch (height : Nat) (key : Block) : Nat → Int → Walk → Option Walk
  | 0, _, _ => none
  | fuel + 1, index, w =>
    let fkey := A.encodeBlock (atNode key index) none
    if w.Dstate fkey = none then
      if index ≥ 2 ^ (height - 1) - 1 then some { w with result := w.result ++ [index] }
      else do
        let w ← recursiveSearch height key fuel (index * 2 + 1) w
        recursiveSearch height key fuel (index * 2 + 2) w
    else some { w with
      Dstate := Function.update w.Dstate fkey none
      deletes := w.deletes ++ [index] }

def take (Ikey : Block) (st : (Block → Option Block) × List (Int × Block)) (index : Int) :
    (Block → Option Block) × List (Int × Block) :=
  let fkey := A.encodeBlock (atNode Ikey index) none
  match st.1 fkey with
  | some cipher => (Function.update st.1 fkey none, assign index cipher st.2)
  | none => st

/-- `Server::search`: the ciphers by leaf, and `deletes`. -/
def search (s : Server) (Ikey Dkey : Block) (a_w : Int) :
    Option (List (Int × Block) × List Int × Server) := do
  let t_i ← findCoveringSet s.height a_w
  let w ← t_i.foldlM (fun w index => recursiveSearch A s.height Dkey s.height index w)
    ⟨s.Dstate, [], []⟩
  let (I, result) := w.result.foldl (take A Ikey) (s.I, [])
  pure (result, w.deletes, { s with I := I, Dstate := w.Dstate })

end Server

end SmallClientSSE.Qos
