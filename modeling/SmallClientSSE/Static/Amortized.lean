import Mathlib.Data.Nat.Log
import SmallClientSSE.Lib.Run
import SmallClientSSE.Lib.Table
import SmallClientSSE.Static.Record

/-!
# The Amortized scheme

Records live in levels: the first `localSize` levels are hash tables of the
client, the others are encrypted sets on the server. An update empties the
levels below the lowest zero bit of `updateCounter` into the level of that bit.
A search collects the records of one keyword from every level and tallies them.

`E.hash` orders the iterations over hash tables, `E.newKey` is what the 16 bytes
allocated by each update for a key happen to hold. An index past the end of an
array and a server loop that never ends are `none`.
-/

namespace SmallClientSSE.Amortized

open Lib Static

/-- What the code takes from outside. -/
structure Env where
  aes : Aes
  derive : Block → Block
  newKey : Nat → Block
  hash : HashOrder

/-- Levels kept by the client. -/
def localSize : Nat := 10

structure BASClient where
  size : Nat
  exist : Nat → Bool
  server : Nat → Table Block Block

namespace BASClient

def init (numOfDataSets : Nat) : BASClient := ⟨numOfDataSets, fun _ => false, fun _ => ∅⟩

variable (E : Env)

/-- The counter overwrites the last four bytes. -/
def getAESRandomValue (keyword : Block) (cnt : Nat) : Block := E.derive (keyword.putInt 12 cnt)

def token (keyword : Str) (key : Option Block) : Block :=
  E.aes.encode (keyword ++ [dash, 49]) key

/-- The ciphers of one keyword's records. -/
def ciphersOf (key : Option Block) (pair : Str × List Block) : List (Block × Block) :=
  let K1 := token E pair.1 key
  pair.2.zipIdx.map fun v => (getAESRandomValue E K1 v.2, E.aes.encodeBlock v.1 key)

def setup (L : BASClient) (index : Nat) (pairs : List (Str × List Block)) (key : Option Block) :
    BASClient :=
  let ciphers : Table Block Block := Table.storeAll ∅ (pairs.flatMap (ciphersOf E key))
  { L with
    exist := Function.update L.exist index true
    server := Function.update L.server index ((L.server index).insertAll ciphers.pairs) }

/-- The loop of `AmortizedBASServer::search`. -/
def searchLoop (set : Table Block Block) (token : Block) : Nat → Nat → Option (List Block)
  | 0, _ => none
  | fuel + 1, cnt =>
    match set.lookup (getAESRandomValue E token cnt) with
    | none => some []
    | some cipher => (searchLoop set token fuel (cnt + 1)).map (cipher :: ·)

def search (L : BASClient) (index : Nat) (keyword : Str) (key : Option Block) :
    Option (List Block) :=
  let set := L.server index
  let ciphers := searchLoop E set (token E keyword key) (set.pairs.length + 1) 0
  ciphers.map fun cs => cs.map fun cipher => E.aes.decode cipher key

def getAllData (L : BASClient) (t index : Nat) (key : Option Block) : List Block :=
  (E.hash.order t index (L.server index).pairs).map fun item => E.aes.decode item.2 key

def destry (L : BASClient) (index : Nat) : BASClient :=
  { L with
    exist := Function.update L.exist index false
    server := Function.update L.server index ∅ }

end BASClient

structure Client where
  updateCounter : Nat
  keys : Nat → Option Block
  L : BASClient
  data : Nat → Table Str (List Block)

def numOfDataSets (N : CInt) : Nat := Nat.clog 2 N.val.toNat

def Client.init (N : CInt) : Client :=
  ⟨0, fun _ => none, BASClient.init (numOfDataSets N), fun _ => ∅⟩

def rm0 (updateCounter : Nat) : Nat :=
  Nat.log2 (~~~(BitVec.ofNat 32 updateCounter) &&& BitVec.ofNat 32 (updateCounter + 1)).toNat

section

variable (E : Env)

/-- One round of the loop over the local levels. -/
def takeLocal (t : Nat) (st : Client × Table Str (List Block)) (i : Nat) :
    Client × Table Str (List Block) :=
  let (c, previousData) := st
  ({ c with data := Function.update c.data i ∅ },
    previousData.pushAll (E.hash.order t i (c.data i).pairs))

/-- One round of the loop over the server sets. -/
def takeSet (t : Nat) (st : Client × Table Str (List Block)) (i : Nat) :
    Client × Table Str (List Block) :=
  let (c, previousData) := st
  let curData := c.L.getAllData E t i (c.keys i)
  ({ c with L := c.L.destry i, keys := Function.update c.keys i none },
    previousData.pushAll (curData.map fun item => (item.cstr, [item])))

/-- The loops over the levels below `rm0`, which empty them into `previousData`. -/
def collect (c : Client) (t rm0 : Nat) : Client × Table Str (List Block) :=
  let st := (List.range (min rm0 localSize)).foldl (takeLocal E t) (c, ∅)
  (List.range' localSize (rm0 - localSize)).foldl (takeSet E t) st

/-- File `previousData` in level `rm0`. -/
def fill (c : Client) (t rm0 : Nat) (previousData : Table Str (List Block)) : Client :=
  let pairs := E.hash.order t rm0 previousData.pairs
  if rm0 < localSize then
    { c with data := Function.update c.data rm0 ((c.data rm0).insertAll pairs) }
  else
    { c with
      keys := Function.update c.keys rm0 (some (E.newKey t))
      L := c.L.setup E rm0 pairs (some (E.newKey t)) }

/-- `Amortized::update`. -/
def update (c : Client) (u : Upd) : Option Client :=
  let t := c.updateCounter
  let rm0 := rm0 t
  let c := { c with updateCounter := t + 1 }
  if localSize ≤ rm0 ∧ c.L.size ≤ rm0 then none
  else
    let (c, previousData) := collect E c t rm0
    some (fill E c t rm0 (previousData.push u.keyword [u.value]))

def touch (c : Client) (keyword : Str) : Client :=
  { c with data := fun i => if i < localSize then (c.data i).push keyword [] else c.data i }

def searchSets (c : Client) (keyword : Str) : List Nat → Option (List Block)
  | [] => some []
  | i :: is => do
    let tmpRes ← if c.L.exist i then c.L.search E i keyword (c.keys i) else some []
    let rest ← searchSets c keyword is
    pure (tmpRes ++ rest)

/-- `Amortized::search`. -/
def search (c : Client) (keyword : Str) : Option (List CInt × Client) := do
  let c := touch c keyword
  let found := (List.range localSize).flatMap fun i => (c.data i).get keyword
  let tmpRes ← searchSets E c keyword (List.range' localSize (c.L.size - localSize))
  let encIndexes := found ++ tmpRes
  pure (Tally.below (Tally.tally (encIndexes.map plain)), c)

/-! ## Calls -/

inductive Call where
  | update (u : Upd)
  | search (keyword : Str)
  deriving DecidableEq

/-- One call: what a search returns, and the state after. -/
def exec (c : Client) : Call → Option (Option (List CInt) × Client)
  | .update u => (update E c u).map fun c => (none, c)
  | .search keyword => (search E c keyword).map fun r => (some r.1, r.2)

def step (c : Client) (a : Call) : Option Client := (exec E c a).map Prod.snd

def runCalls (N : CInt) (calls : List Call) : Option Client := run (step E) (Client.init N) calls

def outputs (c : Client) : List Call → Option (List (Option (List CInt)))
  | [] => some []
  | a :: as => do
    let (res, c) ← exec E c a
    let rest ← outputs c as
    pure (res :: rest)

/-- The records of level `i` as its merge reads them: keyword, op byte and id. -/
def levelRecords (c : Client) (i : Nat) : List (Str × Byte × CInt) :=
  if i < localSize then (c.data i).items.map fun p => (p.1, p.2 10, p.2.getInt 11)
  else (c.L.server i).pairs.map fun item =>
    let plaintext := E.aes.decode item.2 (c.keys i)
    (plaintext.cstr, plaintext 10, plaintext.getInt 11)

end

end SmallClientSSE.Amortized
