import Mathlib.Data.Nat.Log
import Mathlib.Data.Rat.Floor
import SmallClientSSE.Lib.Numbered
import SmallClientSSE.Lib.Run
import SmallClientSSE.Omap.FiniteMap
import SmallClientSSE.Static.Record

/-!
# The DeAmortized scheme

Each level has three complete sets, OLDEST, OLDER and OLD, and a NEW one that is
being built (instances 0 to 3). An update moves one record into the NEW set of
every level `i` whose level below has two complete sets. The counter of a keyword
in a NEW set is kept under the number `upCnt` of that set: in a map of the client
below `localSize`, in an OMAP from there on. When the NEW set is full its sources
are dropped and it takes the first empty place.

OMAPs are finite maps that `setDummy` empties. `E.hash` orders the iterations over
the sources of a merge, by `upCnt`; `E.key0` is what the bytes allocated for the keys
happen to hold and `E.newKey` the random bytes drawn for the next key of a level.
Overflow of an `int` and an access past the end of a set are `none`.
-/

namespace SmallClientSSE

open Lib

namespace FMap

variable {n : Nat}

/-- `OMAP::setDummy`. -/
def setDummy (_ : FMap n) (_ : Int) : FMap n := fun _ => none

/-- `to_string(stoi(text) + 1)`. -/
def succText (text : Str) : Option Str := do
  let z ← stoi text
  guard (InInt (z.val + 1))
  pure (intStr (z.val + 1))

/-- `OMAP::incrementCnt`: the text before, and the map after. -/
def incrementCnt (m : FMap n) (key : Bid n) : Option (Str × FMap n) :=
  match m key with
  | none => some ([], m.insert key [49])
  | some text => (succText text).map fun newval => (text, m.insert key newval)

end FMap

namespace DeAmortized

open Static

/-- What the code takes from outside. -/
structure Env where
  aes : Aes
  derive : Block → Block
  key0 : Nat → Nat → Block
  newKey : Int → Nat → Block
  hash : HashOrder

/-- Levels kept by the client. -/
def localSize : Nat := 10

/-- Assign one element of a vector of vectors. -/
def assign {α : Type} (v : Nat → Nat → α) (inst index : Nat) (x : α) : Nat → Nat → α :=
  fun j i => if j = inst ∧ i = index then x else v j i

structure BASClient where
  exist : Nat → Nat → Bool
  server : Nat → Nat → Table Block Block

/-- `getBid(str, cnt)`. -/
def getBid (input : Str) (cnt : Int) : Bid 16 := ⟨(Buf.zero.copyStr input).putInt 12 cnt⟩

/-- `keyword + "-" + to_string(cnt)`. -/
def localKey (keyword : Str) (cnt : Int) : Str := keyword ++ dash :: intStr cnt

section

variable (E : Env)

/-- The order of iteration over a set while set `upCnt` of the next level is built. -/
def iterate {α : Type} (upCnt : Int) (inst index : Nat) (pairs : List α) : List α :=
  E.hash.order upCnt.toNat (2 * index + inst) pairs

namespace BASClient

def init : BASClient := ⟨fun _ _ => false, fun _ _ => ∅⟩

/-- The counter overwrites the last four bytes. -/
def getAESRandomValue (keyword : Block) (cnt : Int) : Block := E.derive (keyword.putInt 12 cnt)

def token (keyword : Str) (key : Block) : Block := E.aes.encode (keyword ++ [dash, 49]) (some key)

def add (L : BASClient) (inst index : Nat) (keyword : Str) (value : Block) (cnt : Int)
    (key : Block) : BASClient :=
  let K1 := token E keyword key
  let mapKey := getAESRandomValue E K1 cnt
  let mapValue := E.aes.encodeBlock value (some key)
  { L with server := assign L.server inst index ((L.server inst index).put mapKey mapValue) }

def search (L : BASClient) (inst index : Nat) (keyword : Str) (key : Block) :
    Option (List Block) :=
  let token := token E keyword key
  let set := L.server inst index
  let ciphers :=
    scan (fun cnt => set.lookup (getAESRandomValue E token cnt)) (set.pairs.length + 1) 1
  ciphers.map fun cs => cs.map fun cipher => E.aes.decode cipher (some key)

def destry (L : BASClient) (inst index : Nat) : BASClient :=
  { L with
    server := assign L.server inst index ∅
    exist := assign L.exist inst index false }

def size (L : BASClient) (inst index : Nat) : Nat := (L.server inst index).pairs.length

def copy (L : BASClient) (fromInst fromIndex toInst toIndex : Nat) : BASClient :=
  let L := { L with server := assign L.server toInst toIndex (L.server fromInst fromIndex) }
  if 0 < L.size toInst toIndex then { L with exist := assign L.exist toInst toIndex true } else L

def get (L : BASClient) (upCnt : Int) (inst index pos : Nat) (key : Block) : Option Block :=
  ((iterate E upCnt inst index (L.server inst index).pairs)[pos]?).map fun cipher =>
    E.aes.decode cipher.2 (some key)

end BASClient

structure Client where
  l : Nat
  updateCounter : Int
  keys : Nat → Nat → Block
  cnt : Nat → Nat
  omaps : Nat → FMap 16
  setupOMAPS : Nat → FMap 16
  setupOMAPSDummies : Nat → Int
  L : BASClient
  data : Nat → Nat → Table Str Block
  localmap : Nat → Str → Option Str

/-- `ceil(log2(N))`, the number of levels. -/
def numOfLevels (N : CInt) : Nat := Nat.clog 2 N.val.toNat

def Client.init (l : Nat) : Client where
  l := l
  updateCounter := 0
  keys := E.key0
  cnt _ := 0
  omaps _ _ := none
  setupOMAPS _ _ := none
  setupOMAPSDummies _ := 0
  L := BASClient.init
  data _ _ := ∅
  localmap _ _ := none

/-! ## Moving a record -/

/-- OLDEST and OLDER below level `i` hold records. -/
def ready (c : Client) (i : Nat) : Bool :=
  (decide (i > localSize) && c.L.exist 0 (i - 1) && c.L.exist 1 (i - 1)) ||
    (decide (i ≤ localSize) && decide ((c.data 0 (i - 1)).pairs.length > 0) &&
      decide ((c.data 1 (i - 1)).pairs.length > 0))

/-- The number of the NEW set of level `i`. -/
def upCnt (c : Client) (i : Nat) : Int :=
  ⌈((c.updateCounter : ℚ) - (6 * 2 ^ (i - 1) - 2)) / 2 ^ i⌉ + 1

def getElementAt (c : Client) (upCnt : Int) (inst index pos : Nat) : Option Block :=
  ((iterate E upCnt inst index (c.data inst index).pairs)[pos]?).map Prod.snd

/-- The record to move into level `i`: first those of OLDEST, then those of OLDER. -/
def nextRecord (c : Client) (i : Nat) : Option Block :=
  let inst := if c.cnt i < 2 ^ (i - 1) then 0 else 1
  let pos := if c.cnt i < 2 ^ (i - 1) then c.cnt i else c.cnt i % 2 ^ (i - 1)
  if i ≤ localSize then getElementAt E c (upCnt c i) inst (i - 1) pos
  else c.L.get E (upCnt c i) inst (i - 1) pos (c.keys inst (i - 1))

/-- The counter of `curKeyword` is read; an OMAP counts it up at once. -/
def readCnt (c : Client) (i : Nat) (curKeyword : Str) (upCnt : Int) (setup : Bool) :
    Option (Str × Client) :=
  if i < localSize then some ((c.localmap i (localKey curKeyword upCnt)).getD [], c)
  else if setup then some ((c.setupOMAPS i (getBid curKeyword upCnt)).getD [], c)
  else ((c.omaps i).incrementCnt (getBid curKeyword upCnt)).map fun r =>
    (r.1, { c with omaps := Function.update c.omaps i r.2 })

/-- The new counter is stored, where no OMAP has done so. -/
def writeCnt (c : Client) (i : Nat) (curKeyword : Str) (upCnt : Int) (setup : Bool) (text : Str) :
    Client :=
  if i < localSize then
    { c with
      localmap := Function.update c.localmap i
        (Function.update (c.localmap i) (localKey curKeyword upCnt) (some text)) }
  else if setup then
    { c with
      setupOMAPS := Function.update c.setupOMAPS i
        ((c.setupOMAPS i).insert (getBid curKeyword upCnt) text) }
  else c

/-- The counter text after `text`. -/
def nextText (text : Str) : Option Str := if text = [] then some [49] else FMap.succText text

def countUp (c : Client) (i : Nat) (curKeyword : Str) (upCnt : Int) (setup : Bool) :
    Option (Str × Client) := do
  let (text, c) ← readCnt c i curKeyword upCnt setup
  let text ← nextText text
  pure (text, writeCnt c i curKeyword upCnt setup text)

def file (c : Client) (i : Nat) (curKeyword text : Str) (x : Block) : Option Client :=
  if i < localSize then
    some { c with data := assign c.data 3 i ((c.data 3 i).put (curKeyword ++ dash :: text) x) }
  else (stoi text).map fun n => { c with L := c.L.add E 3 i curKeyword x n.val (c.keys 3 i) }

/-- One record moves into level `i`: its keyword and the client after. -/
def move (c : Client) (i : Nat) (setup : Bool) : Option (Str × Client) := do
  let x ← nextRecord E c i
  let up := upCnt c i
  let c := { c with cnt := Function.update c.cnt i (c.cnt i + 1) }
  let curKeyword := x.cstr
  let (text, c) ← countUp c i curKeyword up setup
  let c ← file E c i curKeyword text x
  pure (curKeyword, c)

/-! ## Completing a set -/

def newSize (c : Client) (i : Nat) : Nat :=
  if i < localSize then (c.data 3 i).pairs.length else c.L.size 3 i

def dropCnt (c : Client) (i : Nat) (curKeyword : Str) (upCnt : Int) (setup : Bool) : Client :=
  if i < localSize then
    { c with
      localmap := Function.update c.localmap i
        (Function.update (c.localmap i) (localKey curKeyword upCnt) none) }
  else if setup then
    { c with setupOMAPSDummies := Function.update c.setupOMAPSDummies i upCnt }
  else { c with omaps := Function.update c.omaps i ((c.omaps i).setDummy upCnt) }

/-- The sources of level `i` are dropped, and OLD becomes OLDEST. -/
def dropSources (c : Client) (i : Nat) : Client :=
  let c :=
    if i ≤ localSize then
      let data := assign (assign c.data 0 (i - 1) ∅) 1 (i - 1) ∅
      let data := assign data 0 (i - 1) (data 2 (i - 1))
      { c with data := assign data 2 (i - 1) ∅ }
    else
      let L := (c.L.destry 0 (i - 1)).destry 1 (i - 1)
      { c with L := (L.copy 2 (i - 1) 0 (i - 1)).destry 2 (i - 1) }
  { c with keys := assign c.keys 0 (i - 1) (c.keys 2 (i - 1)) }

def free (c : Client) (inst i : Nat) : Bool :=
  if i < localSize then decide ((c.data inst i).pairs.length = 0) else !c.L.exist inst i

def freePlace (c : Client) (i : Nat) : Option Nat :=
  if free c 0 i then some 0 else if free c 1 i then some 1 else if free c 2 i then some 2 else none

def place (c : Client) (i inst : Nat) : Client :=
  let c :=
    if i < localSize then { c with data := assign (assign c.data inst i (c.data 3 i)) 3 i ∅ }
    else { c with L := (c.L.copy 3 i inst i).destry 3 i }
  { c with keys := assign c.keys inst i (c.keys 3 i) }

/-- NEW moves to the first empty place, if there is one. -/
def promote (c : Client) (i : Nat) : Client :=
  match freePlace c i with
  | some inst => place c i inst
  | none => c

def renewKey (c : Client) (i : Nat) : Client :=
  if i < localSize then c else { c with keys := assign c.keys 3 i (E.newKey c.updateCounter i) }

/-- What follows once the NEW set of level `i` is complete. -/
def complete (c : Client) (i : Nat) (curKeyword : Str) (upCnt : Int) (setup : Bool) : Client :=
  let c := dropSources (dropCnt c i curKeyword upCnt setup) i
  renewKey E (promote { c with cnt := Function.update c.cnt i 0 } i) i

def level (setup : Bool) (c : Client) (i : Nat) : Option Client :=
  if ready c i then do
    let up := upCnt c i
    let (curKeyword, c) ← move E c i setup
    pure (if newSize c i = 2 ^ i then complete E c i curKeyword up setup else c)
  else some c

/-! ## The operations -/

def recordPlace (c : Client) : Nat :=
  if (c.data 0 0).pairs.length = 0 then 0 else if (c.data 1 0).pairs.length = 0 then 1 else 2

def enter (c : Client) (u : Upd) : Client :=
  let new := (c.data 3 0).put (u.keyword ++ [dash, 49]) u.value
  let inst := recordPlace c
  { c with data := assign (assign c.data inst 0 ((c.data inst 0).insertAll new.pairs)) 3 0 ∅ }

def levelsFrom (l i : Nat) : List Nat := (List.range' i (l - i)).reverse

def reach (c : Client) (setup : Bool) (i : Nat) : Option Client :=
  if InInt (c.updateCounter + 1) then
    run (level E setup) { c with updateCounter := c.updateCounter + 1 } (levelsFrom c.l (i + 1))
  else none

/-- `DeAmortized::update`. -/
def update (c : Client) (u : Upd) (setup : Bool) : Option Client :=
  (reach E c setup 0).map fun c => enter c u

/-- The records of `keyword` in a set of the client. -/
def searchLocal (c : Client) (keyword : Str) (j i : Nat) : Option (List Block) :=
  let set := c.data j i
  if set.pairs.length > 0 then
    scan (fun cnt => set.lookup (localKey keyword cnt)) (set.pairs.length + 1) 1
  else some []

/-- The records of `keyword` in a set of the server. -/
def searchSet (c : Client) (keyword : Str) (j i : Nat) : Option (List Block) :=
  if c.L.exist j i then c.L.search E j i keyword (c.keys j i) else some []

def collect (f : Nat → Nat → Option (List Block)) (levels : List Nat) : Option (List Block) :=
  ([0, 1, 2].flatMap fun j => levels.map fun i => f j i).foldlM
    (fun encIndexes r => r.map fun tmpRes => encIndexes ++ tmpRes) []

/-- `DeAmortized::search`. -/
def search (c : Client) (keyword : Str) : Option (List CInt) := do
  let found ← collect (searchLocal c keyword) (List.range localSize)
  let tmpRes ← collect (searchSet E c keyword) (List.range' localSize (c.l - localSize))
  pure (Tally.below (Tally.tally ((found ++ tmpRes).map plain)))

/-- `DeAmortized::endSetup`. -/
def endSetup (c : Client) : Client :=
  { c with
    omaps := fun i =>
      if i < c.l then ((c.omaps i).setDummy (c.setupOMAPSDummies i)).setupInsert (c.setupOMAPS i)
      else c.omaps i }

/-! ## Calls -/

inductive Call where
  | update (u : Upd) (setup : Bool)
  | endSetup
  | search (keyword : Str)
  deriving DecidableEq

/-- One call: what a search returns, and the state after. -/
def exec (c : Client) : Call → Option (Option (List CInt) × Client)
  | .update u setup => (update E c u setup).map fun c => (none, c)
  | .endSetup => some (none, endSetup c)
  | .search keyword => (search E c keyword).map fun res => (some res, c)

def step (c : Client) (a : Call) : Option Client := (exec E c a).map Prod.snd

def runCalls (l : Nat) (calls : List Call) : Option Client := run (step E) (Client.init E l) calls

def outputs (c : Client) : List Call → Option (List (Option (List CInt)))
  | [] => some []
  | a :: as => do
    let (res, c) ← exec E c a
    let rest ← outputs c as
    pure (res :: rest)

end

end DeAmortized

end SmallClientSSE
