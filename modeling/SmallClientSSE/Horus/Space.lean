import Mathlib.Data.Finset.Sort
import Mathlib.Data.Fintype.Pi
import SmallClientSSE.Horus.Calls
import SmallClientSSE.Horus.Reads
import SmallClientSSE.Omap.Layout

/-!
# The free blocks of Horus

`WriteData` takes a free block of its store and throws when there is none. The OMAPs
write a block for every key that is new to them, `ORAM_srch` one for every box, whether
the key is new or not; nothing gives a block back. `MOp` runs the calls of the client
with these counters. A call that finds no block leaves what it did before, and the maps
as they are.
-/

namespace SmallClientSSE.Horus.Space

open Lib Lib.Effect

/-! ## State -/

inductive Store where
  | OMAP_updt
  | CNTs
  | ORAM_srch
  deriving DecidableEq

/-- The client, and `emptyNodes` of its stores. -/
structure Metered where
  client : Client
  free : Store → Nat

/-- What a call throws; `noSpace` is "There is no more space". -/
inductive Failure where
  | fault (f : Fault)
  | noSpace
  deriving DecidableEq

abbrev MOp := EStateM Failure Metered

abbrev INC_FACTOR : Nat := 4

def capacity (maxSize : Nat) : Store → Nat
  | .OMAP_updt => Omap.blockCount (Omap.depthOf (maxSize * INC_FACTOR))
  | .CNTs => Omap.blockCount (Omap.depthOf maxSize)
  | .ORAM_srch => Omap.blockCount (Omap.depthOf (maxSize * INC_FACTOR))

def Metered.init (maxSize : Nat) : Metered := ⟨Client.init, capacity maxSize⟩

/-! ## Stores -/

/-- A step that needs no block. -/
def lift {α : Type} (x : Op α) : MOp α := fun m =>
  match x m.client with
  | .ok a h => .ok a { m with client := h }
  | .error e h => .error (.fault e) { m with client := h }

/-- The counter in `WriteData`. -/
def reduceEmpty (s : Store) : MOp Unit := fun m =>
  if m.free s > 0 then .ok () { m with free := Function.update m.free s (m.free s - 1) }
  else .error .noSpace m

def insertUpdt (key : Bid 24) (value : Str) : MOp Unit := do
  let m ← get
  if (m.client.OMAP_updt key).isSome then lift (Horus.insertUpdt key value)
  else do
    reduceEmpty .OMAP_updt
    lift (Horus.insertUpdt key value)

def insertCnt (key : Bid 24) (value : Str) : MOp Unit := do
  let m ← get
  if (m.client.CNTs key).isSome then lift (Horus.insertCnt key value)
  else do
    reduceEmpty .CNTs
    lift (Horus.insertCnt key value)

def writeBox (key : Bid 24) (value : Str) : MOp Unit := do
  reduceEmpty .ORAM_srch
  lift (Horus.writeBox key value)

def batchWrite : List (Bid 24 × Str) → MOp Unit
  | [] => pure ()
  | (key, value) :: items => do
    writeBox key value
    batchWrite items

instance : Fintype (Bid 24) := .ofEquiv (Buf 24) ⟨Bid.mk, Bid.id, fun _ => rfl, fun _ => rfl⟩

def entries (q : FMap 24) : List (Bid 24 × Str) :=
  ((Finset.univ.filter fun k => (q k).isSome).sort (· ≤ ·)).map fun k => (k, q.find k)

/-! ## Insertion -/

def insertCounters (keyword : Kw) : MOp (CInt × CInt × CInt) := do
  let updtCntStr ← lift (changeCnt (getBid keyword .UpdtCnt) 1)
  if updtCntStr = [] then
    insertCnt (getBid keyword .UpdtCnt) (intStr 1)
    insertCnt (getBid keyword .latestUpdatedCounter) (intStr 0)
    insertCnt (getBid keyword .SrchCnt) (intStr 0)
    pure (zero, zero, zero)
  else
    let updtCnt ← lift (number updtCntStr)
    let srcCnt ← lift (number (← lift (findCnt (getBid keyword .SrchCnt))))
    let lastUpdtCnt ← lift (number (← lift (findCnt (getBid keyword .latestUpdatedCounter))))
    pure (updtCnt, srcCnt, lastUpdtCnt)

def accessCounter (keyword : Kw) : MOp CInt := do
  let accessCntStr ← lift (findCnt (getBid keyword .Access))
  if accessCntStr = [] then
    insertCnt (getBid keyword .Access) (intStr 1)
    pure one
  else lift (number accessCntStr)

def raiseAccess (keyword : Kw) (accessCnt acc_cnt : CInt) : MOp Unit :=
  if acc_cnt > accessCnt then insertCnt (getBid keyword .Access) (intStr acc_cnt.val) else pure ()

def nextAccess (keyword : Kw) (updtCnt accessCnt : CInt) : MOp CInt := do
  let resStr ← lift (findUpdt (createBid 1 keyword updtCnt))
  if resStr = [] then pure one
  else
    let old ← lift (number (← lift (tokenAt (tokensOn hash resStr) 1)))
    let acc_cnt ← lift (add old 1)
    raiseAccess keyword accessCnt acc_cnt
    pure acc_cnt

def countNew (keyword : Kw) (updtCnt srcCnt acc_cnt lastUpdtCnt : CInt) : MOp Unit :=
  if lastUpdtCnt < updtCnt then do
    let lastUpdtCnt ← lift (add lastUpdtCnt 1)
    insertCnt (getBid keyword .latestUpdatedCounter) (intStr lastUpdtCnt.val)
    if acc_cnt.val > 1 then
      writeBox (oramBid keyword updtCnt srcCnt one) (marker acc_cnt)
    else pure ()
  else pure ()

/-- `Horus::insert`. -/
def insert (keyword : Kw) (ind : CInt) : MOp Unit := do
  let mapKey := createBid 0 keyword ind
  let resStr ← lift (findUpdt mapKey)
  if resStr = [] ∨ (tokensOn hash resStr)[0]? = some minusOne then
    let (updtCnt, srcCnt, lastUpdtCnt) ← insertCounters keyword
    let accessCnt ← accessCounter keyword
    let updtCnt ← lift (add updtCnt 1)
    let acc_cnt ← nextAccess keyword updtCnt accessCnt
    insertUpdt mapKey (hashText updtCnt acc_cnt)
    insertUpdt (createBid 1 keyword updtCnt) (hashText ind acc_cnt)
    writeBox (oramBid keyword updtCnt srcCnt acc_cnt) (intStr ind.val)
    countNew keyword updtCnt srcCnt acc_cnt lastUpdtCnt
    insertCnt (getBid keyword .LastIND) (intStr ind.val)
  else pure ()

/-! ## Removal -/

def moveLast (keyword : Kw) (updt_cnt acc_cnt srcCnt lastind : CInt) : MOp Unit := do
  let acc_cnt ← lift (add acc_cnt 1)
  let accessCnt ← lift (number (← lift (findCnt (getBid keyword .Access))))
  raiseAccess keyword accessCnt acc_cnt
  writeBox (oramBid keyword updt_cnt srcCnt acc_cnt) (intStr lastind.val)
  insertUpdt (createBid 0 keyword lastind) (hashText updt_cnt acc_cnt)
  insertUpdt (createBid 1 keyword updt_cnt) (hashText lastind acc_cnt)

/-- `Horus::remove`. -/
def remove (keyword : Kw) (ind : CInt) : MOp Unit := do
  let mapKey := createBid 0 keyword ind
  let tokens := tokensOn hash (← lift (findUpdt mapKey))
  let updt_cnt ← lift (number (← lift (tokenAt tokens 0)))
  if updt_cnt.val > 0 then
    let acc_cnt ← lift (number (← lift (tokenAt tokens 1)))
    let next ← lift (add acc_cnt 1)
    insertUpdt mapKey (minusOne ++ hash :: intStr next.val)
    let old ← lift (number (← lift (changeCnt (getBid keyword .UpdtCnt) (-1))))
    let updtCnt ← lift (add old (-1))
    if updtCnt.val > 0 then
      let srcCnt ← lift (number (← lift (findCnt (getBid keyword .SrchCnt))))
      let lastind ← lift (number (← lift (findCnt (getBid keyword .LastIND))))
      if updtCnt.val + 1 ≠ updt_cnt.val then moveLast keyword updt_cnt acc_cnt srcCnt lastind
      else pure ()
      let resStr ← lift (findUpdt (createBid 1 keyword updtCnt))
      let lastind ← lift (number (← lift (tokenAt (tokensOn hash resStr) 0)))
      insertCnt (getBid keyword .LastIND) (intStr lastind.val)
    else insertCnt (getBid keyword .LastIND) []
  else pure ()

/-! ## Search -/

/-- `Horus::search`. -/
def search (keyword : Kw) : MOp (List CInt) := do
  let updtCnt ← lift (number (← lift (findCnt (getBid keyword .UpdtCnt))))
  let accessCnt ← lift (number (← lift (findCnt (getBid keyword .Access))))
  let srcCnt ← lift (number (← lift (changeCnt (getBid keyword .SrchCnt) 1)))
  let next ← lift (add srcCnt 1)
  let (result, query) ← lift (rounds keyword srcCnt next (loopFuel accessCnt) true
    (initSlots updtCnt accessCnt) fun _ => none)
  batchWrite (entries query)
  insertCnt (getBid keyword .latestUpdatedCounter) (intStr result.length)
  pure result

/-! ## Setup -/

/-- `endSetup`, the first time: the test key is new to both OMAPs, the loaded pairs take no
block. -/
def endSetup (m : Metered) : Metered where
  client := Horus.endSetup m.client
  free
    | .OMAP_updt => m.free .OMAP_updt - 1
    | .CNTs => m.free .CNTs - 1
    | .ORAM_srch => m.free .ORAM_srch

/-! ## Calls -/

def perform : Call → MOp (List CInt)
  | .insert keyword ind => do
    insert keyword ind
    pure []
  | .remove keyword ind => do
    remove keyword ind
    pure []
  | .search keyword => search keyword

end SmallClientSSE.Horus.Space
