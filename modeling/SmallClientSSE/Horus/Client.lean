import SmallClientSSE.Lib.Run
import SmallClientSSE.Lib.Table
import SmallClientSSE.Omap.FiniteMap

/-!
# The Horus client

Every keyword numbers its live items `1` to `UpdtCnt`. `OMAP_updt` maps a pair
`(keyword, ind)` to `slot#access` and a slot to `ind#access`; each write to a
slot takes the next access number, and `ORAM_srch` keeps the written values
under `(keyword, slot, SrchCnt, access)`. A removal moves the last item into the
freed slot. A search finds the latest access of every slot by a binary search
that runs for all slots in step, and files the items again under the next
`SrchCnt`, with a marker `@a` at access `1` where the accesses of a slot start
at `a`.

A call may fail in the middle: `Op` keeps the state it leaves. `number` is
`stoi`, and signed overflow is a fault.
-/

namespace SmallClientSSE.Horus

open Lib

/-- Nonempty keywords that fit the keys. -/
abbrev Kw := {w : Str // w ≠ [] ∧ NulFree w ∧ w.length ≤ 12}

abbrev zero : CInt := ⟨0, by decide⟩
abbrev one : CInt := ⟨1, by decide⟩

/-- The `type` argument of `getBid`. -/
inductive Cnt where
  | UpdtCnt
  | SrchCnt
  | Access
  | LastIND
  | latestUpdatedCounter
  deriving DecidableEq

def Cnt.number : Cnt → CInt
  | .UpdtCnt => ⟨1, by decide⟩
  | .SrchCnt => ⟨2, by decide⟩
  | .Access => ⟨3, by decide⟩
  | .LastIND => ⟨4, by decide⟩
  | .latestUpdatedCounter => ⟨5, by decide⟩

/-! ## Keys -/

/-- `createBid(prefix, keyword, number)`. -/
def createBid (pre : Byte) (keyword : Kw) (number : CInt) : Bid 24 :=
  ⟨((Buf.zero.put 0 pre).copyAt 1 keyword.val).putInt 20 number.val⟩

/-- `createBid(keyword, val1, val2, val3)`. -/
def oramBid (keyword : Kw) (val1 val2 val3 : CInt) : Bid 24 :=
  ⟨(((Buf.zero.putInt 0 val1.val).putInt 4 val2.val).putInt 8 val3.val).copyAt 12 keyword.val⟩

def getBid (input : Kw) (type : Cnt) : Bid 24 :=
  ⟨(Buf.zero.copyStr input.val).putInt 20 type.number.val⟩

/-! ## State and effects -/

/-- The three stores, and the maps filled during setup. -/
structure Client where
  OMAP_updt : FMap 24
  CNTs : FMap 24
  ORAM_srch : FMap 24
  setupPairs1 : FMap 24
  setupPairs2 : FMap 24
  UpdtCnt : Table Kw CInt
  SrchCnt : Table Kw CInt
  Access : Table Kw CInt
  LastIND : Table Kw CInt
  latestUpdatedCounter : Table Kw CInt

def Client.init : Client :=
  ⟨fun _ => none, fun _ => none, fun _ => none, fun _ => none, fun _ => none, ∅, ∅, ∅, ∅, ∅⟩

/-- Why a call stops: text without a number, signed overflow, a token that is
not there, a loop that does not end. -/
inductive Fault where
  | stoi
  | overflow
  | token
  | diverge
  deriving DecidableEq

/-- Calls, which keep the state when they fail. -/
abbrev Op := EStateM Fault Client

def checked (z : Int) : Op CInt := if h : InInt z then pure ⟨z, h⟩ else throw .overflow

def add (a : CInt) (k : Int) : Op CInt := checked (a.val + k)

def number (s : Str) : Op CInt :=
  match stoi s with
  | some z => pure z
  | none => throw .stoi

def tokenAt (tokens : List Str) (i : Nat) : Op Str :=
  match tokens[i]? with
  | some t => pure t
  | none => throw .token

def findUpdt (key : Bid 24) : Op Str := do return (← get).OMAP_updt.find key

def insertUpdt (key : Bid 24) (value : Str) : Op Unit :=
  modify fun h => { h with OMAP_updt := h.OMAP_updt.insert key value }

def findCnt (key : Bid 24) : Op Str := do return (← get).CNTs.find key

def insertCnt (key : Bid 24) (value : Str) : Op Unit :=
  modify fun h => { h with CNTs := h.CNTs.insert key value }

def writeBox (key : Bid 24) (value : Str) : Op Unit :=
  modify fun h => { h with ORAM_srch := h.ORAM_srch.insert key value }

/-- `incrementUpdtCnt`, `decrementUpdtCnt` and `incrementSrcCnt`: the old text, and
the number changed by `k`. An absent counter stays absent and reads as `""`. -/
def changeCnt (key : Bid 24) (k : Int) : Op Str := do
  match (← get).CNTs key with
  | none => pure []
  | some res =>
    let cnt ← number res
    let new ← add cnt k
    insertCnt key (intStr new.val)
    pure res

/-- The separator of slot text. -/
abbrev hash : Byte := 35

/-- `to_string(a) + "#" + to_string(b)`. -/
def hashText (a b : CInt) : Str := intStr a.val ++ hash :: intStr b.val

/-- `"-1"`, the slot of a removed pair. -/
abbrev minusOne : Str := [45, 49]

/-- `"@" + to_string(a)`. -/
def marker (a : CInt) : Str := 64 :: intStr a.val

/-! ## Insertion -/

/-- `updtCnt`, `srcCnt` and `lastUpdtCnt` before an insertion. -/
def insertCounters (keyword : Kw) : Op (CInt × CInt × CInt) := do
  let updtCntStr ← changeCnt (getBid keyword .UpdtCnt) 1
  if updtCntStr = [] then
    insertCnt (getBid keyword .UpdtCnt) (intStr 1)
    insertCnt (getBid keyword .latestUpdatedCounter) (intStr 0)
    insertCnt (getBid keyword .SrchCnt) (intStr 0)
    pure (zero, zero, zero)
  else
    let updtCnt ← number updtCntStr
    let srcCnt ← number (← findCnt (getBid keyword .SrchCnt))
    let lastUpdtCnt ← number (← findCnt (getBid keyword .latestUpdatedCounter))
    pure (updtCnt, srcCnt, lastUpdtCnt)

def accessCounter (keyword : Kw) : Op CInt := do
  let accessCntStr ← findCnt (getBid keyword .Access)
  if accessCntStr = [] then
    insertCnt (getBid keyword .Access) (intStr 1)
    pure one
  else number accessCntStr

def raiseAccess (keyword : Kw) (accessCnt acc_cnt : CInt) : Op Unit :=
  if acc_cnt > accessCnt then insertCnt (getBid keyword .Access) (intStr acc_cnt.val) else pure ()

/-- The access number of the next write to slot `updtCnt`. -/
def nextAccess (keyword : Kw) (updtCnt accessCnt : CInt) : Op CInt := do
  let resStr ← findUpdt (createBid 1 keyword updtCnt)
  if resStr = [] then pure one
  else
    let old ← number (← tokenAt (tokensOn hash resStr) 1)
    let acc_cnt ← add old 1
    raiseAccess keyword accessCnt acc_cnt
    pure acc_cnt

/-- Count a slot that is new since the last search, and mark where it starts. -/
def countNew (keyword : Kw) (updtCnt srcCnt acc_cnt lastUpdtCnt : CInt) : Op Unit :=
  if lastUpdtCnt < updtCnt then do
    let lastUpdtCnt ← add lastUpdtCnt 1
    insertCnt (getBid keyword .latestUpdatedCounter) (intStr lastUpdtCnt.val)
    if acc_cnt.val > 1 then
      writeBox (oramBid keyword updtCnt srcCnt one) (marker acc_cnt)
    else pure ()
  else pure ()

/-- `Horus::insert`. -/
def insert (keyword : Kw) (ind : CInt) : Op Unit := do
  let mapKey := createBid 0 keyword ind
  let resStr ← findUpdt mapKey
  if resStr = [] ∨ (tokensOn hash resStr)[0]? = some minusOne then
    let (updtCnt, srcCnt, lastUpdtCnt) ← insertCounters keyword
    let accessCnt ← accessCounter keyword
    let updtCnt ← add updtCnt 1
    let acc_cnt ← nextAccess keyword updtCnt accessCnt
    insertUpdt mapKey (hashText updtCnt acc_cnt)
    insertUpdt (createBid 1 keyword updtCnt) (hashText ind acc_cnt)
    writeBox (oramBid keyword updtCnt srcCnt acc_cnt) (intStr ind.val)
    countNew keyword updtCnt srcCnt acc_cnt lastUpdtCnt
    insertCnt (getBid keyword .LastIND) (intStr ind.val)
  else pure ()

/-! ## Removal -/

/-- Write the last item into the freed slot `updt_cnt`. -/
def moveLast (keyword : Kw) (updt_cnt acc_cnt srcCnt lastind : CInt) : Op Unit := do
  let acc_cnt ← add acc_cnt 1
  let accessCnt ← number (← findCnt (getBid keyword .Access))
  raiseAccess keyword accessCnt acc_cnt
  writeBox (oramBid keyword updt_cnt srcCnt acc_cnt) (intStr lastind.val)
  insertUpdt (createBid 0 keyword lastind) (hashText updt_cnt acc_cnt)
  insertUpdt (createBid 1 keyword updt_cnt) (hashText lastind acc_cnt)

/-- `Horus::remove`. -/
def remove (keyword : Kw) (ind : CInt) : Op Unit := do
  let mapKey := createBid 0 keyword ind
  let tokens := tokensOn hash (← findUpdt mapKey)
  let updt_cnt ← number (← tokenAt tokens 0)
  if updt_cnt.val > 0 then
    let acc_cnt ← number (← tokenAt tokens 1)
    let next ← add acc_cnt 1
    insertUpdt mapKey (minusOne ++ hash :: intStr next.val)
    let updtCnt ← add (← number (← changeCnt (getBid keyword .UpdtCnt) (-1))) (-1)
    if updtCnt.val > 0 then
      let srcCnt ← number (← findCnt (getBid keyword .SrchCnt))
      let lastind ← number (← findCnt (getBid keyword .LastIND))
      if updtCnt.val + 1 ≠ updt_cnt.val then moveLast keyword updt_cnt acc_cnt srcCnt lastind
      else pure ()
      let resStr ← findUpdt (createBid 1 keyword updtCnt)
      let lastind ← number (← tokenAt (tokensOn hash resStr) 0)
      insertCnt (getBid keyword .LastIND) (intStr lastind.val)
    else insertCnt (getBid keyword .LastIND) []
  else pure ()

/-! ## Search -/

/-- One index of the arrays `foundItem`, `left`, `right`, `curValue`, `lastAcc`
and `lastID`, with the slot it stands for. -/
structure Slot where
  index : CInt
  found : Bool
  left : CInt
  right : CInt
  curValue : CInt
  lastAcc : CInt
  lastID : Str

/-- The boxes a search will write: the first entry of a key stays. -/
def enqueue (q : FMap 24) (key : Bid 24) (value : Str) : FMap 24 :=
  if (q key).isSome then q else q.insert key value

/-- `(left + right) / 2`, and its floor and ceiling from doubles. -/
def half (l r : CInt) : Op CInt := do
  let sum ← add l r.val
  checked (sum.val.tdiv 2)

def floorHalf (l r : CInt) : Op CInt := do
  let sum ← add l r.val
  checked (sum.val / 2)

def ceilHalf (l r : CInt) : Op CInt := do
  let sum ← add l r.val
  checked ((sum.val + 1) / 2)

/-- A slot in the first run of the loop. -/
def firstStep (s : Slot) (id : Str) : Op Slot :=
  if id ≠ [] ∧ id[0]? = some 64 ∧ s.left.val = 1 then do
    let left ← number id.tail
    let cur ← half left s.right
    pure { s with left := left, curValue := cur, lastAcc := cur }
  else do
    let cur ← half s.left s.right
    pure { s with curValue := cur }

/-- A slot in a later run: the new slot and, when it is found, its item. -/
def laterStep (s : Slot) (id : Str) : Op (Slot × Option CInt) :=
  if id = [] ∨ s.left ≥ s.right then
    if s.right ≤ s.left then do
      let s := if s.lastID = [] then { s with lastID := id, lastAcc := s.curValue } else s
      let item ← number s.lastID
      pure ({ s with found := true }, some item)
    else if s.curValue = s.right then do
      let cur ← floorHalf s.left s.right
      pure ({ s with curValue := cur, right := cur }, none)
    else do
      let right := s.curValue
      let cur ← ceilHalf s.left right
      pure ({ s with curValue := cur, right := right }, none)
  else
    let s := { s with lastID := id, lastAcc := s.curValue }
    if s.curValue = s.left then do
      let cur ← ceilHalf s.left s.right
      pure ({ s with curValue := cur }, none)
    else do
      let left := s.curValue
      let cur ← floorHalf left s.right
      pure ({ s with left := left, curValue := cur }, none)

section

variable (keyword : Kw) (srcCnt next : CInt)

/-- What a found slot adds to the write queries under `srcCnt + 1`. -/
def enqueueSlot (q : FMap 24) (s : Slot) : FMap 24 :=
  let q := enqueue q (oramBid keyword s.index next s.lastAcc) s.lastID
  if s.lastAcc.val > 1 then
    enqueue q (oramBid keyword s.index next one) (marker s.lastAcc)
  else q

/-- One run of the loop over the slots not found yet. -/
def round (firstRun : Bool) : List Slot → FMap 24 → Op (List Slot × List CInt × FMap 24)
  | [], q => pure ([], [], q)
  | s :: ss, q => do
    if s.found then
      let (ss, result, q) ← round firstRun ss q
      pure (s :: ss, result, q)
    else
      let id := (← get).ORAM_srch.find (oramBid keyword s.index srcCnt s.curValue)
      if firstRun then
        let s ← firstStep s id
        let (ss, result, q) ← round firstRun ss q
        pure (s :: ss, result, q)
      else
        let (s, item) ← laterStep s id
        let q := if item.isSome then enqueueSlot keyword next q s else q
        let (ss, result, q) ← round firstRun ss q
        pure (s :: ss, item.toList ++ result, q)

def rounds : Nat → Bool → List Slot → FMap 24 → Op (List CInt × FMap 24)
  | 0, _, _, _ => throw .diverge
  | fuel + 1, firstRun, slots, q =>
    if slots.all Slot.found then pure ([], q)
    else do
      let (slots, found, q) ← round keyword srcCnt next firstRun slots q
      let (result, q) ← rounds fuel false slots q
      pure (found ++ result, q)

end

def initSlots (updtCnt accessCnt : CInt) : List Slot :=
  List.ofFn fun i : Fin updtCnt.val.toNat =>
    { index := ⟨i.val + 1, by have h1 := updtCnt.2.2; have h2 := i.2; constructor <;> omega⟩
      found := false
      left := one
      right := accessCnt
      curValue := one
      lastAcc := zero
      lastID := [] }

/-- Enough runs for slots with up to `accessCnt` accesses. -/
def loopFuel (accessCnt : CInt) : Nat := 2 * accessCnt.val.toNat + 3

/-- `Horus::search`. -/
def search (keyword : Kw) : Op (List CInt) := do
  let updtCnt ← number (← findCnt (getBid keyword .UpdtCnt))
  let accessCnt ← number (← findCnt (getBid keyword .Access))
  let srcCnt ← number (← changeCnt (getBid keyword .SrchCnt) 1)
  let next ← add srcCnt 1
  let (result, query) ← rounds keyword srcCnt next (loopFuel accessCnt) true
    (initSlots updtCnt accessCnt) fun _ => none
  modify fun h => { h with ORAM_srch := h.ORAM_srch.setupInsert query }
  insertCnt (getBid keyword .latestUpdatedCounter) (intStr result.length)
  pure result

/-! ## Setup -/

def beginSetup (h : Client) : Client :=
  { h with setupPairs1 := fun _ => none, setupPairs2 := fun _ => none }

/-- `operator[]` on a counter that starts at `d`. -/
def counter (m : Table Kw CInt) (keyword : Kw) (d : CInt) : CInt := (m.lookup keyword).getD d

/-- `Horus::setupInsert`. -/
def setupInsert (keyword : Kw) (ind : CInt) : Op Unit := do
  let h ← get
  let updtCnt ← add (counter h.UpdtCnt keyword zero) 1
  let srcCnt := counter h.SrchCnt keyword zero
  set { h with
    UpdtCnt := h.UpdtCnt.put keyword updtCnt
    Access := h.Access.put keyword (counter h.Access keyword one)
    SrchCnt := h.SrchCnt.put keyword srcCnt
    LastIND := h.LastIND.put keyword ind
    setupPairs1 := (h.setupPairs1.insert (createBid 0 keyword ind) (hashText updtCnt one)).insert
      (createBid 1 keyword updtCnt) (hashText ind one)
    setupPairs2 := h.setupPairs2.insert (oramBid keyword updtCnt srcCnt one) (intStr ind.val) }

/-- Write the last item into the freed slot during setup. -/
def setupMoveLast (keyword : Kw) (updt_cnt acc_cnt : CInt) : Op Unit := do
  let acc_cnt ← add acc_cnt 1
  let h ← get
  let access := counter h.Access keyword zero
  let srcCnt := counter h.SrchCnt keyword zero
  let lastind := counter h.LastIND keyword zero
  set { h with
    Access := h.Access.put keyword (if acc_cnt > access then acc_cnt else access)
    SrchCnt := h.SrchCnt.put keyword srcCnt
    LastIND := h.LastIND.put keyword lastind
    setupPairs1 := (h.setupPairs1.insert (createBid 0 keyword lastind)
      (hashText updt_cnt acc_cnt)).insert (createBid 1 keyword updt_cnt) (hashText lastind acc_cnt)
    setupPairs2 := h.setupPairs2.insert (oramBid keyword updt_cnt srcCnt acc_cnt)
      (intStr lastind.val) }

def readPairs1 (key : Bid 24) : Op Str := do
  let h ← get
  let resStr := h.setupPairs1.find key
  set { h with setupPairs1 := h.setupPairs1.insert key resStr }
  pure resStr

/-- `Horus::setupRemove`. -/
def setupRemove (keyword : Kw) (ind : CInt) : Op Unit := do
  let mapKey := createBid 0 keyword ind
  let tokens := tokensOn hash (← readPairs1 mapKey)
  let updt_cnt ← number (← tokenAt tokens 0)
  if updt_cnt.val > 0 then
    let acc_cnt ← number (← tokenAt tokens 1)
    let next ← add acc_cnt 1
    let updtCnt ← add (counter (← get).UpdtCnt keyword zero) (-1)
    modify fun h => { h with
      setupPairs1 := h.setupPairs1.insert mapKey (minusOne ++ hash :: intStr next.val)
      UpdtCnt := h.UpdtCnt.put keyword updtCnt }
    if updtCnt.val > 0 then
      if updtCnt.val + 1 ≠ updt_cnt.val then setupMoveLast keyword updt_cnt acc_cnt else pure ()
      let resStr ← readPairs1 (createBid 1 keyword updtCnt)
      let lastind ← number (← tokenAt (tokensOn hash resStr) 0)
      modify fun h => { h with LastIND := h.LastIND.put keyword lastind }
    else modify fun h => { h with LastIND := h.LastIND.del keyword }
  else pure ()

/-- Add the counters of one type to the pairs for `CNTs`. -/
def loadCnt (type : Cnt) (m : Table Kw CInt) (pairs : FMap 24) : FMap 24 :=
  m.pairs.foldl (fun pairs item => pairs.insert (getBid item.1 type) (intStr item.2.val)) pairs

/-- The 500 insertions of the pair `(Bid(1), "TEST")`. -/
def testInserts (m : FMap 24) : FMap 24 :=
  (List.range 500).foldl (fun m _ => m.insert (Bid.ofValue 1) [84, 69, 83, 84]) m

def endSetup (h : Client) : Client :=
  let pairs : FMap 24 := loadCnt .UpdtCnt h.UpdtCnt fun _ => none
  let pairs := loadCnt .SrchCnt h.SrchCnt pairs
  let pairs := loadCnt .Access h.Access pairs
  let pairs := loadCnt .LastIND h.LastIND pairs
  let pairs := loadCnt .latestUpdatedCounter h.latestUpdatedCounter pairs
  { h with
    OMAP_updt := testInserts (h.OMAP_updt.setupInsert h.setupPairs1)
    ORAM_srch := h.ORAM_srch.setupInsert h.setupPairs2
    CNTs := testInserts (h.CNTs.setupInsert pairs)
    UpdtCnt := ∅
    SrchCnt := ∅
    Access := ∅
    LastIND := ∅
    latestUpdatedCounter := ∅ }

/-! ## Calls -/

inductive Call where
  | insert (keyword : Kw) (ind : CInt)
  | remove (keyword : Kw) (ind : CInt)
  | search (keyword : Kw)
  deriving DecidableEq

def finished {α : Type} (op : Op α) (h : Client) : Option (α × Client) :=
  match op h with
  | .ok a h => some (a, h)
  | .error _ _ => none

def step (h : Client) : Call → Option Client
  | .insert keyword ind => (finished (insert keyword ind) h).map Prod.snd
  | .remove keyword ind => (finished (remove keyword ind) h).map Prod.snd
  | .search keyword => (finished (search keyword) h).map Prod.snd

/-- One call of the setup phase; a search is none of its calls. -/
def setupStep (h : Client) : Call → Option Client
  | .insert keyword ind => (finished (setupInsert keyword ind) h).map Prod.snd
  | .remove keyword ind => (finished (setupRemove keyword ind) h).map Prod.snd
  | .search _ => none

end SmallClientSSE.Horus
