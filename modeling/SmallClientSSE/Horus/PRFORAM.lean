import SmallClientSSE.Omap.Bulk
import SmallClientSSE.Omap.FiniteMap

/-!
# PRFORAM

Horus keeps its search results in an ORAM whose leaves are computed from the keys.
An access reads the path of a leaf and writes it back; a batch reads all its paths
before it writes any. `none` is a thrown exception or an access outside the tree.
The buckets are modelled in the clear: `AES` only encrypts them.
-/

namespace SmallClientSSE.Prforam

open Lib Omap

/-- A block; `ID_SIZE` is 24 here. -/
structure Box where
  key : Bid 24
  value : Buf 16
  pos : Int
  deriving DecidableEq

/-- A block of zero bytes. -/
def Box.dummy : Box := ⟨Bid.null, Buf.zero, 0⟩

/-- Boxes as blocks of an ORAM; the stash is a `std::map`, visited by key. -/
def boxes : Blocks (Bid 24) Box where
  key := Box.key
  pos := Box.pos
  dummy := Box.dummy
  real id := !id.isZero
  order _ l := l.insertionSort fun a b => a.1 ≤ b.1
  real_dummy := by decide
  perm _ _ := List.perm_insertionSort _ _

/-- The fields of the class that its methods use. -/
structure PRFORAM where
  depth : Nat
  stash : Table (Bid 24) Box
  store : Int → List Box
  emptyNodes : Nat
  viewmap : List Int

def init (maxSize : Nat) : PRFORAM where
  depth := depthOf maxSize
  stash := ∅
  store _ := List.replicate Z Box.dummy
  emptyNodes := blockCount (depthOf maxSize)
  viewmap := []

def work (o : PRFORAM) : Work (Bid 24) Box := ⟨o.stash, o.store, o.viewmap, 0⟩

def withWork (o : PRFORAM) (w : Work (Bid 24) Box) : PRFORAM :=
  { o with
    stash := w.stash
    store := w.store
    viewmap := w.view }

def fetchPath (o : PRFORAM) (leaf : Int) (batchRead : Bool) : Option PRFORAM :=
  (Omap.fetchPath boxes o.depth batchRead leaf (work o)).map (withWork o)

def writeBack (o : PRFORAM) (leafs : List Int) : Option PRFORAM :=
  (writePaths boxes o.depth leafs (work { o with viewmap := [] })).map (withWork o)

def writeData (o : PRFORAM) (bid : Bid 24) (box : Box) : Option PRFORAM :=
  if o.emptyNodes > 0 then
    some { o with
      stash := o.stash.put bid box
      emptyNodes := o.emptyNodes - 1 }
  else none

/-- The text a reader gets for a key. -/
def textAt (o : PRFORAM) (bid : Bid 24) : Str :=
  match o.stash.lookup bid with
  | some box => box.value.cstr
  | none => []

def newBox (bid : Bid 24) (value : Str) (pos : Int) : Box := ⟨bid, Buf.zero.copyStr value, pos⟩

/-- `WriteBox`, with the writing `Access`. -/
def writeBox (o : PRFORAM) (bid : Bid 24) (value : Str) (pos : Int) : Option PRFORAM :=
  if bid.isZero then none
  else do
    let o ← fetchPath o pos false
    let o ← writeData o bid (newBox bid value pos)
    writeBack o [pos]

/-- Insertion into a `std::set`. -/
def insertLeaf (leaf : Int) (leafs : List Int) : List Int :=
  if leaf ∈ leafs then leafs else leafs.orderedInsert (· ≤ ·) leaf

/-- What an item of a batch reads before it is handled: its path, unless
`stash.count` finds a box whose key is the leaf number. -/
def reach (leaf : Int) (r : PRFORAM × List Int) : Option (PRFORAM × List Int) :=
  if Bid.ofValue leaf ∈ r.1.stash then some r
  else do
    let o ← fetchPath r.1 leaf true
    pure (o, insertLeaf leaf r.2)

/-- One item of `batchRead`. -/
def readItem (r : (PRFORAM × List Int) × List Str) (item : Bid 24 × Int) :
    Option ((PRFORAM × List Int) × List Str) := do
  let r' ← reach item.2 r.1
  let res := if Bid.ofValue item.2 ∈ r.1.1.stash then textAt r'.1 (Bid.ofValue item.2)
    else textAt r'.1 item.1
  pure (r', r.2 ++ [res])

def batchRead (o : PRFORAM) (batchQuery : List (Bid 24 × Int)) : Option (List Str × PRFORAM) := do
  let r ← run readItem (({ o with viewmap := [] }, []), []) batchQuery
  let o ← writeBack r.1.1 r.1.2
  pure (r.2, o)

/-- One item of `batchWrite`. -/
def writeItem (r : PRFORAM × List Int) (item : (Bid 24 × Str) × (Bid 24 × Int)) :
    Option (PRFORAM × List Int) := do
  let r ← reach item.2.2 r
  let o ← writeData r.1 item.1.1 (newBox item.1.1 item.1.2 item.2.2)
  pure (o, r.2)

def batchWrite (o : PRFORAM) (values : List (Bid 24 × Str)) (poses : List (Bid 24 × Int)) :
    Option PRFORAM := do
  let r ← run writeItem ({ o with viewmap := [] }, []) (values.zip poses)
  writeBack r.1 r.2

def setupInsert (S : PosSort boxes) (o : PRFORAM) (values : List (Bid 24 × Str))
    (poses : List (Bid 24 × Int)) : Option PRFORAM :=
  let nodes := (values.zip poses).map fun item => newBox item.1.1 item.1.2 item.2.2
  (Omap.setupInsert boxes o.depth S nodes (work { o with viewmap := [] })).map (withWork o)

/-! ## Calls -/

/-- The calls of a user who computes the leaf of a key with `pos`. -/
inductive Call where
  | writeBox (bid : Bid 24) (value : Str)
  | batchWrite (values : List (Bid 24 × Str))
  | batchRead (ids : List (Bid 24))

section

variable (pos : Bid 24 → Int)

def posesOf (values : List (Bid 24 × Str)) : List (Bid 24 × Int) :=
  values.map fun e => (e.1, pos e.1)

/-- One call; what it returns is added to the answers. -/
def step (r : List (List Str) × PRFORAM) : Call → Option (List (List Str) × PRFORAM)
  | .writeBox bid value => (writeBox r.2 bid value (pos bid)).map fun o => (r.1, o)
  | .batchWrite values => (batchWrite r.2 values (posesOf pos values)).map fun o => (r.1, o)
  | .batchRead ids =>
    (batchRead r.2 (ids.map fun id => (id, pos id))).map fun a => (r.1 ++ [a.1], a.2)

def start (S : PosSort boxes) (maxSize : Nat) : Option (List (Bid 24 × Str)) → Option PRFORAM
  | none => some (init maxSize)
  | some values => setupInsert S (init maxSize) values (posesOf pos values)

def runCalls (S : PosSort boxes) (maxSize : Nat) (setup : Option (List (Bid 24 × Str)))
    (calls : List Call) : Option (List (List Str) × PRFORAM) := do
  let o ← start pos S maxSize setup
  run (step pos) ([], o) calls

end

def Call.writes : Call → List (Bid 24 × Str)
  | .writeBox bid value => [(bid, value)]
  | .batchWrite values => values
  | .batchRead _ => []

def storeAll (m : FMap 24) (values : List (Bid 24 × Str)) : FMap 24 :=
  values.foldl (fun m e => m.insert e.1 e.2) m

def answers : FMap 24 → List Call → List (List Str)
  | _, [] => []
  | m, .batchRead ids :: cs => ids.map m.find :: answers m cs
  | m, c :: cs => answers (storeAll m c.writes) cs

end SmallClientSSE.Prforam
