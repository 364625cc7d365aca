import SmallClientSSE.Omap.Bulk

/-!
# The ORAM of an OMAP

`ORAM.cpp`: nodes live in a bucket on the path of their leaf or in the cache. An
operation reads the paths it needs into the cache, changes nodes there, and ends
with `finilize`: fake reads, new leaves for the nodes touched, and the eviction
of the paths read. A pointer to a node is its key, since the cache has one object
for each key. `none` is an exception, a null pointer that is followed, or an
access outside the tree. The buckets are modelled in the clear: `AES` only
encrypts them.
-/

namespace SmallClientSSE.Omap

open Lib

/-- `Node`. -/
structure Node (n : Nat) where
  key : Bid n
  value : Buf 16
  pos : Int
  leftID : Bid n
  leftPos : Int
  rightID : Bid n
  rightPos : Int
  height : Nat
  deriving DecidableEq

def Node.dummy (n : Nat) : Node n := ⟨Bid.null, Buf.zero, 0, Bid.null, 0, Bid.null, 0, 0⟩

/-- `std::copy` of a text to the front of `value`, without a check of its length. The bytes
of `pos` follow those of `value`, and `leftID` comes after four bytes of padding and its table
pointer. -/
def Node.copyValue (newval : Str) (nd : Node n) : Node n :=
  let memory : Buf 20 := (Buf.zero.putInt 16 nd.pos).copyStr newval
  { nd with
    value := fun i => memory ⟨i.val, by omega⟩
    pos := if newval.length ≤ 16 then nd.pos else (memory.getInt 16).val
    leftID := ⟨fun i => newval.getD (32 + i.val) (nd.leftID.id i)⟩ }

theorem link_kept {w : Str} {b : Bid n} (hw : w.length ≤ 32) :
    (⟨fun i => w.getD (32 + i.val) (b.id i)⟩ : Bid n) = b :=
  congrArg Bid.mk (funext fun _ => List.getD_eq_default _ _ (by omega))

/-- A text that fits leaves `pos` alone, and what is not the text is padding. -/
theorem copyValue_padded {w : Str} {nd : Node n} (hw : w.length ≤ 16) :
    nd.copyValue w = { nd with value := Buf.zero.copyStr w } := by
  have hvalue : (fun i : Fin 16 => ((Buf.zero.putInt 16 nd.pos).copyStr w : Buf 20)
      ⟨i.val, by omega⟩) = Buf.copyStr w (Buf.zero : Buf 16) := by
    funext i
    have hi := i.isLt
    simp only [Buf.copyStr]
    split
    · rfl
    · have hat := Buf.putInt_at 16 nd.pos (Buf.zero : Buf 20) i.val (by omega)
      rw [Buf.at'_of_lt _ (show i.val < 20 by omega), if_neg (by omega)] at hat
      rw [hat, Buf.at'_of_lt _ (show i.val < 20 by omega)]
      rfl
  simp only [Node.copyValue, hvalue, link_kept (hw.trans (by decide)), if_pos hw]

/-- What an ORAM takes from outside: the leaves drawn, the order in which the
cache is visited, and the keys that are not given up. -/
structure Env (n : Nat) where
  tape : Nat → Int
  order : HashOrder
  live : Bid n → Bool

/-- The fields of the class that its methods use; `time` counts the iterations
over the cache and `draws` the random leaves. -/
structure ORAM (n : Nat) where
  depth : Nat
  maxHeightOfAVLTree : Nat
  cache : Table (Bid n) (Node n)
  store : Int → List (Node n)
  leafList : List Int
  readviewmap : List Int
  writeviewmap : List Int
  modified : List (Bid n)
  readCnt : Nat
  batchWrite : Bool
  time : Nat
  draws : Nat

variable {n : Nat}

theorem isZero_null : (Bid.null : Bid n).isZero = true := by
  have h : ∀ i, ((Bid.null : Bid n).id).at' i = 0 := fun i => by
    simp [Bid.null, Bid.ofValue, Buf.at', Buf.leByte]
  simp [Bid.isZero, h]

namespace ORAM

def init (depth maxHeight : Nat) : ORAM n where
  depth := depth
  maxHeightOfAVLTree := maxHeight
  cache := ∅
  store _ := List.replicate Z (Node.dummy n)
  leafList := []
  readviewmap := []
  writeviewmap := []
  modified := []
  readCnt := 0
  batchWrite := false
  time := 0
  draws := 0

section

variable (E : Env n)

/-- A key that is neither `0` nor given up. -/
def real (k : Bid n) : Bool := !k.isZero && E.live k

def nodes : Blocks (Bid n) (Node n) where
  key := Node.key
  pos := Node.pos
  dummy := Node.dummy n
  real := real E
  order t l := E.order.order t 0 l
  real_dummy := by simp [real, Node.dummy, isZero_null]
  perm t l := E.order.perm t 0 l

def randomPath (o : ORAM n) : Int × ORAM n := (E.tape o.draws, { o with draws := o.draws + 1 })

def fetchPath (leaf : Int) (o : ORAM n) : Option (ORAM n) :=
  (Omap.fetchPath (nodes E) o.depth true leaf ⟨o.cache, o.store, o.readviewmap, o.time⟩).map
    fun w => { o with
      cache := w.stash
      readviewmap := w.view
      readCnt := o.readCnt + 1 }

/-- `leafList.push_back` of a new leaf. -/
def addLeaf (leaf : Int) (o : ORAM n) : ORAM n :=
  if leaf ∈ o.leafList then o else { o with leafList := o.leafList ++ [leaf] }

/-- `modified.insert`. -/
def modify (bid : Bid n) (o : ORAM n) : ORAM n :=
  if bid ∈ o.modified then o else { o with modified := bid :: o.modified }

/-- The reading `Access`; `false` is a null pointer. -/
def accessRead (bid : Bid n) (lastLeaf newLeaf : Int) (o : ORAM n) : Option (ORAM n × Bool) := do
  let o ← fetchPath E lastLeaf o
  match o.cache.lookup bid with
  | none => pure (o, false)
  | some node =>
    let o := { o with cache := (o.cache.del bid).put bid { node with pos := newLeaf } }
    pure (addLeaf lastLeaf o, true)

def accessWrite (bid : Bid n) (node : Node n) (o : ORAM n) : Option (ORAM n) := do
  let o ← if o.batchWrite then pure o else fetchPath E node.pos o
  pure (addLeaf node.pos { o with cache := o.cache.put bid node })

def readNodeFromCache (bid : Bid n) (o : ORAM n) : Option (Node n) :=
  if bid.isZero then none else o.cache.lookup bid

/-- `ReadNode`; `false` is a null pointer. -/
def readNode (bid : Bid n) (lastLeaf newLeaf : Int) (o : ORAM n) : Option (ORAM n × Bool) :=
  if bid.isZero then some (o, false)
  else if bid ∉ o.cache ∨ lastLeaf ∉ o.leafList then do
    let (o, found) ← accessRead E bid lastLeaf newLeaf o
    pure (if found then modify bid o else o, found)
  else do
    let node ← o.cache.lookup bid
    let o := modify bid o
    pure ({ o with cache := o.cache.put bid { node with pos := newLeaf } }, true)

def writeNode (bid : Bid n) (node : Node n) (o : ORAM n) : Option (Int × ORAM n) :=
  if bid.isZero then none
  else if bid ∉ o.cache then do
    let o ← accessWrite E bid node (modify bid o)
    pure (node.pos, o)
  else some (node.pos, modify bid o)

def start (isBatchWrite : Bool) (o : ORAM n) : ORAM n :=
  { o with
    batchWrite := isBatchWrite
    writeviewmap := []
    readviewmap := []
    readCnt := 0 }

/-- The reads an operation is padded to: `1.45 * depth` or `4.35 * depth`, rounded up. -/
def padTo (find : Bool) (depth : Nat) : Nat :=
  if find then (29 * depth + 19) / 20 else (87 * depth + 19) / 20

def fakeRead (o : ORAM n) : Option (ORAM n) :=
  let (rnd, o) := randomPath E o
  fetchPath E rnd (addLeaf rnd o)

/-- The fake reads of `finilize`. -/
def pad (find : Bool) (o : ORAM n) : Option (ORAM n) :=
  if o.batchWrite then some o
  else run (fun o _ => fakeRead E o) o (List.range (padTo find o.depth - o.readCnt))

/-- The position of a child, from the cache if it is there. -/
def childPos (o : ORAM n) (child : Bid n) (pos : Int) : Int :=
  if child.isZero then pos
  else match o.cache.lookup child with
    | none => pos
    | some node => node.pos

/-- A node of height `i` gets a new leaf if it was touched, and the leaves of its
children. -/
def refreshNode (i : Nat) (o : ORAM n) (k : Bid n) : ORAM n :=
  match o.cache.lookup k with
  | none => o
  | some tmp =>
    if tmp.height = i then
      let (pos, o) := if tmp.key ∈ o.modified then randomPath E o else (tmp.pos, o)
      let o := { o with cache := o.cache.put k { tmp with pos := pos } }
      { o with
        cache := o.cache.put k { tmp with
          pos := pos
          leftPos := childPos o tmp.leftID tmp.leftPos
          rightPos := childPos o tmp.rightID tmp.rightPos } }
    else o

def refreshHeight (o : ORAM n) (i : Nat) : ORAM n :=
  ((E.order.order o.time 0 o.cache.pairs).map Prod.fst).foldl (refreshNode E i)
    { o with time := o.time + 1 }

/-- The position updates of `finilize`. -/
def refresh (o : ORAM n) : ORAM n :=
  (List.range' 1 o.maxHeightOfAVLTree).foldl (refreshHeight E) o

/-- The eviction of `finilize`. -/
def evict (o : ORAM n) : Option (ORAM n) :=
  (writePaths (nodes E) o.depth o.leafList ⟨o.cache, o.store, o.writeviewmap, o.time⟩).map
    fun w => { o with
      cache := w.stash
      store := w.store
      writeviewmap := w.view
      time := w.time
      leafList := []
      modified := [] }

/-- `finilize`; a root that is not in the cache would leave a null pointer there,
and is a failure. -/
def finilize (find : Bool) (rootKey : Bid n) (o : ORAM n) : Option (Int × ORAM n) := do
  let o ← pad E find o
  let o := refresh E o
  let root ← o.cache.lookup rootKey
  let o ← evict E o
  pure (root.pos, o)

def setupInsert (S : PosSort (nodes E)) (setupNodes : List (Node n)) (o : ORAM n) :
    Option (ORAM n) :=
  (Omap.setupInsert (nodes E) o.depth S setupNodes ⟨o.cache, o.store, o.writeviewmap, o.time⟩).map
    fun w => { o with
      cache := w.stash
      store := w.store
      time := w.time }

end

def setNode (k : Bid n) (f : Node n → Node n) (o : ORAM n) : Option (ORAM n) := do
  let node ← o.cache.lookup k
  pure { o with cache := o.cache.put k (f node) }

end ORAM

end SmallClientSSE.Omap
