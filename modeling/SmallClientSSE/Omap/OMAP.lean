import SmallClientSSE.Omap.ORAM

/-!
# The AVL tree over an ORAM

`AVLTree.cpp` and `OMAP.cpp`, as the scheme folders share them. The recursions
follow keys and leaves from node to node; `fuel` bounds their depth. The arguments
of `max` are evaluated from left to right, an order C++ leaves open.
-/

namespace SmallClientSSE.Omap

open Lib ORAM

variable {n : Nat} (E : Env n)

namespace AVLTree

def newNode (key : Bid n) (value : Str) (o : ORAM n) : Node n × ORAM n :=
  let (pos, o) := randomPath E o
  (⟨key, Buf.zero.copyStr value, pos, Bid.null, -1, Bid.null, -1, 1⟩, o)

def height (key : Bid n) (leaf : Int) (o : ORAM n) : Option (Nat × ORAM n) :=
  if key.isZero then some (0, o)
  else do
    let (o, found) ← readNode E key leaf leaf o
    guard found
    let node ← o.cache.lookup key
    pure (node.height, o)

/-- The height from the children, stored in the node, and `WriteNode`. -/
def updateHeight (k : Bid n) (o : ORAM n) : Option (ORAM n) := do
  let node ← o.cache.lookup k
  let (l, o) ← height E node.leftID node.leftPos o
  let node ← o.cache.lookup k
  let (r, o) ← height E node.rightID node.rightPos o
  setNode k (fun node => { node with height := max l r + 1 }) o

/-- `WriteNode(node->key, node)` of a cached node. -/
def rewrite (k : Bid n) (o : ORAM n) : Option (ORAM n) := do
  let node ← o.cache.lookup k
  let (_, o) ← writeNode E node.key node o
  pure o

/-- The key and leaf of `T2`: a child, or the null node. -/
def grandchild (k : Bid n) (o : ORAM n) : Option (Bid n × Int × ORAM n) :=
  if k.isZero then
    let (T2, o) := newNode E Bid.null [] o
    some (T2.key, T2.pos, o)
  else do
    let T2 ← readNodeFromCache k o
    pure (T2.key, T2.pos, o)

/-- `rightRotate`; the result points to the new root. -/
def rightRotate (y : Bid n) (o : ORAM n) : Option (Bid n × ORAM n) := do
  let ynode ← o.cache.lookup y
  let xnode ← readNodeFromCache ynode.leftID o
  let x := ynode.leftID
  let (T2key, T2pos, o) ← grandchild E xnode.rightID o
  let o ← setNode x (fun node => { node with
    rightID := ynode.key
    rightPos := ynode.pos }) o
  let o ← setNode y (fun node => { node with
    leftID := T2key
    leftPos := T2pos }) o
  let o ← updateHeight E y o
  let o ← rewrite E y o
  let o ← updateHeight E x o
  let o ← rewrite E x o
  pure (x, o)

def leftRotate (x : Bid n) (o : ORAM n) : Option (Bid n × ORAM n) := do
  let xnode ← o.cache.lookup x
  let ynode ← readNodeFromCache xnode.rightID o
  let y := xnode.rightID
  let (T2key, T2pos, o) ← grandchild E ynode.leftID o
  let o ← setNode y (fun node => { node with
    leftID := xnode.key
    leftPos := xnode.pos }) o
  let o ← setNode x (fun node => { node with
    rightID := T2key
    rightPos := T2pos }) o
  let o ← updateHeight E x o
  let o ← rewrite E x o
  let o ← updateHeight E y o
  let o ← rewrite E y o
  pure (y, o)

def getBalance (k : Bid n) (o : ORAM n) : Option (Int × ORAM n) := do
  let node ← o.cache.lookup k
  let (l, o) ← height E node.leftID node.leftPos o
  let node ← o.cache.lookup k
  let (r, o) ← height E node.rightID node.rightPos o
  pure ((l : Int) - r, o)

def result (k : Bid n) (o : ORAM n) : Option (Bid n × Int × ORAM n) := do
  let node ← o.cache.lookup k
  pure (node.key, node.pos, o)

/-- `insert` after the recursive call: the height of `node`, its balance, and the
four cases. -/
def rebalance (node : Bid n) (pos : Int) (key : Bid n) (o : ORAM n) :
    Option (Bid n × Int × ORAM n) := do
  let o ← updateHeight E node o
  let (balance, o) ← getBalance E node o
  let nd ← o.cache.lookup node
  if balance > 1 then
    let left ← readNodeFromCache nd.leftID o
    if key < left.key then
      let (res, o) ← rightRotate E node o
      result res o
    else if left.key < key then
      let (res, o) ← leftRotate E nd.leftID o
      let resnode ← o.cache.lookup res
      let o ← setNode node (fun node => { node with
        leftID := resnode.key
        leftPos := resnode.pos }) o
      let o ← rewrite E node o
      let (res2, o) ← rightRotate E node o
      result res2 o
    else
      let o ← rewrite E node o
      pure (nd.key, pos, o)
  else if balance < -1 then
    let right ← readNodeFromCache nd.rightID o
    if right.key < key then
      let (res, o) ← leftRotate E node o
      result res o
    else if key < right.key then
      let (res, o) ← rightRotate E nd.rightID o
      let resnode ← o.cache.lookup res
      let o ← setNode node (fun node => { node with
        rightID := resnode.key
        rightPos := resnode.pos }) o
      let o ← rewrite E node o
      let (res2, o) ← leftRotate E node o
      result res2 o
    else
      let o ← rewrite E node o
      pure (nd.key, pos, o)
  else
    let o ← rewrite E node o
    pure (nd.key, pos, o)

/-- `insert`: the key of the new root and what `pos` is set to. -/
def insert : Nat → Bid n → Int → Bid n → Str → ORAM n → Option (Bid n × Int × ORAM n)
  | 0, _, _, _, _, _ => none
  | fuel + 1, rootKey, pos, key, value, o =>
    if real E rootKey then do
      let (o, found) ← readNode E rootKey pos pos o
      guard found
      let node ← o.cache.lookup rootKey
      if key < node.key then
        let (leftID, leftPos, o) ← insert fuel node.leftID node.leftPos key value o
        let o ← setNode rootKey (fun node => { node with
          leftID := leftID
          leftPos := leftPos }) o
        rebalance E rootKey pos key o
      else if node.key < key then
        let (rightID, rightPos, o) ← insert fuel node.rightID node.rightPos key value o
        let o ← setNode rootKey (fun node => { node with
          rightID := rightID
          rightPos := rightPos }) o
        rebalance E rootKey pos key o
      else
        let o ← setNode rootKey (Node.copyValue value) o
        let o ← rewrite E rootKey o
        pure (node.key, pos, o)
    else do
      let (nnode, o) := newNode E key value o
      let (pos, o) ← writeNode E key nnode o
      pure (nnode.key, pos, o)

/-- `search`; the result points to the node, if there is one. -/
def search : Nat → Bid n → Int → Bid n → ORAM n → Option (Option (Bid n) × ORAM n)
  | 0, _, _, _, _ => none
  | fuel + 1, head, headPos, key, o =>
    if real E head then do
      let (o, found) ← readNode E head headPos headPos o
      guard found
      let node ← o.cache.lookup head
      if key < node.key then
        let (o, found) ← readNode E node.leftID node.leftPos node.leftPos o
        if found then
          let child ← o.cache.lookup node.leftID
          search fuel child.key child.pos key o
        else pure (none, o)
      else if node.key < key then
        let (o, found) ← readNode E node.rightID node.rightPos node.rightPos o
        if found then
          let child ← o.cache.lookup node.rightID
          search fuel child.key child.pos key o
        else pure (none, o)
      else pure (some head, o)
    else some (none, o)

end AVLTree

open AVLTree

structure OMAP (n : Nat) where
  rootKey : Bid n
  rootPos : Int
  oram : ORAM n

namespace OMAP

/-- The constructor; `rootPos` is not set before it is needed. -/
def init (depth maxHeight : Nat) : OMAP n := ⟨Bid.null, 0, ORAM.init depth maxHeight⟩

def find (fuel : Nat) (key : Bid n) (m : OMAP n) : Option (Str × OMAP n) :=
  if m.rootKey.isZero then some ([], m)
  else do
    let o := start false m.oram
    let (resNode, o) ← search E fuel m.rootKey m.rootPos key o
    let res ← match resNode with
      | none => some []
      | some k => (o.cache.lookup k).map fun node => node.value.cstr
    let (rootPos, o) ← finilize E true m.rootKey o
    pure (res, ⟨m.rootKey, rootPos, o⟩)

/-- One insertion of an operation; an empty tree passes the key `0`. -/
def insertOne (fuel : Nat) (key : Bid n) (value : Str) (m : OMAP n) : Option (OMAP n) := do
  let root := if m.rootKey.isZero then Bid.null else m.rootKey
  let (rootKey, rootPos, o) ← insert E fuel root m.rootPos key value m.oram
  pure ⟨rootKey, rootPos, o⟩

def finish (find : Bool) (m : OMAP n) : Option (OMAP n) := do
  let (rootPos, o) ← finilize E find m.rootKey m.oram
  pure ⟨m.rootKey, rootPos, o⟩

def insert (fuel : Nat) (key : Bid n) (value : Str) (m : OMAP n) : Option (OMAP n) := do
  let m ← insertOne E fuel key value { m with oram := start false m.oram }
  finish E false m

end OMAP

end SmallClientSSE.Omap
