import SmallClientSSE.Lib.Run
import SmallClientSSE.Qos.Server

/-!
# The QOS client with local maps

`LOcnt` keeps `src_cnt-a_w` for every keyword, `LOdel` the position of every pair
and `LOstate` the colour of the nodes that were marked. An insertion stores its
id at the next position. A removal colours and marks the topmost node that is
full of removed positions now; when there is none it sends a dummy. A search
decodes what the server finds and stores it again under the next `src_cnt`.
-/

namespace SmallClientSSE.Qos

open Lib

/-- What the code takes from outside: AES, the PRF, and the entries that hide
removals without a mark, made from `rand()` and whatever the buffer holds. -/
structure Env where
  aes : Aes
  derive : Block → Block
  dummy : Nat → Block × Block

/-- The keys of the client. -/
def IKey : Block := fun _ => 1

def DKey : Block := fun _ => 2

def secretKey : Block := fun _ => 3

/-- The client's maps and its server; `rands` counts the dummies sent. -/
structure Client where
  server : Server
  height : Nat
  LOcnt : Str → Option Str
  LOstate : Str → Option Str
  LOdel : Str → Option Str
  rands : Nat

def Client.init (N : CInt) : Client :=
  ⟨Server.init N, heightOf N, fun _ => none, fun _ => none, fun _ => none, 0⟩

/-- `keyword + "-" + to_string(n)`. -/
def mapKey (keyword : Str) (n : Int) : Str := keyword ++ dash :: intStr n

def bitwiseXOR (input1 input2 : Block) : Block := fun i => input1 i ^^^ input2 i

section

variable (E : Env)

def getAESRandomValue (keyword : Str) (src_cnt : Int) : Block :=
  E.derive ((Buf.zero.copyStr keyword).putInt 12 src_cnt)

/-- The address of a node under one of the keys. -/
def address (key : Block) (keyword : Str) (src_cnt index : Int) : Block :=
  E.aes.encodeBlock (atNode (bitwiseXOR key (getAESRandomValue E keyword src_cnt)) index) none

/-- The cipher of an id. -/
def cipherOf (keyword : Str) (id : CInt) : Block :=
  E.aes.encodeBlock ((Buf.zero.copyStr keyword).putInt 11 id.val) (some secretKey)

/-- The value of a mark. -/
def markValue : Block := E.aes.encode [48] none

/-- `src_cnt` and `a_w` of an insertion, from the text stored. -/
def nextCounters (result : Str) : Option (Int × Int) := do
  let (src_cnt, a_w) ← if result ≠ [] then parsePair result else some (0, -1)
  let a_w ← int (a_w + 1)
  pure (src_cnt, a_w)

/-- `Client::insert`. -/
def insert (c : Client) (keyword : Str) (id : CInt) : Option Client := do
  let (src_cnt, a_w) ← nextCounters ((c.LOcnt keyword).getD [])
  let nodeIndex ← getNodeOnPath c.height a_w c.height
  pure { c with
    LOcnt := Function.update c.LOcnt keyword (some (pairStr src_cnt a_w))
    LOdel := Function.update c.LOdel (mapKey keyword id.val) (some (intStr a_w))
    server := c.server.insert (address E IKey keyword src_cnt nodeIndex) (cipherOf E keyword id) }

/-! ## Removal -/

/-- `treeNodes`: the nodes from the leaf of `pos` up to the root. -/
def treeNodes (height : Nat) (pos : Int) : Option (List Int) :=
  (List.range height).mapM fun i : Nat => getNodeOnPath height pos ((height : Int) - (i : Int))

/-- The sibling of a node; the root has none. -/
def sibling (index : Int) : Option Int :=
  if index % 2 = 0 ∧ index ≠ 0 then some (index - 1)
  else if index % 2 ≠ 0 ∧ index ≠ 0 then some (index + 1)
  else none

def colorOf (c : Client) (keyword : Str) (index : Int) : Option Int :=
  let colorStr := (c.LOstate (mapKey keyword index)).getD []
  (stoi (if colorStr = [] then [48] else colorStr)).map Subtype.val

/-- `finalNodesColor` after a colour, from the colours of the siblings. -/
def finalColors : Int → List Int → List Int
  | _, [] => []
  | color, s :: ss =>
    let next := if color = 2 ∧ s = 2 then 2 else 0
    next :: finalColors next ss

/-- The node that changes its colour, from the root down: nodes with their old
and new colours, leaf first. -/
def changed (nodes : List (Int × Int × Int)) : Option Int :=
  (nodes.reverse.find? fun e => e.2.2 ≠ e.2.1 ∧ e.2.2 = 2).map Prod.fst

/-- `Client::remove`. -/
def remove (c : Client) (keyword : Str) (id : CInt) : Option Client := do
  let src_cnt ← (splitData ((c.LOcnt keyword).getD []) dash)[0]? >>= stoi
  let src_cnt := src_cnt.val
  let pos ← stoi ((c.LOdel (mapKey keyword id.val)).getD [])
  let treeNodes ← treeNodes c.height pos.val
  let nodesColor ← treeNodes.mapM (colorOf c keyword)
  let siblingsColor ← (treeNodes.filterMap sibling).mapM (colorOf c keyword)
  let finalNodesColor := 2 :: finalColors 2 siblingsColor
  match changed (treeNodes.zip (nodesColor.zip finalNodesColor)) with
  | some node =>
    pure { c with
      LOstate := Function.update c.LOstate (mapKey keyword node) (some (intStr 2))
      server := c.server.insertInDstate (address E DKey keyword src_cnt node) (markValue E) }
  | none =>
    pure { c with
      server := c.server.insertInDstate (E.dummy c.rands).1 (E.dummy c.rands).2
      rands := c.rands + 1 }

/-! ## Search -/

/-- `Client::search` from its counters on: the ids, the next `src_cnt`, and the server after. -/
def searchServer (server : Server) (keyword : Str) (src_cnt a_w : Int) :
    Option (List CInt × Int × Server) := do
  let phi := getAESRandomValue E keyword src_cnt
  let (ciphers, deletes, server) ←
    server.search E.aes (bitwiseXOR IKey phi) (bitwiseXOR DKey phi) a_w
  let found := ciphers.map fun cipher =>
    (cipher.1, (E.aes.decode cipher.2 (some secretKey)).getInt 11)
  let src_cnt ← int (src_cnt + 1)
  pure (found.map Prod.snd, src_cnt, server.insertAll
    (found.map fun e => (address E IKey keyword src_cnt e.1, cipherOf E keyword e.2))
    (deletes.map fun del => (address E DKey keyword src_cnt del, markValue E)))

/-- `Client::search`. -/
def search (c : Client) (keyword : Str) : Option (List CInt × Client) := do
  let (src_cnt, a_w) ← parsePair ((c.LOcnt keyword).getD [])
  let (finalRes, src_cnt, server) ← searchServer E c.server keyword src_cnt a_w
  pure (finalRes, { c with
    LOcnt := Function.update c.LOcnt keyword (some (pairStr src_cnt a_w))
    server := server })

/-! ## Calls -/

inductive Call where
  | insert (keyword : Str) (id : CInt)
  | remove (keyword : Str) (id : CInt)
  | search (keyword : Str)
  deriving DecidableEq

def step (c : Client) : Call → Option Client
  | .insert keyword id => insert E c keyword id
  | .remove keyword id => remove E c keyword id
  | .search keyword => (search E c keyword).map Prod.snd

end

theorem nextCounters_nil : nextCounters [] = some (0, 0) := rfl

theorem nextCounters_of_parsePair {result : Str} {a b : Int} (h : parsePair result = some (a, b)) :
    nextCounters result = (int (b + 1)).map fun a_w => (a, a_w) := by
  have hne : result ≠ [] := by
    rintro rfl
    cases h
  unfold nextCounters
  rw [if_pos hne, h]
  simp only [Option.bind_eq_bind, Option.bind_some]
  cases int (b + 1) <;> rfl

end SmallClientSSE.Qos
