import SmallClientSSE.Lib.Tally
import SmallClientSSE.Lib.Run
import SmallClientSSE.Omap.FiniteMap

/-!
# The Mitra client and server

The server is a dictionary from addresses to ciphertexts. The client keeps, for
every keyword, a pair `fileCnt-srcCnt`; record number `i` of a keyword is stored
at the address derived from `(keyword, srcCnt, i)` with op byte `0` and masked
with the value derived with op byte `1`. With `deleteFiles` every search writes
the surviving ids back under the next `srcCnt`.

`derive` is `Prg::derive`; `rand` supplies the bytes `rand() % 255`, one row for
each call of `bitwiseXOR`.
-/

namespace SmallClientSSE.Mitra

open Lib

/-- What the code takes from outside: the PRF and the C random generator. -/
structure Env where
  derive : Block → Block
  rand : Nat → Nat → Byte

/-- The messages a server has received. -/
inductive Msg where
  | update (addr val : Block)
  | query (addr : Block)

/-! ## Server -/

/-- `DictW`, a map whose missing entries read as zero, and the messages received,
latest first. -/
structure Server where
  DictW : Block → Block
  trace : List Msg

namespace Server

def init : Server := ⟨fun _ => Buf.zero, []⟩

def update (s : Server) (addr val : Block) : Server :=
  ⟨Function.update s.DictW addr val, .update addr val :: s.trace⟩

/-- The values found, in query order; a zero value counts as not found. -/
def search (s : Server) (KList : List Block) : List Block × Server :=
  ((KList.map s.DictW).filter fun val => val ≠ Buf.zero,
    ⟨s.DictW, (KList.map Msg.query).reverse ++ s.trace⟩)

end Server

/-! ## Client -/

/-- The client's fields; `rands` counts the calls of `bitwiseXOR` that used
random bytes. -/
structure Client where
  deleteFiles : Bool
  localStorage : Bool
  omap : FMap 16
  FileCnt : Block → Option Int
  SrcCnt : Block → Option Int
  setupOMAP : FMap 16
  rands : Nat

namespace Client

def init (deleteFiles localStorage : Bool) : Client :=
  ⟨deleteFiles, localStorage, fun _ => none, fun _ => none, fun _ => none, fun _ => none, 0⟩

end Client

/-- The buffer `getAESRandomValue` leaves in `keyword` and feeds to the PRF: the
counters at `AES_KEY_SIZE - 9` and `AES_KEY_SIZE - 4`, the op before the last. -/
def prfInput (deleteFiles : Bool) (keyword : Block) (op : Byte) (srcCnt fileCnt : Int) : Block :=
  let keyword := if deleteFiles then keyword.putInt 7 srcCnt else keyword
  let keyword := keyword.put 11 op
  keyword.putInt 12 fileCnt

/-- The keyword buffer `k_w`. -/
def kw (keyword : Str) : Block := Buf.zero.copyStr keyword

/-- `bitwiseXOR(int, int, prf_type)`; bytes from the sixth on are random. -/
def bitwiseXORInt (input1 : Int) (op : OP) (input2 : Block) (rand : Nat → Byte) : Block := fun i =>
  if i.val < 4 then input2 i ^^^ Buf.leByte input1 i.val
  else if i.val = 4 then input2 i ^^^ op.toByte
  else rand i.val ^^^ input2 i

def bitwiseXOR (input1 input2 : Block) : Block := fun i => input1 i ^^^ input2 i

/-- `OMAP::incrementFileCnt` on a finite map: the old text is returned and the
first counter is incremented; an absent key starts at `1-0` and reads as `0-0`. -/
def incrementFileCnt (m : FMap 16) (key : Bid 16) : Option (Str × FMap 16) :=
  match m key with
  | none => some (pairStr 0 0, m.insert key (pairStr 1 0))
  | some res => do
    let parts := splitData res dash
    let fileCnt ← parts[0]? >>= stoi
    let rest ← parts[1]?
    guard (InInt (fileCnt.val + 1))
    pure (res, m.insert key (intStr (fileCnt.val + 1) ++ dash :: rest))

def bumpLocal (c : Client) (k_w : Block) : Client × Int × Int :=
  let fileCnt := match c.FileCnt k_w with
    | none => 1
    | some n => n + 1
  let c := { c with FileCnt := Function.update c.FileCnt k_w (some fileCnt) }
  if c.deleteFiles then
    let srcCnt := (c.SrcCnt k_w).getD 0
    ({ c with SrcCnt := Function.update c.SrcCnt k_w (some srcCnt) }, fileCnt, srcCnt)
  else (c, fileCnt, 0)

def bumpOmap (c : Client) (keyword : Str) (setup : Bool) : Option (Client × Int × Int) := do
  let mapKey : Bid 16 := Bid.ofStr keyword
  let (fileCntStr, c) ←
    if setup then some (c.setupOMAP.find mapKey, c)
    else (incrementFileCnt c.omap mapKey).map fun r => (r.1, { c with omap := r.2 })
  let (fileCnt, srcCnt) ← if fileCntStr ≠ [] then parsePair fileCntStr else some (0, 0)
  guard (InInt (fileCnt + 1))
  let fileCnt := fileCnt + 1
  let c := if setup then
      { c with setupOMAP := c.setupOMAP.insert mapKey (pairStr fileCnt srcCnt) }
    else c
  pure (c, fileCnt, srcCnt)

section

variable (E : Env)

/-- Encrypt one record and send it: the address and the masked id and op. -/
def put (c : Client) (s : Server) (k_w : Block) (op : OP) (ind srcCnt fileCnt : Int) :
    Client × Server × Block :=
  let k_w := prfInput c.deleteFiles k_w 0 srcCnt fileCnt
  let addr := E.derive k_w
  let k_w := prfInput c.deleteFiles k_w 1 srcCnt fileCnt
  let rnd := E.derive k_w
  let val := bitwiseXORInt ind op rnd (E.rand c.rands)
  ({ c with rands := c.rands + 1 }, s.update addr val, k_w)

/-- `Client::update`. -/
def update (c : Client) (s : Server) (op : OP) (keyword : Str) (ind : CInt) (setup : Bool) :
    Option (Client × Server) := do
  let k_w := kw keyword
  let (c, fileCnt, srcCnt) ←
    if c.localStorage then some (bumpLocal c k_w) else bumpOmap c keyword setup
  let (c, s, _) := put E c s k_w op ind.val srcCnt fileCnt
  pure (c, s)

/-- The addresses of records `i`, `i + 1`, …, and the buffer left behind. -/
def addresses (deleteFiles : Bool) (srcCnt : Int) : Block → Int → Nat → Block × List Block
  | k_w, _, 0 => (k_w, [])
  | k_w, i, n + 1 =>
    let k_w := prfInput deleteFiles k_w 0 srcCnt i
    let r := addresses deleteFiles srcCnt k_w (i + 1) n
    (r.1, E.derive k_w :: r.2)

/-- Unmask the values returned, counting them from `cnt`. -/
def decodeAll (deleteFiles : Bool) (srcCnt : Int) : Block → Int → List Block →
    Block × List (CInt × Int)
  | k_w, _, [] => (k_w, [])
  | k_w, cnt, v :: vs =>
    let k_w := prfInput deleteFiles k_w 1 srcCnt cnt
    let plaintextBytes := bitwiseXOR (E.derive k_w) v
    let r := decodeAll deleteFiles srcCnt k_w (cnt + 1) vs
    (r.1, (plaintextBytes.getInt 0, 2 * ((plaintextBytes 4).val : Int) - 1) :: r.2)

/-- Write the surviving ids back, numbered from `fileCnt + 1`. -/
def rewrite (srcCnt : Int) : Client → Server → Block → Int → List CInt →
    Client × Server × Block × Int
  | c, s, k_w, fileCnt, [] => (c, s, k_w, fileCnt)
  | c, s, k_w, fileCnt, ind :: inds =>
    let fileCnt := fileCnt + 1
    let (c, s, k_w) := put E c s k_w .INS ind.val srcCnt fileCnt
    rewrite srcCnt c s k_w fileCnt inds

/-- The counters a search starts from; `none` in the first component stops it. -/
def searchCounters (c : Client) (k_w : Block) (keyword : Str) :
    Option (Option (Int × Int) × Client) :=
  if c.localStorage then
    match c.FileCnt k_w with
    | none => some (none, c)
    | some fileCnt =>
      if c.deleteFiles then
        let srcCnt := (c.SrcCnt k_w).getD 0
        some (some (fileCnt, srcCnt),
          { c with SrcCnt := Function.update c.SrcCnt k_w (some srcCnt) })
      else some (some (fileCnt, 0), c)
  else
    let fileCntStr := c.omap.find (Bid.ofStr keyword)
    if fileCntStr ≠ [] then (parsePair fileCntStr).map fun p => (some p, c)
    else some (none, c)

/-- The clean-up part of `Client::search`. -/
def cleanUp (c : Client) (s : Server) (k_w : Block) (keyword : Str) (srcCnt : Int)
    (finalRes : List CInt) : Client × Server :=
  let c := if c.localStorage then
      { c with SrcCnt := Function.update c.SrcCnt k_w (some ((c.SrcCnt k_w).getD 0 + 1)) }
    else c
  let srcCnt := srcCnt + 1
  let (c, s, k_w, fileCnt) := rewrite E srcCnt c s k_w 0 finalRes
  if c.localStorage then ({ c with FileCnt := Function.update c.FileCnt k_w (some fileCnt) }, s)
  else ({ c with omap := c.omap.insert (Bid.ofStr keyword) (pairStr fileCnt srcCnt) }, s)

/-- `Client::search`. -/
def search (c : Client) (s : Server) (keyword : Str) : Option (List CInt × Client × Server) := do
  let k_w := kw keyword
  let (cnts, c) ← searchCounters c k_w keyword
  match cnts with
  | none => pure ([], c, s)
  | some (fileCnt, srcCnt) =>
    let (k_w, KList) := addresses E c.deleteFiles srcCnt k_w 1 fileCnt.toNat
    let (encIndexes, s) := s.search KList
    let (k_w, decoded) := decodeAll E c.deleteFiles srcCnt k_w 1 encIndexes
    let finalRes := Tally.below (Tally.tally decoded)
    if c.deleteFiles then
      let (c, s) := cleanUp E c s k_w keyword srcCnt finalRes
      pure (finalRes, c, s)
    else pure (finalRes, c, s)

/-- The 500 insertions of the pair `(Bid(1), "TEST")` that end the setup. -/
def testInserts (m : FMap 16) : FMap 16 :=
  (List.range 500).foldl (fun m _ => m.insert (Bid.ofValue 1) [84, 69, 83, 84]) m

/-- `Client::endSetup`. -/
def endSetup (c : Client) : Client :=
  if c.localStorage then c
  else { c with omap := testInserts (c.omap.setupInsert c.setupOMAP) }

/-! ## Calls -/

inductive Call where
  | update (op : OP) (keyword : Str) (ind : CInt) (setup : Bool)
  | search (keyword : Str)
  | endSetup
  deriving DecidableEq

def step (st : Client × Server) : Call → Option (Client × Server)
  | .update op keyword ind setup => update E st.1 st.2 op keyword ind setup
  | .search keyword => (search E st.1 st.2 keyword).map Prod.snd
  | .endSetup => some (endSetup st.1, st.2)

/-- The state after `calls` on a fresh client and server. -/
def runCalls (deleteFiles localStorage : Bool) (calls : List Call) : Option (Client × Server) :=
  run (step E) (Client.init deleteFiles localStorage, Server.init) calls

end

end SmallClientSSE.Mitra
