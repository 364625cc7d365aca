import SmallClientSSE.Static.DeAmortized

/-!
# The sets of the DeAmortized scheme

A set is a table of the client or of the server, whichever its level uses
(`CSet`). `Stored E i s items`: it holds the records `items`, numbered for each
keyword in the order they came in. Filing a record adds it, the iteration of a
merge reads all of them, and a search finds those of its keyword.
-/

namespace SmallClientSSE.DeAmortized

open Lib Static BASClient

variable {E : Env} {ks : List Str} {l n : Nat}

/-! ## Addresses -/

/-- The keys of NEW sets: those first allocated, and those drawn by `n` updates. -/
def UsedKey (E : Env) (l n : Nat) (key : Block) : Prop :=
  ∃ i < l, key = E.key0 3 i ∨ ∃ t ≤ n, key = E.newKey t i

/-- The PRF is injective on the tokens and counters in use: keywords of `ks`, keys of
`n` updates, counters up to `n + 1`. -/
def PrfInj (E : Env) (ks : List Str) (l n : Nat) : Prop :=
  ∀ key, UsedKey E l n key → Set.InjOn (fun p : Block × Nat => getAESRandomValue E p.1 p.2)
    {p | ∃ w ∈ ks, p.1 = token E w key ∧ p.2 ≤ n + 1}

/-- Where the client files record `j` of `w`. -/
def localAddr (w : Str) (j : Nat) : Str := localKey w j

/-- Where the server files record `j` of `w`. -/
def serverAddr (E : Env) (key : Block) (w : Str) (j : Nat) : Block :=
  getAESRandomValue E (token E w key) j

theorem localAddr_inj (ks : List Str) (n : Nat) : AddrInj localAddr ks n := by
  rintro ⟨w, i⟩ - ⟨v, j⟩ - h
  obtain ⟨rfl, hij⟩ := append_intStr_inj (by decide) (Int.natCast_nonneg i) (Int.natCast_nonneg j) h
  exact Prod.ext rfl (by exact_mod_cast hij)

theorem serverAddr_inj (hE : PrfInj E ks l n) (hks : ∀ w ∈ ks, Keyword w) {key : Block}
    (hkey : UsedKey E l n key) : AddrInj (serverAddr E key) ks (n + 1) := by
  rintro ⟨w, i⟩ ⟨hw, hi⟩ ⟨v, j⟩ ⟨hv, hj⟩ h
  have := @hE key hkey (token E w key, i) ⟨w, hw, rfl, hi⟩ (token E v key, j) ⟨v, hv, rfl, hj⟩ h
  obtain ⟨h1, h2⟩ := Prod.mk.inj this
  exact Prod.ext (encode_token_inj (hks w hw) (hks v hv) h1) h2

theorem getBid_inj {w v : Str} (hw : Keyword w) (hv : Keyword v) {x y : Int} (hx : InInt x)
    (hy : InInt y) (h : getBid w x = getBid v y) : w = v ∧ x = y := by
  have hat : ∀ k, k < 16 → ((Buf.zero.copyStr w).putInt 12 x : Buf 16).at' k =
      ((Buf.zero.copyStr v).putInt 12 y : Buf 16).at' k := fun k _ =>
    congrArg (fun b : Bid 16 => b.id.at' k) h
  constructor
  · refine nulFree_ext (m := 9) hw.1 hv.1 hw.2 hv.2 fun i hi => ?_
    have := hat i (by omega)
    rwa [Buf.putInt_at _ _ _ _ (by omega), Buf.putInt_at _ _ _ _ (by omega), if_neg (by omega),
      if_neg (by omega), Buf.copyStr_zero_at _ _ (by omega), Buf.copyStr_zero_at _ _ (by omega)]
      at this
  · refine Buf.leByte_inj hx hy fun k hk => ?_
    have := hat (12 + k) (by omega)
    rwa [Buf.putInt_at _ _ _ _ (by omega), Buf.putInt_at _ _ _ _ (by omega), if_pos (by omega),
      if_pos (by omega), Nat.add_sub_cancel_left] at this

/-! ## Sets -/

/-- One set of a level. -/
inductive CSet where
  | client (data : Table Str Block)
  | server (key : Block) (set : Table Block Block) (exist : Bool)

/-- The set of instance `inst` at level `i`. -/
def Client.setAt (c : Client) (inst i : Nat) : CSet :=
  if i < localSize then .client (c.data inst i)
  else .server (c.keys inst i) (c.L.server inst i) (c.L.exist inst i)

/-- The records as they are kept on the server. -/
def encoded (E : Env) (key : Block) (items : List (Str × Block)) : List (Str × Block) :=
  items.map fun p => (p.1, E.aes.encodeBlock p.2 (some key))

def Stored (E : Env) : CSet → List (Str × Block) → Prop
  | .client data, items => Numbered localAddr data items
  | .server key set _, items => Numbered (serverAddr E key) set (encoded E key items)

namespace CSet

/-- The key of a set of the server is one in use. -/
def KeyOk (E : Env) (l n : Nat) : CSet → Prop
  | .client _ => True
  | .server key _ _ => UsedKey E l n key

/-- The set with one more record, number `j` of `w`. -/
def add (E : Env) (w : Str) (j : Nat) (x : Block) : CSet → CSet
  | .client data => .client (data.put (localAddr w j) x)
  | .server key set exist =>
    .server key (set.put (serverAddr E key w j) (E.aes.encodeBlock x (some key))) exist

def size : CSet → Nat
  | .client data => data.pairs.length
  | .server _ set _ => set.pairs.length

def clear : CSet → CSet
  | .client _ => .client ∅
  | .server key _ _ => .server key ∅ false

/-- The set as a copy of it in an empty place. -/
def copied : CSet → CSet
  | .client data => .client data
  | .server key set _ => .server key set (decide (0 < set.pairs.length))

/-- The records in the order of the iteration for set `upCnt` of the next level. -/
def records (E : Env) (upCnt : Int) (inst i : Nat) : CSet → List Block
  | .client data => (iterate E upCnt inst i data.pairs).map Prod.snd
  | .server key set _ =>
    (iterate E upCnt inst i set.pairs).map fun cipher => E.aes.decode cipher.2 (some key)

end CSet

theorem valuesOf_encoded (key : Block) (items : List (Str × Block)) (w : Str) :
    valuesOf (encoded E key items) w =
      (valuesOf items w).map fun b => E.aes.encodeBlock b (some key) := by
  induction items with
  | nil => rfl
  | cons p items ih =>
    unfold valuesOf encoded at *
    rw [List.map_cons, List.filter_cons, List.filter_cons]
    by_cases h : p.1 = w
    · simp only [h, decide_true, if_true, List.map_cons, ih]
    · simp only [h, decide_false, Bool.false_eq_true, if_false, ih]

theorem keys_encoded {key : Block} {items : List (Str × Block)} (h : ∀ p ∈ items, p.1 ∈ ks) :
    ∀ p ∈ encoded E key items, p.1 ∈ ks := by
  intro p hp
  obtain ⟨q, hq, rfl⟩ := List.mem_map.mp hp
  exact h q hq

theorem stored_clear (s : CSet) : Stored E s.clear [] := by
  cases s with
  | client data => exact Numbered.empty _
  | server key set exist => exact Numbered.empty _

section

variable {s : CSet} {items : List (Str × Block)}

theorem Stored.copied (h : Stored E s items) : Stored E s.copied items := by
  cases s with
  | client data => exact h
  | server key set exist => exact h

theorem Stored.size (h : Stored E s items) : s.size = items.length := by
  cases s with
  | client data => exact Numbered.length h
  | server key set exist => exact (Numbered.length h).trans (List.length_map _)

/-- **Filing a record** under the next number of its keyword. -/
theorem Stored.add (hE : PrfInj E ks l n) (hks : ∀ w ∈ ks, Keyword w) (hkey : s.KeyOk E l n)
    (h : Stored E s items) (hitems : ∀ p ∈ items, p.1 ∈ ks) (hn : items.length < n + 1) {w : Str}
    (hw : w ∈ ks) (x : Block) :
    Stored E (s.add E w ((valuesOf items w).length + 1) x) (items ++ [(w, x)]) := by
  cases s with
  | client data => exact Numbered.snoc (localAddr_inj ks (n + 1)) hitems h hn hw x
  | server key set exist =>
    have hlen : (encoded E key items).length < n + 1 := by rwa [encoded, List.length_map]
    have := Numbered.snoc (serverAddr_inj hE hks hkey) (keys_encoded hitems) h hlen hw
      (E.aes.encodeBlock x (some key))
    rw [valuesOf_encoded, List.length_map] at this
    show Numbered _ _ (encoded E key (items ++ [(w, x)]))
    rwa [encoded, List.map_append]

/-- **An iteration reads every record**, up to the byte that is not encoded. -/
theorem Stored.records (h : Stored E s items) (upCnt : Int) (inst i : Nat) :
    ((s.records E upCnt inst i).map head15).Perm (items.map fun p => head15 p.2) := by
  cases s with
  | client data =>
    rw [CSet.records, iterate, List.map_map]
    refine ((E.hash.perm _ _ _).map _).trans ?_
    have := (Numbered.values h).map head15
    rwa [List.map_map, List.map_map] at this
  | server key set exist =>
    rw [CSet.records, iterate, List.map_map]
    refine ((E.hash.perm _ _ _).map _).trans ?_
    have := (Numbered.values h).map fun v => head15 (E.aes.decode v (some key))
    simpa only [List.map_map, encoded, Function.comp_def, Aes.head15_decode] using this

theorem Stored.length_records (h : Stored E s items) (upCnt : Int) (inst i : Nat) :
    (s.records E upCnt inst i).length = items.length := by
  simpa using (h.records upCnt inst i).length_eq

end

/-! ## Searching a set -/

section

variable {c : Client} {i j : Nat} {items : List (Str × Block)} {w : Str}

theorem searchLocal_stored (hi : i < localSize) (h : Stored E (c.setAt j i) items) (w : Str) :
    searchLocal c w j i = some (valuesOf items w) := by
  rw [Client.setAt, if_pos hi] at h
  have hlen := Numbered.length h
  simp only [searchLocal]
  split
  · exact Numbered.scan_values (localAddr_inj (w :: items.map Prod.fst) (items.length + 1))
      (fun p hp => List.mem_cons_of_mem _ (List.mem_map_of_mem hp)) h (by omega)
      List.mem_cons_self (by omega)
  · have hnil : items = [] := List.eq_nil_of_length_eq_zero (by omega)
    rw [hnil]
    rfl

/-- **A search in a set of the server** ends and returns the keyword's records. -/
theorem search_stored (hE : PrfInj E ks l n) (hks : ∀ w ∈ ks, Keyword w) (hi : localSize ≤ i)
    (h : Stored E (c.setAt j i) items) (hitems : ∀ p ∈ items, p.1 ∈ ks) (hn : items.length ≤ n)
    (hkey : UsedKey E l n (c.keys j i)) (hw : w ∈ ks) :
    ∃ bs, c.L.search E j i w (c.keys j i) = some bs ∧
      bs.map head15 = (valuesOf items w).map head15 := by
  rw [Client.setAt, if_neg (by omega)] at h
  have hlen : (encoded E (c.keys j i) items).length = items.length := List.length_map _
  have hset := (Numbered.length h).trans hlen
  have hscan := Numbered.scan_values (serverAddr_inj hE hks hkey) (keys_encoded hitems) h
    (by omega) hw (show _ < (c.L.server j i).pairs.length + 1 by omega)
  rw [valuesOf_encoded] at hscan
  refine ⟨_, by rw [BASClient.search]; exact congrArg _ hscan, ?_⟩
  simp only [List.map_map, Function.comp_def, Aes.head15_decode]

end

end SmallClientSSE.DeAmortized
