import SmallClientSSE.Utils.Encode
import SmallClientSSE.Lib.Tally

/-!
# Records of the leveled schemes

One update is stored as a 16-byte record: the keyword at the front, the op at
byte `AES_KEY_SIZE - 6` and the id at `AES_KEY_SIZE - 5`. Merges read the keyword
back as the C string at the front, searches read the op and the id. All of it
lies in the fifteen bytes that survive `encode` and `decode`.
-/

namespace SmallClientSSE.Static

open Lib

/-- The arguments of `update`. -/
structure Upd where
  op : OP
  keyword : Str
  ind : CInt
  deriving DecidableEq

/-- Keywords that leave a terminator before the op byte. -/
def Keyword (w : Str) : Prop := NulFree w ∧ w.length ≤ 9

instance (w : Str) : Decidable (Keyword w) := inferInstanceAs (Decidable (_ ∧ _))

theorem encode_token_inj {A : Aes} {w v : Str} {key : Option Block} (hw : Keyword w)
    (hv : Keyword v) (h : A.encode (w ++ [dash, 49]) key = A.encode (v ++ [dash, 49]) key) :
    w = v := by
  have hfree : ∀ {x : Str}, Keyword x → NulFree (x ++ [dash, 49]) := by
    intro x hx hmem
    rcases List.mem_append.mp hmem with h | h
    · exact hx.1 h
    · revert h; decide
  have hlen : ∀ {x : Str}, Keyword x → (x ++ [dash, 49]).length ≤ 15 := by
    intro x hx
    have := hx.2
    simp only [List.length_append, List.length_cons, List.length_nil]
    omega
  exact List.append_cancel_right (Aes.encode_inj (hfree hw) (hfree hv) (hlen hw) (hlen hv) h)

/-- Without encryption a token leaves the bytes of the counter at zero. -/
theorem plainAes_token_at {w : Str} (hw : Keyword w) (key : Option Block) {i : Nat} (h1 : 12 ≤ i)
    (h2 : i < 16) : (plainAes.encode (w ++ [dash, 49]) key).at' i = 0 := by
  have hlen := hw.2
  rw [Buf.at'_of_lt _ h2]
  show (head15 (Buf.zero.copyStr (w ++ [dash, 49]))).at' i = 0
  by_cases hi : i < 15
  · rw [head15_at _ hi, Buf.copyStr_zero_at _ _ h2, List.getD_eq_default]
    simp only [List.length_append, List.length_cons, List.length_nil]
    omega
  · simp [Buf.at', hi]

/-- Token and counter are read off an address that is not encrypted. -/
theorem plainAes_address_inj {w v : Str} (hw : Keyword w) (hv : Keyword v) {key : Option Block}
    {i j : Int} (hi : InInt i) (hj : InInt j)
    (h : (plainAes.encode (w ++ [dash, 49]) key).putInt 12 i =
      (plainAes.encode (v ++ [dash, 49]) key).putInt 12 j) :
    plainAes.encode (w ++ [dash, 49]) key = plainAes.encode (v ++ [dash, 49]) key ∧ i = j := by
  have hat : ∀ k, k < 16 → ((plainAes.encode (w ++ [dash, 49]) key).putInt 12 i).at' k =
      ((plainAes.encode (v ++ [dash, 49]) key).putInt 12 j).at' k := fun k _ =>
    congrArg (fun x : Block => x.at' k) h
  constructor
  · refine Buf.ext_at fun k hk => ?_
    by_cases hlt : k < 12
    · have := hat k hk
      rwa [Buf.putInt_at _ _ _ _ hk, Buf.putInt_at _ _ _ _ hk, if_neg (by omega),
        if_neg (by omega)] at this
    · rw [plainAes_token_at hw _ (by omega) hk, plainAes_token_at hv _ (by omega) hk]
  · refine Buf.leByte_inj hi hj fun k hk => ?_
    have := hat (12 + k) (by omega)
    rwa [Buf.putInt_at _ _ _ _ (by omega), Buf.putInt_at _ _ _ _ (by omega), if_pos (by omega),
      if_pos (by omega), Nat.add_sub_cancel_left] at this

def Upd.value (u : Upd) : Block :=
  let value : Block := Buf.zero.copyStr u.keyword
  let value := value.putInt 11 u.ind.val
  value.put 10 u.op.toByte

/-- The id and the weight a search reads from a record. -/
def plain (b : Block) : CInt × Int := (b.getInt 11, 2 * ((b 10).val : Int) - 1)

/-- The same, from the bytes that are encoded. -/
def plain15 (x : Buf 15) : CInt × Int := (x.getInt 11, 2 * ((x.at' 10).val : Int) - 1)

theorem plain_eq (b : Block) : plain b = plain15 (head15 b) := by
  have hop : (head15 b).at' 10 = b 10 := by
    rw [head15_at b (by omega), Buf.at'_of_lt _ (by omega)]
    rfl
  rw [plain, plain15, hop, Buf.getInt_congr fun i hi => (head15_at b (by omega)).symm]

/-- The keyword and the bytes that are encoded. -/
def Upd.tag (u : Upd) : Str × Buf 15 := (u.keyword, head15 u.value)

/-- The tag of a block filed under a keyword. -/
def tagOf (p : Str × Block) : Str × Buf 15 := (p.1, head15 p.2)

theorem Upd.value_at (u : Upd) {i : Nat} (hi : i < 16) : u.value.at' i =
    if i = 10 then u.op.toByte
    else if 11 ≤ i ∧ i < 15 then Buf.leByte u.ind.val (i - 11)
    else u.keyword.getD i 0 := by
  simp only [Upd.value, Buf.put_at _ _ _ _ hi, Buf.putInt_at _ _ _ _ hi, Buf.copyStr_zero_at _ _ hi]

/-- The keyword is read back from any block with the record's bytes. -/
theorem cstr_of_head15 {b : Block} {u : Upd} (hu : Keyword u.keyword)
    (h : head15 b = head15 u.value) : b.cstr = u.keyword := by
  obtain ⟨hnul, hlen⟩ := hu
  refine Buf.cstr_eq hnul (by omega) fun i hi => ?_
  rw [head15_ext.mp h i (by omega), u.value_at (by omega), if_neg (by omega), if_neg (by omega)]

theorem cstr_head15 {u : Upd} (hu : Keyword u.keyword) : (head15 u.value).cstr = u.keyword := by
  obtain ⟨hnul, hlen⟩ := hu
  refine Buf.cstr_eq hnul (by omega) fun i hi => ?_
  rw [head15_at _ (by omega), u.value_at (by omega), if_neg (by omega), if_neg (by omega)]

theorem ind_of_head15 {b : Block} {u : Upd} (h : head15 b = head15 u.value) :
    b.getInt 11 = u.ind := by
  rw [← Buf.getInt_putInt 11 u.ind (Buf.zero : Block) (by omega)]
  refine Buf.getInt_congr fun i hi => ?_
  rw [head15_ext.mp h _ (by omega), u.value_at (by omega), if_neg (by omega), if_pos (by omega),
    Buf.putInt_at _ _ _ _ (by omega), if_pos (by omega)]

theorem op_of_head15 {b : Block} {u : Upd} (h : head15 b = head15 u.value) :
    b 10 = u.op.toByte := by
  have := head15_ext.mp h 10 (by omega)
  rwa [u.value_at (by omega), if_pos rfl, Buf.at'_of_lt _ (by omega)] at this

/-- **Record round trip**: id and op are read back. -/
theorem plain_of_head15 {b : Block} {u : Upd} (h : head15 b = head15 u.value) :
    plain b = (u.ind, u.op.weight) := by
  rw [plain, ind_of_head15 h, op_of_head15 h, OP.weight_eq]

/-- **The round trip through `encode` and `decode`**: id and op are always read back, the
keyword unless its ten bytes leave no terminator before the byte of a deletion. -/
theorem record_round_trip_iff (A : Aes) (curkey : Option Block) (u : Upd) (hnul : NulFree u.keyword)
    (hlen : u.keyword.length ≤ 10) :
    ((A.decode (A.encodeBlock u.value curkey) curkey).cstr = u.keyword ∧
        (A.decode (A.encodeBlock u.value curkey) curkey) 10 = u.op.toByte ∧
        (A.decode (A.encodeBlock u.value curkey) curkey).getInt 11 = u.ind) ↔
      u.keyword.length ≤ 9 ∨ u.op = .INS := by
  have h : head15 (A.decode (A.encodeBlock u.value curkey) curkey) = head15 u.value :=
    Aes.head15_decode u.value curkey
  generalize A.decode (A.encodeBlock u.value curkey) curkey = b at h
  constructor
  · rintro ⟨hw, hop, -⟩
    by_contra hcon
    rw [not_or] at hcon
    have hten : b.cstr.length = 10 := by
      rw [hw]
      omega
    have hzero := Buf.at_length_cstr (b := b) (by omega)
    rw [hten, Buf.at'_of_lt _ (by omega)] at hzero
    cases hu : u.op with
    | INS => exact hcon.2 hu
    | DEL =>
      rw [hu] at hop
      exact absurd (hop.symm.trans hzero) (by decide)
  · intro hcond
    refine ⟨Buf.cstr_eq hnul (by omega) fun i hi => ?_, op_of_head15 h, ind_of_head15 h⟩
    rw [head15_ext.mp h i (by omega), u.value_at (by omega)]
    by_cases hi10 : i = 10
    · -- the op byte of an insertion is the terminator
      have hins : u.op = .INS := hcond.resolve_left (by omega)
      rw [if_pos hi10, hins, List.getD_eq_default _ _ (by omega)]
      rfl
    · rw [if_neg hi10, if_neg (by omega)]

/-- An insertion of a keyword of ten bytes. -/
theorem record_round_trip_ten : (plainAes.decode (plainAes.encodeBlock
        (⟨.INS, [97, 98, 99, 100, 101, 102, 103, 104, 105, 106], ⟨7, by decide⟩⟩ : Upd).value none)
        none).cstr = [97, 98, 99, 100, 101, 102, 103, 104, 105, 106] ∧
      plainAes.decode (plainAes.encodeBlock
        (⟨.INS, [97, 98, 99, 100, 101, 102, 103, 104, 105, 106], ⟨7, by decide⟩⟩ : Upd).value none)
        none 10 = OP.toByte .INS ∧
      (plainAes.decode (plainAes.encodeBlock
        (⟨.INS, [97, 98, 99, 100, 101, 102, 103, 104, 105, 106], ⟨7, by decide⟩⟩ : Upd).value none)
        none).getInt 11 = ⟨7, by decide⟩ :=
  (record_round_trip_iff plainAes none
    ⟨.INS, [97, 98, 99, 100, 101, 102, 103, 104, 105, 106], ⟨7, by decide⟩⟩ (by decide)
    (by decide)).mpr (.inr rfl)

/-- A deletion of a keyword of ten bytes is filed under a longer one. -/
theorem ten_bytes_misread : (plainAes.decode (plainAes.encodeBlock
      (⟨.DEL, [97, 98, 99, 100, 101, 102, 103, 104, 105, 106], ⟨7, by decide⟩⟩ : Upd).value none)
      none).cstr ≠ [97, 98, 99, 100, 101, 102, 103, 104, 105, 106] := by
  decide

/-! ## Permutations of records -/

/-- Blocks with the bytes of some records are filed under the records' keywords. -/
theorem perm_tag_of_perm {l : List Block} {us : List Upd} (hus : ∀ u ∈ us, Keyword u.keyword)
    (h : (l.map head15).Perm (us.map fun u => head15 u.value)) :
    (l.map fun b => tagOf (b.cstr, b)).Perm (us.map Upd.tag) := by
  have h1 : (l.map fun b => tagOf (b.cstr, b)) = (l.map head15).map fun x => (x.cstr, x) := by
    rw [List.map_map]
    refine List.map_congr_left fun b hb => ?_
    obtain ⟨u, hu, e⟩ := List.mem_map.mp (h.subset (List.mem_map_of_mem hb))
    simp only [tagOf, Function.comp_apply, cstr_of_head15 (hus u hu) e.symm]
    rw [← e, cstr_head15 (hus u hu)]
  have h2 : us.map Upd.tag = (us.map fun u => head15 u.value).map fun x => (x.cstr, x) := by
    rw [List.map_map]
    refine List.map_congr_left fun u hu => ?_
    simp only [Upd.tag, Function.comp_apply, cstr_head15 (hus u hu)]
  rw [h1, h2]
  exact h.map _

/-- A reading that only looks at the encoded bytes of a record. -/
theorem perm_map_of_perm {α : Type} {l : List (Str × Block)} {us : List Upd}
    (h : (l.map tagOf).Perm (us.map Upd.tag)) (f : Str × Block → α) (g : Str × Buf 15 → α)
    (hf : ∀ p, f p = g (tagOf p)) : (l.map f).Perm (us.map fun u => f (u.keyword, u.value)) := by
  have h1 : l.map f = (l.map tagOf).map g := by
    rw [List.map_map]
    exact List.map_congr_left fun p _ => hf p
  have h2 : (us.map fun u => f (u.keyword, u.value)) = (us.map Upd.tag).map g := by
    rw [List.map_map]
    exact List.map_congr_left fun u _ => hf (u.keyword, u.value)
  rw [h1, h2]
  exact h.map g

theorem perm_plain_of_perm {l : List Block} {us : List Upd}
    (h : (l.map head15).Perm (us.map fun u => head15 u.value)) :
    (l.map plain).Perm (us.map fun u => (u.ind, u.op.weight)) := by
  have h1 : l.map plain = (l.map head15).map plain15 := by
    rw [List.map_map]
    exact List.map_congr_left fun b _ => plain_eq b
  have h2 : (us.map fun u => (u.ind, u.op.weight)) =
      (us.map fun u => head15 u.value).map plain15 := by
    rw [List.map_map]
    exact List.map_congr_left fun u _ => by
      rw [Function.comp_apply, ← plain_eq, plain_of_head15 rfl]
  rw [h1, h2]
  exact h.map _

theorem perm_read_of_perm {l : List (Str × Block)} {us : List Upd}
    (h : (l.map tagOf).Perm (us.map Upd.tag)) :
    (l.map fun p => (p.1, p.2 10, p.2.getInt 11)).Perm
      (us.map fun u => (u.keyword, u.op.toByte, u.ind)) := by
  have hread := perm_map_of_perm h (fun p => (p.1, p.2 10, p.2.getInt 11))
    (fun p => (p.1, p.2.at' 10, p.2.getInt 11)) fun p => by
      have h1 : (head15 p.2).at' 10 = p.2 10 := by
        rw [head15_at _ (by omega), Buf.at'_of_lt _ (by omega)]
        rfl
      simp only [tagOf, h1, Buf.getInt_congr fun i hi => head15_at p.2 (i := 11 + i) (by omega)]
  refine hread.trans (List.Perm.of_eq (List.map_congr_left fun u _ => ?_))
  simp only [op_of_head15 (b := u.value) rfl, ind_of_head15 (b := u.value) rfl]

/-- A record as merges and searches read it: keyword, op byte and id. -/
def readRecord (b : Block) : Str × Byte × CInt := (b.cstr, b 10, b.getInt 11)

theorem perm_readRecord_of_perm {l : List Block} {us : List Upd}
    (hus : ∀ u ∈ us, Keyword u.keyword)
    (h : (l.map head15).Perm (us.map fun u => head15 u.value)) :
    (l.map readRecord).Perm (us.map fun u => (u.keyword, u.op.toByte, u.ind)) := by
  have htag : ((l.map fun b => (b.cstr, b)).map tagOf).Perm (us.map Upd.tag) := by
    rw [List.map_map]
    exact perm_tag_of_perm hus h
  have hread := perm_read_of_perm htag
  rwa [List.map_map] at hread

/-! ## What a search should return -/

/-- More insertions than deletions of `ind` under `w`. -/
def Live (us : List Upd) (w : Str) (ind : CInt) : Prop :=
  us.count ⟨.DEL, w, ind⟩ < us.count ⟨.INS, w, ind⟩

instance (us : List Upd) (w : Str) (ind : CInt) : Decidable (Live us w ind) :=
  inferInstanceAs (Decidable (_ < _))

theorem totalAt_updates (us : List Upd) (w : Str) (ind : CInt) :
    Tally.totalAt ind ((us.filter fun u => u.keyword = w).map fun u => (u.ind, u.op.weight)) =
      us.count ⟨.DEL, w, ind⟩ - us.count ⟨.INS, w, ind⟩ := by
  induction us with
  | nil => rfl
  | cons u us ih =>
    obtain ⟨op, v, i⟩ := u
    rw [List.filter_cons, List.count_cons, List.count_cons]
    by_cases hv : v = w
    · rw [if_pos (by simpa using hv), List.map_cons, Tally.totalAt_cons, ih]
      by_cases hi : i = ind
      · have hins : OP.weight .INS = -1 := rfl
        have hdel : OP.weight .DEL = 1 := rfl
        cases op
        · simp [hv, hi, hins]
          ring
        · simp [hv, hi, hdel]
          ring
      · simp [hv, hi]
    · simp [hv, ih]

end SmallClientSSE.Static
