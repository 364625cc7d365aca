import SmallClientSSE.Omap.Increment

/-!
# Counter texts in an OMAP

What the increments do to the texts `a-b`. A number that gets one digit longer copies
seventeen bytes, and the last one, a zero, lands in `pos`: that is a leaf of the tree
still (`grown_leaf`), and the end of the operation replaces it. So an increment turns one
text into the next (`Turns`) as long as the new text fits the sixteen bytes of `value`.
-/

namespace SmallClientSSE.Omap

open Lib ORAM BinaryTree

variable {n : Nat}

/-- An increment that turns the text `w` into `w'`. -/
def Turns (f : Increment n) (depth : Nat) (w w' : Str) : Prop :=
  ∀ nd : Node n, nd.value = Buf.zero.copyStr w → Leaf depth nd.pos → ∃ newval nd',
    f nd = some (text (Buf.zero.copyStr w), newval, nd') ∧
      Changed nd nd' (Buf.zero.copyStr w') ∧ Leaf depth nd'.pos

theorem low_byte_cleared {a b : Buf n} {off : Nat} (h0 : a.at' off = 0)
    (h : ∀ i, 0 < i → i < 4 → a.at' (off + i) = b.at' (off + i))
    (hb : 0 ≤ (b.getInt off).val) :
    0 ≤ (a.getInt off).val ∧ (a.getInt off).val ≤ (b.getInt off).val := by
  have hle : a.getUInt off ≤ b.getUInt off := by
    simp only [Buf.getUInt]
    rw [h 1 (by omega) (by omega), h 2 (by omega) (by omega), h 3 (by omega) (by omega), h0]
    omega
  have hlt := b.getUInt_lt off
  simp only [Buf.getInt] at hb ⊢
  split at hb
  · rw [if_pos (by omega), if_pos (by omega)]
    omega
  · omega

section

variable {nd : Node n} {w : Str} {a b : Int} {depth k : Nat}

/-- **A text that grew by a byte** clears the low byte of `pos`. -/
theorem grown_leaf (hw : w.length ≤ 16) (hk : w.length + k ≤ 17) (hleaf : Leaf depth nd.pos)
    (hd : depth ≤ 31) :
    Changed nd (nd.copyValue (w ++ List.replicate k 0)) (Buf.zero.copyStr w) ∧
      Leaf depth (nd.copyValue (w ++ List.replicate k 0)).pos := by
  have hlen : (w ++ List.replicate k (0 : Byte)).length = w.length + k := by simp
  by_cases hshort : w.length + k ≤ 16
  · rw [copyValue_padded (by omega), copyStr_append_zeros]
    exact ⟨⟨nd.pos, rfl⟩, hleaf⟩
  let memory : Buf 20 := (Buf.zero.putInt 16 nd.pos).copyStr (w ++ List.replicate k 0)
  have hbyte : ∀ i, i < 17 → memory.at' i = w.getD i 0 := by
    intro i hi
    rw [Buf.copyStr_at _ _ _ (by omega), if_pos (by omega)]
    by_cases hiw : i < w.length
    · rw [List.getD_append _ _ _ _ hiw]
    · rw [List.getD_append_right _ _ _ _ (by omega), List.getD_eq_default w _ (by omega),
        List.getD_eq_getElem _ _ (by rw [List.length_replicate]; omega), List.getElem_replicate]
  have hvalue : (fun i : Fin 16 => memory ⟨i.val, by omega⟩) = Buf.zero.copyStr w := by
    refine Buf.ext_at fun i hi => ?_
    have hmem := hbyte i (by omega)
    rw [Buf.at'_of_lt _ (by omega)] at hmem
    rw [Buf.at'_of_lt _ hi, Buf.copyStr_zero_at _ _ hi]
    exact hmem
  have heq : nd.copyValue (w ++ List.replicate k 0) = { nd with
      value := Buf.zero.copyStr w
      pos := (memory.getInt 16).val } := by
    simp only [Node.copyValue, link_kept (hlen.trans_le (by omega)), hlen, hshort, if_false, ← hvalue]
    rfl
  rw [heq]
  refine ⟨⟨_, rfl⟩, ?_⟩
  -- `pos` before the copy
  have hin : InInt nd.pos := by
    have hpow : (2 : Int) ^ depth ≤ 2 ^ 31 := by
      exact_mod_cast Nat.pow_le_pow_right (by decide : 0 < 2) hd
    have h1 := hleaf.1
    have h2 := hleaf.2
    constructor <;> omega
  have hpos : ((Buf.zero.putInt 16 nd.pos : Buf 20).getInt 16).val = nd.pos :=
    congrArg Subtype.val (Buf.getInt_putInt 16 ⟨nd.pos, hin⟩ Buf.zero (by decide))
  have hclear : 0 ≤ (memory.getInt 16).val ∧ (memory.getInt 16).val ≤
      ((Buf.zero.putInt 16 nd.pos : Buf 20).getInt 16).val := by
    refine low_byte_cleared ?_ (fun i h0 hi => ?_) (by rw [hpos]; exact hleaf.1)
    · rw [hbyte 16 (by decide), List.getD_eq_default _ _ hw]
    · rw [Buf.copyStr_at _ _ _ (by omega), if_neg (by omega)]
  rw [hpos] at hclear
  exact ⟨hclear.1, lt_of_le_of_lt hclear.2 hleaf.2⟩

/-- **The first number** of a text. -/
theorem incrementFirst_turns (ha : 0 ≤ a) (hb : 0 ≤ b) (ha' : a + 1 < 2 ^ 31)
    (hfit : (pairStr (a + 1) b).length ≤ 16) (hd : depth ≤ 31) :
    Turns (incrementFirst (n := n)) depth (pairStr a b) (pairStr (a + 1) b) := by
  intro nd hval hleaf
  have hgrow := length_intStr_succ ha
  have hlen : (pairStr a b).length ≤ 16 := by
    rw [length_pairStr] at hfit ⊢
    omega
  obtain ⟨hchange, hleaf'⟩ := grown_leaf (k := 16 - (pairStr a b).length) hfit
    (by rw [length_pairStr] at hfit hlen ⊢; rw [length_pairStr]; omega) hleaf hd
  refine ⟨pairStr (a + 1) b ++ List.replicate (16 - (pairStr a b).length) 0, _, ?_, hchange,
    hleaf'⟩
  rw [incrementFirst_eq ha hb (by omega) hval hlen, if_pos ha', hval]
  rfl

/-- **The second number**: the new text is not padded. -/
theorem incrementAwCnt_turns (ha : 0 ≤ a) (hb : 0 ≤ b) (hb' : b + 1 < 2 ^ 31)
    (hfit : (pairStr a (b + 1)).length ≤ 16) :
    Turns (incrementAwCnt (n := n)) depth (pairStr a b) (pairStr a (b + 1)) := by
  intro nd hval hleaf
  have hgrow := length_intStr_succ hb
  have hlen : (pairStr a b).length ≤ 16 := by
    rw [length_pairStr] at hfit ⊢
    omega
  have hsplit : splitData (List.ofFn nd.value) dash =
      [intStr a, intStr b ++ List.replicate (16 - (pairStr a b).length) 0] := by
    rw [hval, ofFn_copyStr hlen, splitData_padded ha hb]
  have hzeros : EndsNumber (List.replicate (16 - (pairStr a b).length) (0 : Byte)) := by
    intro c hc
    obtain rfl := List.eq_of_mem_replicate (List.mem_of_mem_head? hc)
    rfl
  have hstoi := stoi_intStr ⟨b, ⟨by omega, by omega⟩⟩ hzeros
  have hin : InInt (b + 1) := ⟨by omega, hb'⟩
  refine ⟨pairStr a (b + 1), nd.copyValue (pairStr a (b + 1)), ?_, ?_⟩
  · simp only [incrementAwCnt, hsplit, List.getElem?_cons_zero, List.getElem?_cons_succ,
      Option.bind_eq_bind, Option.bind_some, hstoi, hin, guard_true, Option.pure_def]
    rw [hval]
    rfl
  · rw [copyValue_padded hfit]
    exact ⟨⟨nd.pos, rfl⟩, hleaf⟩

theorem isZero_ofStr (hnul : NulFree w) (hne : w ≠ []) :
    (Bid.ofStr w : Bid 16).isZero = false := by
  obtain ⟨c, l, rfl⟩ := List.exists_cons_of_ne_nil hne
  have hc : c ≠ 0 := fun e => hnul (e ▸ List.mem_cons_self)
  have hat : (Bid.ofStr (c :: l) : Bid 16).id.at' 0 = c :=
    Buf.copyStr_zero_at (c :: l) 0 (by decide)
  rw [Bid.isZero, List.all_eq_false]
  exact ⟨3, by decide, by rw [Nat.sub_self, hat]; simpa using hc⟩

theorem nulFree_pairStr (a b : Int) : NulFree (pairStr a b) := by
  unfold NulFree pairStr
  rw [List.mem_append, List.mem_cons, not_or, not_or]
  exact ⟨nulFree_intStr a, by decide, nulFree_intStr b⟩

/-- A text of an OMAP is padded, and read like the text. -/
theorem read_padded (ha : 0 ≤ a) (ha' : a < 2 ^ 31) (hb : 0 ≤ b) (hb' : b < 2 ^ 31)
    (hlen : (pairStr a b).length ≤ 16) :
    parsePair (text (Buf.zero.copyStr (pairStr a b))) = some (a, b) := by
  have hsplit : splitData (text (Buf.zero.copyStr (pairStr a b))) dash =
      [intStr a, intStr b ++ List.replicate (16 - (pairStr a b).length) 0] := by
    rw [text, ofFn_copyStr hlen, splitData_padded ha hb]
  have hzeros : EndsNumber (List.replicate (16 - (pairStr a b).length) (0 : Byte)) := by
    intro c hc
    obtain rfl := List.eq_of_mem_replicate (List.mem_of_mem_head? hc)
    rfl
  have h1 := stoi_intStr_self ⟨a, ⟨by omega, ha'⟩⟩
  have h2 := stoi_intStr ⟨b, ⟨by omega, hb'⟩⟩ hzeros
  simp only at h1 h2
  simp [parsePair, hsplit, h1, h2]

end

/-! ## The operations -/

section

variable {E : Env n} {V : Bid n → Option (Node n)} {t u : Tree n} {m : OMAP n} {key : Bid n}
  {w w' value : Str} {fuel : Nat} {find : Bool} {f below : Increment n}

theorem text_ne_nil (v : Buf 16) : text v ≠ [] := fun h => by
  have hlen : (text v).length = 16 := List.length_ofFn
  rw [h] at hlen
  cases hlen

theorem mem_keys_of_valueOf {v : Buf 16} (h : valueOf key (AVL.pairs t) = some v) :
    key ∈ keys t := by
  by_contra hk
  rw [valueOf_of_notMem hk] at h
  cases h

variable (htape : ∀ i, Leaf m.oram.depth (E.tape i)) (hfuel : t.height < fuel)
  (h : Stored E V t m)
  (hH : t.height ≤ m.oram.maxHeightOfAVLTree ∨ m.oram.depth = 0)

include htape hfuel h hH

/-- **An increment that turns the text of its key into the next.** -/
theorem turn_stored (find : Bool) (hval : valueOf key (AVL.pairs t) = some (Buf.zero.copyStr w))
    (hturns : Turns (if key = m.rootKey then f else below) m.oram.depth w w') :
    ∃ o1 V' m', AVLTree.increment E below f fuel m.rootKey m.rootPos key
        (ORAM.start false m.oram) = some (text (Buf.zero.copyStr w), o1) ∧
      OMAP.finish E find { m with oram := o1 } = some m' ∧ m.rootKey.isZero = false ∧
      Stored E V' (AVL.setValue key (Buf.zero.copyStr w') t) m' ∧ Settings m.oram m'.oram ∧
      m'.oram.readCnt = max (padTo find m.oram.depth)
        (leafCount (places E V m.oram) (searched key t)) := by
  have hk := mem_keys_of_valueOf hval
  refine increment_stored htape hfuel h f below find hk (fun nd hV => ?_) hH
  have ht : t ≠ .nil := by
    rintro rfl
    cases hk
  obtain ⟨md, hVm, hmd⟩ := (h.rooted.repr ht).holds (mem_of_valueOf hval)
  obtain rfl : nd = md := Option.some.inj (hV.symm.trans hVm)
  exact hturns nd hmd (h.rest.pos hV)

theorem incrementOr_turn (find : Bool) (value : Str)
    (hval : valueOf key (AVL.pairs t) = some (Buf.zero.copyStr w))
    (hturns : Turns (if key = m.rootKey then f else below) m.oram.depth w w') :
    ∃ V' m', OMAP.incrementOr E (AVLTree.increment E below f) find value fuel key m =
        some (text (Buf.zero.copyStr w), m') ∧
      Stored E V' (AVL.setValue key (Buf.zero.copyStr w') t) m' ∧ Settings m.oram m'.oram ∧
      m'.oram.readCnt = max (padTo find m.oram.depth)
        (leafCount (places E V m.oram) (searched key t)) := by
  obtain ⟨o1, V', m', ho1, hm', -, hs⟩ := turn_stored htape hfuel h hH find hval hturns
  refine ⟨V', m', ?_, hs⟩
  simp only [OMAP.incrementOr, ho1, Option.bind_eq_bind, Option.bind_some, text_ne_nil, if_false,
    Option.pure_def, hm']

/-- **`incrementAwCnt`** of a key that has counters. -/
theorem incrementAwCnt_turn (hval : valueOf key (AVL.pairs t) = some (Buf.zero.copyStr w))
    (hturns : Turns (n := n)
      (if key = m.rootKey then Omap.incrementAwCnt else Omap.incrementSrcCnt) m.oram.depth w w') :
    ∃ V' m', OMAP.incrementAwCnt E fuel key m = some (text (Buf.zero.copyStr w), m') ∧
      Stored E V' (AVL.setValue key (Buf.zero.copyStr w') t) m' ∧ Settings m.oram m'.oram ∧
      m'.oram.readCnt = max (padTo true m.oram.depth)
        (leafCount (places E V m.oram) (searched key t)) :=
  incrementOr_turn htape hfuel h hH true _ hval hturns

/-- **`incrementSrcCnt`** of a key that has counters. -/
theorem incrementSrcCnt_turn (hval : valueOf key (AVL.pairs t) = some (Buf.zero.copyStr w))
    (hturns : Turns (n := n) Omap.incrementSrcCnt m.oram.depth w w') :
    ∃ V' m', OMAP.incrementSrcCnt E fuel key m = some (text (Buf.zero.copyStr w), m') ∧
      Stored E V' (AVL.setValue key (Buf.zero.copyStr w') t) m' ∧ Settings m.oram m'.oram := by
  have hturns' : Turns (n := n) (if key = m.rootKey then Omap.incrementSrcCnt
      else Omap.incrementSrcCnt) m.oram.depth w w' := by rwa [ite_self]
  obtain ⟨o1, V', m', ho1, hm', hz, hs, hset, -⟩ := turn_stored htape hfuel h hH true hval hturns'
  refine ⟨V', m', ?_, hs, hset⟩
  simp only [OMAP.incrementSrcCnt, AVLTree.incrementSrcCnt, ho1, Option.bind_eq_bind,
    Option.bind_some, OMAP.finishSearch, hz, Bool.false_eq_true, if_false, hm', Option.pure_def]

/-- **`incrementFileCnt`** of a key that has counters. -/
theorem incrementFileCnt_turn (hval : valueOf key (AVL.pairs t) = some (Buf.zero.copyStr w))
    (hturns : Turns (n := n) Omap.incrementFileCnt m.oram.depth w w') :
    ∃ V' m', OMAP.incrementFileCnt E fuel key m = some (text (Buf.zero.copyStr w), m') ∧
      Stored E V' (AVL.setValue key (Buf.zero.copyStr w') t) m' ∧ Settings m.oram m'.oram ∧
      m'.oram.readCnt = max (padTo true m.oram.depth)
        (leafCount (places E V m.oram) (searched key t)) := by
  have hturns' : Turns (n := n) (if key = m.rootKey then Omap.incrementFileCnt
      else Omap.incrementFileCnt) m.oram.depth w w' := by rwa [ite_self]
  obtain ⟨V', m', hm', hs⟩ := incrementOr_turn htape hfuel h hH true [49, dash, 48] hval hturns'
  exact ⟨V', m', by
    rw [OMAP.incrementFileCnt, AVLTree.incrementFileCnt, hm', Option.map_some, if_neg (text_ne_nil _)],
    hs⟩

omit hH

/-- **`incrementAwCnt`** of a new key. -/
theorem incrementAwCnt_absent (hk : key ∉ keys t) (hreal : real E key = true)
    (hu : AVL.insert key (Buf.zero.copyStr (pairStr 0 0)) t = some u) :
    ∃ V' m', OMAP.incrementAwCnt E fuel key m = some ([], m') ∧
      (u.height ≤ m.oram.maxHeightOfAVLTree ∨ m.oram.depth = 0 → Stored E V' u m') ∧
      Settings m.oram m'.oram := by
  obtain ⟨V', m', hm', -, -, hs, hset, -⟩ := incrementOr_absent htape hfuel h _ _ (by decide)
    hk hreal hu
  exact ⟨V', m', hm', hs, hset⟩

/-- **`incrementFileCnt`** of a new key. -/
theorem incrementFileCnt_absent (hk : key ∉ keys t) (hreal : real E key = true)
    (hu : AVL.insert key (Buf.zero.copyStr (pairStr 1 0)) t = some u) :
    ∃ V' m', OMAP.incrementFileCnt E fuel key m = some (pairStr 0 0, m') ∧ Rest E V' m'.oram ∧
      (∃ k nd, V' k = some nd ∧ nd.height = u.height) ∧
      (u.height ≤ m.oram.maxHeightOfAVLTree ∨ m.oram.depth = 0 → Stored E V' u m') ∧
      Settings m.oram m'.oram ∧ m'.oram.readCnt = max (padTo true m.oram.depth)
        (leafCount (places E V m.oram) (key :: visited key t) +
          reread (places E V m.oram) [] key t) := by
  obtain ⟨V', m', hm', hs⟩ := incrementOr_absent htape hfuel h Omap.incrementFileCnt
    Omap.incrementFileCnt (show (pairStr 1 0).length ≤ 16 by decide) hk hreal hu
  exact ⟨V', m', by
    rw [OMAP.incrementFileCnt, AVLTree.incrementFileCnt, show [49, dash, 48] = pairStr 1 0 from rfl,
      hm']
    rfl, hs⟩

end

end SmallClientSSE.Omap
