import SmallClientSSE.Mitra.Records

/-!
# Mitra search is exact

`Entry` is the invariant of one keyword: its counter text, its records on the
server under the current `srcCnt`, and the net weight of each id, which says
whether the last update of the id was an insertion. Every call keeps an entry
for every keyword; the clean-up of a search replaces the records of its keyword
by one insertion per live id, with the same net weights.
-/

namespace SmallClientSSE.Mitra

open Lib

/-! ## Histories -/

def Call.touches (w : Str) : Call → Bool
  | .update _ k _ _ => k == w
  | .search k => k == w
  | .endSetup => false

def callsOn (w : Str) (calls : List Call) : Nat := calls.countP (Call.touches w)

def opsOf (calls : List Call) (w : Str) (ind : CInt) : List OP := calls.filterMap fun
  | .update op k i _ => if k = w ∧ i = ind then some op else none
  | _ => none

/-- Insertions and deletions alternate, an insertion first. -/
def Alternates (l : List OP) : Prop :=
  ∀ i (h : i < l.length), l[i] = if i % 2 = 0 then .INS else .DEL

instance (l : List OP) : Decidable (Alternates l) :=
  inferInstanceAs (Decidable (∀ i (h : i < l.length), l[i] = if i % 2 = 0 then .INS else .DEL))

/-- The last update of the pair is an insertion. -/
def Live (calls : List Call) (w : Str) (ind : CInt) : Prop :=
  (opsOf calls w ind).getLast? = some .INS

instance (calls : List Call) (w : Str) (ind : CInt) : Decidable (Live calls w ind) :=
  inferInstanceAs (Decidable (_ = _))

def Call.isSetup : Call → Bool
  | .update _ _ _ setup => setup
  | _ => false

def Call.isOnline : Call → Bool
  | .update _ _ _ setup => !setup
  | .search _ => true
  | .endSetup => false

/-- Setup updates come first and are closed by `endSetup`. -/
inductive Phased : List Call → Prop where
  | online {cs : List Call} (h : ∀ c ∈ cs, c.isOnline = true) : Phased cs
  | setup {ps cs : List Call} (hp : ∀ c ∈ ps, c.isSetup = true)
      (hc : ∀ c ∈ cs, c.isOnline = true) : Phased (ps ++ .endSetup :: cs)

def Call.keyword? : Call → Option Str
  | .update _ k _ _ => some k
  | .search k => some k
  | .endSetup => none

theorem callsOn_append (w : Str) (cs ds : List Call) :
    callsOn w (cs ++ ds) = callsOn w cs + callsOn w ds := by
  simp [callsOn]

theorem opsOf_append (cs ds : List Call) (w : Str) (ind : CInt) :
    opsOf (cs ++ ds) w ind = opsOf cs w ind ++ opsOf ds w ind := by
  simp [opsOf]

theorem live_append_of_nil {cs ds : List Call} {w : Str} {ind : CInt} (h : opsOf ds w ind = []) :
    Live (cs ++ ds) w ind ↔ Live cs w ind := by
  simp only [Live, opsOf_append, h, List.append_nil]

theorem callsOn_mono {w : Str} {cs ds : List Call} (h : cs <+: ds) : callsOn w cs ≤ callsOn w ds := by
  obtain ⟨t, rfl⟩ := h
  rw [callsOn_append]
  omega

theorem Alternates.left {l m : List OP} (h : Alternates (l ++ m)) : Alternates l := by
  intro i hi
  have := h i (by simp; omega)
  rwa [List.getElem_append_left hi] at this

/-- In an alternating history an insertion follows a non-live pair, a deletion a live one. -/
theorem Alternates.snoc {l : List OP} {op : OP} (h : Alternates (l ++ [op])) :
    l.getLast? = some .INS ↔ op = .DEL := by
  have hop := h l.length (by simp)
  simp only [List.getElem_append_right (Nat.le_refl _), Nat.sub_self, List.getElem_singleton] at hop
  rcases Nat.eq_zero_or_pos l.length with h0 | hpos
  · have : l = [] := List.length_eq_zero_iff.mp h0
    subst this
    simp only [List.length_nil, Nat.zero_mod, if_true] at hop
    simp [hop]
  · have hlast := h.left (l.length - 1) (by omega)
    rw [List.getLast?_eq_getElem?, List.getElem?_eq_getElem (by omega), hlast, hop]
    rcases Nat.mod_two_eq_zero_or_one l.length with h2 | h2
    · simp [show (l.length - 1) % 2 = 1 by omega, h2]
    · simp [show (l.length - 1) % 2 = 0 by omega, h2]

/-! ## The invariant -/

/-- The counter text of `len` records at `src`; a keyword never stored has none. -/
def cntText (len src : Nat) : Option Str :=
  if src = 0 ∧ len = 0 then none else some (pairStr len src)

section

variable (E : Env) (df : Bool)

structure Entry (calls : List Call) (m : FMap 16) (s : Server) (w : Str) (src : Nat)
    (recs : List (OP × CInt)) : Prop where
  text : m (Bid.ofStr w) = cntText recs.length src
  stored : Stored E df w s.DictW src 1 recs
  sent : ∀ i, 1 ≤ i → i ≤ recs.length →
    Msg.update (addr E df w 0 src i) (s.DictW (addr E df w 0 src i)) ∈ s.trace
  src_le : src ≤ callsOn w calls
  len_le : recs.length ≤ callsOn w calls
  src_zero : df = false → src = 0
  net : ∀ ind, Tally.totalAt ind (weights recs) = if Live calls w ind then -1 else 0

/-- The counter map in use: `setupOMAP` during setup, the OMAP afterwards. -/
def mapOf (setup : Bool) (c : Client) : FMap 16 := if setup then c.setupOMAP else c.omap

structure Inv (calls : List Call) (setup : Bool) (st : Client × Server) : Prop where
  mode : st.1.deleteFiles = df
  remote : st.1.localStorage = false
  empty : setup = true → st.1.omap = fun _ => none
  entries : ∀ w, Keyword w → ∃ src recs, Entry E df calls (mapOf setup st.1) st.2 w src recs

/-- Addresses of different records differ, up to `b w` records and searches of each `w`. -/
def AddrInj (b : Str → Nat) : Prop :=
  ∀ ⦃w w' : Str⦄ ⦃s s' c c' : Nat⦄, Keyword w → Keyword w' → s ≤ b w → s' ≤ b w' →
    1 ≤ c → c ≤ b w → 1 ≤ c' → c' ≤ b w' → addr E df w 0 s c = addr E df w' 0 s' c' →
    w = w' ∧ (df = true → s = s') ∧ c = c'

end

section

variable {E : Env} {df : Bool} {calls : List Call} {st : Client × Server}

theorem cntText_find (m : FMap 16) (w : Str) {len src : Nat}
    (h : m (Bid.ofStr w) = cntText len src) :
    m.find (Bid.ofStr w) = if src = 0 ∧ len = 0 then [] else pairStr len src := by
  rw [FMap.find, h, cntText]
  split <;> rfl

theorem parsePair_cnt {len src : Nat} (hl : len < 2 ^ 31) (hs : src < 2 ^ 31) :
    parsePair (pairStr len src) = some ((len : Int), (src : Int)) :=
  parsePair_pairStr (by omega) (by omega) (by omega) (by omega)

theorem incrementFileCnt_spec {m : FMap 16} {w : Str} {len src : Nat}
    (h : m (Bid.ofStr w) = cntText len src) (hl : len + 1 < 2 ^ 31) :
    incrementFileCnt m (Bid.ofStr w) =
      some (pairStr len src, m.insert (Bid.ofStr w) (pairStr (len + 1 : Nat) src)) := by
  by_cases hz : src = 0 ∧ len = 0
  · obtain ⟨rfl, rfl⟩ := hz
    simp only [incrementFileCnt, h, cntText, and_self, if_true]
    rfl
  · obtain ⟨z, hstoi, hval⟩ : ∃ z : CInt, stoi (intStr len) = some z ∧ z.val = len :=
      ⟨⟨len, by omega, by omega⟩, stoi_intStr_self ⟨len, by omega, by omega⟩, rfl⟩
    have hin : InInt (z.val + 1) := ⟨by omega, by omega⟩
    simp only [incrementFileCnt, h, cntText, if_neg hz]
    rw [splitData_pairStr (by omega) (by omega)]
    simp only [List.getElem?_cons_zero, List.getElem?_cons_succ, Option.bind_eq_bind,
      Option.bind_some, hstoi, hin, guard_true, Option.pure_def]
    rw [hval, pairStr, pairStr, Nat.cast_succ]

theorem incrementFileCnt_overflow {m : FMap 16} {w : Str} {len src : Nat}
    (h : m (Bid.ofStr w) = cntText len src) (hl : len + 1 = 2 ^ 31) :
    incrementFileCnt m (Bid.ofStr w) = none := by
  obtain ⟨z, hstoi, hval⟩ : ∃ z : CInt, stoi (intStr len) = some z ∧ z.val = len :=
    ⟨⟨len, by omega, by omega⟩, stoi_intStr_self ⟨len, by omega, by omega⟩, rfl⟩
  have hout : ¬ InInt (z.val + 1) := fun hin => by
    have := hin.2
    omega
  simp only [incrementFileCnt, h, cntText, if_neg (show ¬ (src = 0 ∧ len = 0) by omega)]
  rw [splitData_pairStr (by omega) (by omega)]
  simp only [List.getElem?_cons_zero, List.getElem?_cons_succ, Option.bind_eq_bind,
    Option.bind_some, hstoi, hout, guard_false, Option.failure_eq_none, Option.bind_none]

theorem bumpOmap_spec {c : Client} {w : Str} {setup : Bool} {len src : Nat}
    (h : mapOf setup c (Bid.ofStr w) = cntText len src) (hl : len + 1 < 2 ^ 31)
    (hs : src < 2 ^ 31) :
    ∃ c', bumpOmap c w setup = some (c', ((len + 1 : Nat) : Int), (src : Int)) ∧
      c'.deleteFiles = c.deleteFiles ∧ c'.localStorage = c.localStorage ∧
      (setup = true → c'.omap = c.omap) ∧
      mapOf setup c' = (mapOf setup c).insert (Bid.ofStr w) (pairStr (len + 1 : Nat) src) := by
  obtain ⟨a, ha⟩ : ∃ a : Int, (len : Int) = a := ⟨_, rfl⟩
  have hin : InInt (a + 1) := ⟨by omega, by omega⟩
  have hparse : parsePair (pairStr a src) = some (a, (src : Int)) :=
    ha ▸ parsePair_cnt (by omega) hs
  rw [Nat.cast_succ, ha]
  cases setup with
  | true =>
    simp only [mapOf, if_true] at h ⊢
    refine ⟨{ c with setupOMAP := c.setupOMAP.insert (Bid.ofStr w) (pairStr (a + 1) src) },
      ?_, rfl, rfl, fun _ => rfl, rfl⟩
    by_cases hz : src = 0 ∧ len = 0
    · obtain ⟨rfl, rfl⟩ := hz
      obtain rfl : 0 = a := ha
      simp [bumpOmap, cntText_find _ _ h, show InInt 1 by decide]
    · simp [bumpOmap, cntText_find _ _ h, hz, pairStr_ne_nil, ha, hparse, hin]
  | false =>
    simp only [mapOf, Bool.false_eq_true, if_false] at h ⊢
    refine ⟨{ c with omap := c.omap.insert (Bid.ofStr w) (pairStr (a + 1) src) },
      ?_, rfl, rfl, fun h => absurd h (by simp), rfl⟩
    have hinc := incrementFileCnt_spec h hl
    rw [Nat.cast_succ, ha] at hinc
    simp only [bumpOmap, Bool.false_eq_true, if_false, hinc, Option.map_some,
      Option.bind_eq_bind, Option.bind_some, ne_eq, pairStr_ne_nil, not_false_eq_true, if_true,
      hparse, hin, guard_true, Option.pure_def]

/-- An entry survives whatever leaves its counter text, its addresses and its history alone. -/
theorem Entry.frame {m m' : FMap 16} {s s' : Server} {w : Str} {src : Nat}
    {recs : List (OP × CInt)} {a : Call} (h : Entry E df calls m s w src recs)
    (hm : m' (Bid.ofStr w) = m (Bid.ofStr w))
    (hD : ∀ j, 1 ≤ j → j ≤ recs.length → s'.DictW (addr E df w 0 src j) = s.DictW (addr E df w 0 src j))
    (ht : ∀ x ∈ s.trace, x ∈ s'.trace) (ha : ∀ ind, opsOf [a] w ind = []) :
    Entry E df (calls ++ [a]) m' s' w src recs where
  text := hm.trans h.text
  stored := h.stored.congr fun j h1 h2 => hD j h1 (by omega)
  sent j h1 h2 := by rw [hD j h1 h2]; exact ht _ (h.sent j h1 h2)
  src_le := h.src_le.trans (callsOn_mono (List.prefix_append _ _))
  len_le := h.len_le.trans (callsOn_mono (List.prefix_append _ _))
  src_zero := h.src_zero
  net ind := by simp only [h.net, live_append_of_nil (ha ind)]

theorem callsOn_snoc_self {w : Str} {a : Call} (h : a.touches w = true) :
    callsOn w (calls ++ [a]) = callsOn w calls + 1 := by
  rw [callsOn_append]
  simp [callsOn, h]

/-! ## One update -/

theorem update_step {b : Str → Nat} {op : OP} {w : Str} {ind : CInt} {setup : Bool}
    (hI : Inv E df calls setup st) (hw : Keyword w) (hinj : AddrInj E df b)
    (hb : ∀ v, callsOn v (calls ++ [.update op w ind setup]) ≤ b v) (hb31 : ∀ v, b v < 2 ^ 31)
    (halt : Alternates (opsOf (calls ++ [.update op w ind setup]) w ind)) :
    ∃ st', update E st.1 st.2 op w ind setup = some st' ∧
      Inv E df (calls ++ [.update op w ind setup]) setup st' := by
  obtain ⟨src, recs, he⟩ := hI.entries w hw
  have hself : callsOn w (calls ++ [.update op w ind setup]) = callsOn w calls + 1 :=
    callsOn_snoc_self (by simp [Call.touches])
  have hbw := hb w
  have hbw31 := hb31 w
  have hle1 := he.src_le
  have hle2 := he.len_le
  obtain ⟨c1, hbump, hmode, hrem, hom, hmap⟩ :=
    bumpOmap_spec he.text (show recs.length + 1 < 2 ^ 31 by omega) (show src < 2 ^ 31 by omega)
  obtain ⟨k', hput, -⟩ := put_spec (E := E) (w := w) c1 st.2 (hmode.trans hI.mode) sameKw_kw op
    ind.val src (recs.length + 1)
  refine ⟨({ c1 with rands := c1.rands + 1 }, st.2.update (addr E df w 0 src (recs.length + 1))
    (bitwiseXORInt ind.val op (addr E df w 1 src (recs.length + 1)) (E.rand c1.rands))), ?_,
    hmode.trans hI.mode, hrem.trans hI.remote, fun h => (hom h).trans (hI.empty h), ?_⟩
  · simp only [update, hI.remote, Bool.false_eq_true, if_false, hbump, Option.bind_eq_bind,
      Option.bind_some]
    rw [hput]
    rfl
  intro v hv
  by_cases hvw : v = w
  · subst hvw
    refine ⟨src, recs ++ [(op, ind)], ?_, ?_, ?_, ?_, ?_, he.src_zero, ?_⟩
    · show mapOf setup c1 _ = _
      rw [hmap, FMap.insert_self, cntText, if_neg (by simp)]
      simp
    · refine stored_append.mpr ⟨he.stored.congr fun j h1 h2 => ?_, ?_⟩
      · have : addr E df v 0 src j ≠ addr E df v 0 src (recs.length + 1) := fun e => by
          have := (hinj hv hv (by omega) (by omega) h1 (by omega) (by omega) (by omega) e).2.2
          omega
        simp [Server.update, this]
      · rw [Nat.add_comm 1]
        exact ⟨E.rand c1.rands, by simp [Server.update]⟩
    · intro j h1 h2
      simp only [List.length_append, List.length_singleton] at h2
      by_cases hj : j = recs.length + 1
      · subst hj
        simp [Server.update]
      · have : addr E df v 0 src j ≠ addr E df v 0 src (recs.length + 1) := fun e => by
          have := (hinj hv hv (by omega) (by omega) h1 (by omega) (by omega) (by omega) e).2.2
          omega
        have hs := he.sent j h1 (by omega)
        simp [Server.update, this, hs]
    · omega
    · simp only [List.length_append, List.length_singleton]; omega
    · intro i
      simp only [weights, List.map_append, List.map_cons, List.map_nil, Tally.totalAt_append,
        Tally.totalAt_cons, Tally.totalAt_nil]
      have hn := he.net i
      simp only [weights] at hn
      rw [hn]
      by_cases hi : ind = i
      · subst hi
        have hops : opsOf (calls ++ [.update op v ind setup]) v ind = opsOf calls v ind ++ [op] := by
          rw [opsOf_append]; simp [opsOf]
        rw [hops] at halt
        have := halt.snoc
        cases op with
        | INS => simp [Live, hops, this, OP.weight]
        | DEL => simp [Live, hops, this, OP.weight]
      · have hlive : Live (calls ++ [.update op v ind setup]) v i ↔ Live calls v i :=
          live_append_of_nil (by simp [opsOf, hi])
        simp [hlive, hi]
  · obtain ⟨src', recs', he'⟩ := hI.entries v hv
    refine ⟨src', recs', he'.frame ?_ ?_ ?_ ?_⟩
    · show mapOf setup c1 _ = _
      rw [hmap, FMap.insert_of_ne _ fun e => hvw (Bid.ofStr_inj hv.1 hw.1 (by have := hv.2; omega)
        (by have := hw.2; omega) e)]
    · intro j h1 h2
      have hbv := hb v
      have hmono := callsOn_mono (w := v) (List.prefix_append calls [.update op w ind setup])
      have hle3 := he'.src_le
      have hle4 := he'.len_le
      have : addr E df v 0 src' j ≠ addr E df w 0 src (recs.length + 1) := fun e => hvw
        (hinj hv hw (by omega) (by omega) h1 (by omega) (by omega) (by omega) e).1
      simp [Server.update, this]
    · exact fun x hx => List.mem_cons_of_mem _ hx
    · intro i
      simp [opsOf, Ne.symm hvw]

end

end SmallClientSSE.Mitra
