import SmallClientSSE.Mitra.Exact

/-!
# Addresses are fresh

The server sees every address once before it is written: the counters of a
keyword only move forward, by one record with every update and by one `srcCnt`
with every clean-up. `Spent` bounds the addresses used so far by the current
counters, whatever the records say (`writes_fresh`).
-/

namespace SmallClientSSE.Mitra

open Lib

def Msg.addr : Msg → Block
  | .update a _ => a
  | .query a => a

/-- Every address written differs from those written or queried before; the trace
is latest first. -/
def FreshWrites : List Msg → Prop
  | [] => True
  | .update a _ :: ms => (∀ m ∈ ms, m.addr ≠ a) ∧ FreshWrites ms
  | .query _ :: ms => FreshWrites ms

theorem freshWrites_queries {as : List Block} {ms : List Msg} (h : FreshWrites ms) :
    FreshWrites (as.map Msg.query ++ ms) := by
  induction as with
  | nil => exact h
  | cons a as ih => exact ih

section

variable (E : Env) (df : Bool)

/-- The counters of every keyword, and the addresses below them. -/
structure Spent (b : Str → Nat) (calls : List Call) (m : FMap 16) (s : Server)
    (src len : Str → Nat) : Prop where
  text : ∀ w, Keyword w → m (Bid.ofStr w) = cntText (len w) (src w)
  src_le : ∀ w, src w ≤ callsOn w calls
  len_le : ∀ w, len w ≤ callsOn w calls
  src_zero : df = false → ∀ w, src w = 0
  used : ∀ x ∈ s.trace, ∃ w t c, Keyword w ∧ t ≤ src w ∧ (t = src w → c ≤ len w) ∧ 1 ≤ c ∧
    c ≤ b w ∧ x.addr = addr E df w 0 t c
  fresh : FreshWrites s.trace

/-- The counters are the ones in the map in use. -/
def SpentInv (b : Str → Nat) (calls : List Call) (setup : Bool) (st : Client × Server) : Prop :=
  st.1.deleteFiles = df ∧ st.1.localStorage = false ∧ (setup = true → st.1.omap = fun _ => none) ∧
    ∃ src len, Spent E df b calls (mapOf setup st.1) st.2 src len

end

section

variable {E : Env} {df setup : Bool} {b : Str → Nat} {calls : List Call} {m m' : FMap 16}
  {s s' : Server} {src len : Str → Nat} {st : Client × Server} {w : Str}

/-- The next address of a keyword has not been used. -/
theorem Spent.next_fresh (h : Spent E df b calls m s src len) (hinj : AddrInj E df b)
    (hb : ∀ v, callsOn v calls ≤ b v) (hw : Keyword w) {t c : Nat} (ht : t ≤ b w) (hc1 : 1 ≤ c)
    (hc : c ≤ b w) (hnew : src w < t ∧ df = true ∨ src w = t ∧ len w < c) :
    ∀ x ∈ s.trace, x.addr ≠ addr E df w 0 t c := by
  intro x hx e
  obtain ⟨v, t', c', hv, ht', hc', hc1', hcb', hxa⟩ := h.used x hx
  have hsv := h.src_le v
  have hbv := hb v
  obtain ⟨rfl, h1, rfl⟩ := hinj hv hw (by omega) ht hc1' hcb' hc1 hc (hxa.symm.trans e)
  rcases hnew with ⟨h2, h3⟩ | ⟨h2, h3⟩
  · have := h1 h3
    omega
  · by_cases hdf : df = true
    · have := hc' ((h1 hdf).trans h2.symm)
      omega
    · have h0 := h.src_zero (Bool.eq_false_of_not_eq_true hdf) v
      have := hc' (by omega)
      omega

/-- Other counters text and an address used already leave things as they are. -/
theorem Spent.mono (h : Spent E df b calls m s src len) {a : Call} :
    Spent E df b (calls ++ [a]) m s src len :=
  ⟨h.text, fun v => (h.src_le v).trans (callsOn_mono (List.prefix_append _ _)),
    fun v => (h.len_le v).trans (callsOn_mono (List.prefix_append _ _)), h.src_zero, h.used, h.fresh⟩

/-- **One update** uses the next address of its keyword. -/
theorem update_fresh {op : OP} {ind : CInt} (hI : SpentInv E df b calls setup st) (hw : Keyword w)
    (hinj : AddrInj E df b) (hb : ∀ v, callsOn v (calls ++ [.update op w ind setup]) ≤ b v)
    (hb31 : ∀ v, b v < 2 ^ 31) :
    ∃ st', update E st.1 st.2 op w ind setup = some st' ∧
      SpentInv E df b (calls ++ [.update op w ind setup]) setup st' := by
  obtain ⟨hmode, hrem, hemp, src, len, h⟩ := hI
  have hself : callsOn w (calls ++ [.update op w ind setup]) = callsOn w calls + 1 :=
    callsOn_snoc_self (by simp [Call.touches])
  have hbw := hb w
  have hbw31 := hb31 w
  have hle1 := h.src_le w
  have hle2 := h.len_le w
  obtain ⟨c1, hbump, hmode1, hrem1, hom, hmap⟩ := bumpOmap_spec (h.text w hw)
    (show len w + 1 < 2 ^ 31 by omega) (show src w < 2 ^ 31 by omega)
  obtain ⟨k', hput, -⟩ := put_spec (E := E) (w := w) c1 st.2 (hmode1.trans hmode) sameKw_kw op
    ind.val (src w) (len w + 1)
  refine ⟨({ c1 with rands := c1.rands + 1 }, st.2.update (addr E df w 0 (src w) (len w + 1))
    (bitwiseXORInt ind.val op (addr E df w 1 (src w) (len w + 1)) (E.rand c1.rands))), ?_,
    hmode1.trans hmode, hrem1.trans hrem, fun e => (hom e).trans (hemp e), src,
    Function.update len w (len w + 1), ?_⟩
  · simp only [update, hrem, Bool.false_eq_true, if_false, hbump, Option.bind_eq_bind,
      Option.bind_some]
    rw [hput]
    rfl
  · have hlen : ∀ v, len v ≤ Function.update len w (len w + 1) v := fun v => by
      rw [Function.update_apply]
      split
      · next e => rw [e]; omega
      · exact le_rfl
    refine ⟨fun v hv => ?_, h.mono.src_le, fun v => ?_, h.src_zero, fun x hx => ?_, ?_, h.fresh⟩
    · show mapOf setup c1 _ = _
      rw [hmap, Function.update_apply]
      split
      · next e =>
        rw [e, FMap.insert_self, cntText, if_neg (by omega)]
      · next e =>
        rw [FMap.insert_of_ne _ fun he => e (Bid.ofStr_inj hv.1 hw.1 (by have := hv.2; omega)
          (by have := hw.2; omega) he)]
        exact h.text v hv
    · rw [Function.update_apply]
      split
      · next e => rw [e, hself]; omega
      · exact h.mono.len_le v
    · rcases List.mem_cons.mp hx with rfl | hx
      · exact ⟨w, src w, len w + 1, hw, le_rfl, fun _ => by rw [Function.update_self], by omega,
          by omega, rfl⟩
      · obtain ⟨v, t, c, hv, ht, hc, h1, h2, h3⟩ := h.used x hx
        exact ⟨v, t, c, hv, ht, fun e => (hc e).trans (hlen v), h1, h2, h3⟩
    · exact h.next_fresh hinj (fun v => (callsOn_mono (List.prefix_append _ _)).trans (hb v)) hw
        (by omega) (by omega) (by omega) (.inr ⟨rfl, by omega⟩)

/-! ## The clean-up -/

/-- Writing some ids back sends the next addresses in turn. -/
theorem rewrite_trace (src : Nat) (inds : List CInt) :
    ∀ (c : Client) (s : Server) (k : Block) (cnt : Nat), c.deleteFiles = df → SameKw df w k →
      ∃ n s' k', rewrite E src c s k cnt inds =
          ({ c with rands := n }, s', k', ((cnt + inds.length : Nat) : Int)) ∧
        ∃ new : List Msg, s'.trace = new ++ s.trace ∧ new.map Msg.addr =
          ((List.range' (cnt + 1) inds.length).map (addr E df w 0 src)).reverse ∧
          ∀ x ∈ new, ∃ a v, x = .update a v := by
  induction inds with
  | nil => exact fun c s k cnt _ _ => ⟨c.rands, s, k, rfl, [], rfl, rfl, fun _ h => absurd h (by simp)⟩
  | cons ind inds ih =>
    intro c s k cnt hc hk
    obtain ⟨k1, hput, hk1⟩ := put_spec (E := E) c s hc hk .INS ind.val src (cnt + 1)
    obtain ⟨n, s', k', hrw, new, ht, ha, hu⟩ := ih { c with rands := c.rands + 1 }
      (s.update (addr E df w 0 src (cnt + 1))
        (bitwiseXORInt ind.val .INS (addr E df w 1 src (cnt + 1)) (E.rand c.rands)))
      k1 (cnt + 1) hc hk1
    refine ⟨n, s', k', ?_, new ++ [.update (addr E df w 0 src (cnt + 1))
      (bitwiseXORInt ind.val .INS (addr E df w 1 src (cnt + 1)) (E.rand c.rands))], ?_, ?_, ?_⟩
    · simp only [rewrite]
      rw [← Nat.cast_succ, hput]
      simp only
      rw [hrw]
      simp only [Prod.mk.injEq, true_and, List.length_cons]
      congr 1
      omega
    · rw [ht]
      simp [Server.update]
    · rw [List.map_append, ha, List.length_cons, List.range'_succ]
      simp [Msg.addr]
    · intro x hx
      rcases List.mem_append.mp hx with hx | hx
      · exact hu x hx
      · exact ⟨_, _, List.mem_singleton.mp hx⟩

theorem length_decodeAll (src : Int) (vs : List Block) :
    ∀ (k : Block) (cnt : Int), (decodeAll E df src k cnt vs).2.length = vs.length := by
  induction vs with
  | nil => exact fun _ _ => rfl
  | cons v vs ih => exact fun k cnt => congrArg (· + 1) (ih _ _)

theorem sameKw_decodeAll (src : Int) (vs : List Block) :
    ∀ (k : Block) (cnt : Int), SameKw df w k → SameKw df w (decodeAll E df src k cnt vs).1 := by
  induction vs with
  | nil => exact fun _ _ h => h
  | cons v vs ih => exact fun k cnt h => ih _ _ (h.prfInput _ _ _)

theorem freshWrites_new {new ms : List Msg} (hu : ∀ x ∈ new, ∃ a v, x = Msg.update a v)
    (hnd : (new.map Msg.addr).Nodup) (hne : ∀ x ∈ new, ∀ y ∈ ms, y.addr ≠ x.addr)
    (h : FreshWrites ms) : FreshWrites (new ++ ms) := by
  induction new with
  | nil => exact h
  | cons x new ih =>
    obtain ⟨a, v, rfl⟩ := hu x List.mem_cons_self
    obtain ⟨h1, h2⟩ := List.nodup_cons.mp hnd
    refine ⟨fun y hy => ?_, ih (fun z hz => hu z (List.mem_cons_of_mem _ hz)) h2
      fun z hz => hne z (List.mem_cons_of_mem _ hz)⟩
    rcases List.mem_append.mp hy with hy | hy
    · intro e
      refine h1 ?_
      rw [← show y.addr = (Msg.update a v).addr from e]
      exact List.mem_map_of_mem hy
    · exact hne _ List.mem_cons_self y hy

theorem Spent.queried (h : Spent E df b calls m s src len) (hw : Keyword w)
    (hb : callsOn w calls ≤ b w) {as : List Block}
    (has : ∀ a ∈ as, ∃ c, 1 ≤ c ∧ c ≤ len w ∧ a = addr E df w 0 (src w) c) :
    Spent E df b calls m (s.search as).2 src len := by
  have hle := h.len_le w
  refine ⟨h.text, h.src_le, h.len_le, h.src_zero, fun x hx => ?_, ?_⟩
  · rcases List.mem_append.mp hx with hx | hx
    · rw [List.mem_reverse] at hx
      obtain ⟨a, ha, rfl⟩ := List.mem_map.mp hx
      obtain ⟨c, h1, h2, rfl⟩ := has a ha
      exact ⟨w, src w, c, hw, le_rfl, fun _ => h2, h1, by omega, rfl⟩
    · exact h.used x hx
  · show FreshWrites ((as.map Msg.query).reverse ++ s.trace)
    rw [← List.map_reverse]
    exact freshWrites_queries h.fresh

/-- A clean-up moves its keyword to the next `srcCnt` and to the `k` records it wrote. -/
theorem Spent.rewritten (h : Spent E true b calls m s src len) (hw : Keyword w)
    (hinj : AddrInj E true b) (hb : ∀ v, callsOn v calls ≤ b v) {k : Nat} {new : List Msg}
    (hsrc : src w + 1 ≤ callsOn w calls) (hk : k ≤ callsOn w calls)
    (ht : s'.trace = new ++ s.trace)
    (ha : new.map Msg.addr = ((List.range' 1 k).map (addr E true w 0 (src w + 1))).reverse)
    (hu : ∀ x ∈ new, ∃ a v, x = .update a v) :
    Spent E true b calls (m.insert (Bid.ofStr w) (pairStr k (src w + 1 : Nat))) s'
      (Function.update src w (src w + 1)) (Function.update len w k) := by
  have hbw := hb w
  have hmono : ∀ v, src v ≤ Function.update src w (src w + 1) v := fun v => by
    rw [Function.update_apply]
    split
    · next e => rw [e]; omega
    · exact le_rfl
  have hnew : ∀ x ∈ new, ∃ c, 1 ≤ c ∧ c ≤ k ∧ x.addr = addr E true w 0 (src w + 1) c := by
    intro x hx
    have hmem := List.mem_map_of_mem (f := Msg.addr) hx
    rw [ha, List.mem_reverse] at hmem
    obtain ⟨c, hc, he⟩ := List.mem_map.mp hmem
    rw [List.mem_range'_1] at hc
    exact ⟨c, hc.1, by omega, he.symm⟩
  refine ⟨fun v hv => ?_, fun v => ?_, fun v => ?_, fun e => absurd e (by simp), fun x hx => ?_, ?_⟩
  · by_cases hvw : v = w
    · rw [hvw, Function.update_self, Function.update_self, FMap.insert_self, cntText,
        if_neg (by omega)]
    · rw [Function.update_of_ne hvw, Function.update_of_ne hvw, FMap.insert_of_ne _ fun he => hvw
        (Bid.ofStr_inj hv.1 hw.1 (by have := hv.2; omega) (by have := hw.2; omega) he)]
      exact h.text v hv
  · rw [Function.update_apply]
    split
    · next e => rw [e]; exact hsrc
    · exact h.src_le v
  · rw [Function.update_apply]
    split
    · next e => rw [e]; exact hk
    · exact h.len_le v
  · rw [ht] at hx
    rcases List.mem_append.mp hx with hx | hx
    · obtain ⟨c, h1, h2, he⟩ := hnew x hx
      exact ⟨w, src w + 1, c, hw, by rw [Function.update_self], fun _ => by
        rw [Function.update_self]; exact h2, h1, by omega, he⟩
    · obtain ⟨v, t, c, hv, ht', hc, h1, h2, h3⟩ := h.used x hx
      refine ⟨v, t, c, hv, ht'.trans (hmono v), fun e => ?_, h1, h2, h3⟩
      by_cases hvw : v = w
      · rw [hvw, Function.update_self] at e
        rw [hvw] at ht'
        omega
      · rw [Function.update_of_ne hvw] at e ⊢
        exact hc e
  · rw [ht]
    refine freshWrites_new hu ?_ (fun x hx => ?_) h.fresh
    · rw [ha, List.nodup_reverse]
      refine List.Nodup.map_on (fun i hi j hj e => ?_) List.nodup_range'
      rw [List.mem_range'_1] at hi hj
      exact (hinj hw hw (by omega) (by omega) (by omega) (by omega) (by omega) (by omega) e).2.2
    · obtain ⟨c, h1, h2, he⟩ := hnew x hx
      rw [he]
      exact h.next_fresh hinj hb hw (by omega) h1 (by omega) (.inl ⟨Nat.lt_succ_self _, rfl⟩)

/-- **One search** queries addresses in use and writes unused ones. -/
theorem search_fresh (hI : SpentInv E df b calls false st) (hw : Keyword w)
    (hinj : AddrInj E df b) (hb : ∀ v, callsOn v (calls ++ [.search w]) ≤ b v)
    (hb31 : ∀ v, b v < 2 ^ 31) :
    ∃ res st', search E st.1 st.2 w = some (res, st') ∧
      SpentInv E df b (calls ++ [.search w]) false st' := by
  obtain ⟨hmode, hrem, hemp, src, len, h⟩ := hI
  have hself : callsOn w (calls ++ [.search w]) = callsOn w calls + 1 :=
    callsOn_snoc_self (by simp [Call.touches])
  have hbw := hb w
  have hbw31 := hb31 w
  have hle1 := h.src_le w
  have hle2 := h.len_le w
  have htext : st.1.omap (Bid.ofStr w) = cntText (len w) (src w) := h.text w hw
  by_cases hz : src w = 0 ∧ len w = 0
  · refine ⟨[], st, ?_, hmode, hrem, hemp, src, len, h.mono⟩
    simp [search, searchCounters, hrem, cntText_find _ _ htext, hz]
  · have hfind : st.1.omap.find (Bid.ofStr w) = pairStr (len w) (src w) := by
      rw [cntText_find _ _ htext, if_neg hz]
    have hcnt : searchCounters st.1 (kw w) w =
        some (some ((len w : Int), (src w : Int)), st.1) := by
      simp [searchCounters, hrem, hfind, pairStr_ne_nil,
        parsePair_cnt (show len w < 2 ^ 31 by omega) (show src w < 2 ^ 31 by omega)]
    obtain ⟨ha1, ha2⟩ := addresses_spec (E := E) (src w) (len w) 1 (@sameKw_kw df w)
    rw [Nat.cast_one] at ha1 ha2
    generalize hKL : (addresses E df (src w) (kw w) 1 (len w)).2 = KList at ha1
    generalize hkw : (addresses E df (src w) (kw w) 1 (len w)).1 = k1 at ha2
    have hq : ∀ a ∈ KList, ∃ c, 1 ≤ c ∧ c ≤ len w ∧ a = addr E df w 0 (src w) c := by
      intro a ha
      rw [ha1] at ha
      obtain ⟨c, hc, rfl⟩ := List.mem_map.mp ha
      rw [List.mem_range'_1] at hc
      exact ⟨c, hc.1, by omega, rfl⟩
    have hs2 : Spent E df b (calls ++ [.search w]) st.1.omap (st.2.search KList).2 src len :=
      h.mono.queried hw hbw hq
    generalize hdec : decodeAll E df (src w) k1 1 (st.2.search KList).1 = dec
    have hres : (Tally.below (Tally.tally dec.2)).length ≤ len w := by
      refine (Tally.length_below_tally_le _).trans ?_
      rw [← hdec, length_decodeAll]
      refine (List.length_filter_le _ _).trans ?_
      rw [List.length_map, ha1, List.length_map, List.length_range']
    have hdk : SameKw df w dec.1 := hdec ▸ sameKw_decodeAll _ _ _ _ ha2
    have hsearch : search E st.1 st.2 w = some (Tally.below (Tally.tally dec.2),
        if df then cleanUp E st.1 (st.2.search KList).2 dec.1 w (src w)
          (Tally.below (Tally.tally dec.2)) else (st.1, (st.2.search KList).2)) := by
      simp only [search, hcnt, Option.bind_eq_bind, Option.bind_some, hmode, Int.toNat_natCast]
      rw [show addresses E df (src w) (kw w) 1 (len w) = (k1, KList) from Prod.ext hkw hKL]
      simp only [hdec]
      cases df <;> simp
    cases df with
    | false => exact ⟨_, _, hsearch, hmode, hrem, hemp, src, len, hs2⟩
    | true =>
      rw [if_pos rfl] at hsearch
      obtain ⟨n, s', k', hrw, new, ht, ha, hu⟩ := rewrite_trace (E := E) (src w + 1)
        (Tally.below (Tally.tally dec.2)) st.1 (st.2.search KList).2 dec.1 0 hmode hdk
      generalize Tally.below (Tally.tally dec.2) = res at *
      have hcl : cleanUp E st.1 (st.2.search KList).2 dec.1 w (src w) res =
          ({ st.1 with
            rands := n
            omap := st.1.omap.insert (Bid.ofStr w) (pairStr res.length (src w + 1 : Nat)) },
            s') := by
        simp only [Nat.zero_add, Nat.cast_zero, Nat.cast_add, Nat.cast_one] at hrw
        simp [cleanUp, hrem, hrw]
      rw [hcl] at hsearch
      rw [Nat.zero_add] at ha
      exact ⟨_, _, hsearch, hmode, hrem, fun e => absurd e (by simp), _, _,
        hs2.rewritten hw hinj hb (by omega) (by omega) ht ha hu⟩

/-! ## Runs -/

theorem endSetup_fresh (hI : SpentInv E df b calls true st) :
    SpentInv E df b (calls ++ [.endSetup]) false (endSetup st.1, st.2) := by
  obtain ⟨hmode, hrem, hemp, src, len, h⟩ := hI
  rw [endSetup_eq hrem]
  refine ⟨hmode, hrem, fun e => absurd e (by simp), src, len, fun v hv => ?_, h.mono.src_le,
    h.mono.len_le, h.src_zero, h.used, h.fresh⟩
  have htext : st.1.setupOMAP (Bid.ofStr v) = cntText (len v) (src v) := h.text v hv
  simp only [mapOf, Bool.false_eq_true, if_false]
  rw [testInserts_apply hv.1 hv.2.1, hemp rfl, ← htext]
  simp [FMap.setupInsert]

theorem spent_init (setup : Bool) : SpentInv E df b [] setup (Client.init df false, Server.init) :=
  ⟨rfl, rfl, fun _ => rfl, fun _ => 0, fun _ => 0, fun _ _ => by cases setup <;> rfl,
    fun _ => Nat.zero_le _, fun _ => Nat.zero_le _, fun _ _ => rfl,
    fun x hx => absurd hx List.not_mem_nil, trivial⟩

end

/-- What a run assumes: keyword lengths, counters within `int`, and a PRF injective
on the inputs used. -/
structure FreshOk (E : Env) (df : Bool) (all : List Call) : Prop where
  keyword : ∀ c ∈ all, ∀ w ∈ c.keyword?, Keyword w
  fits : ∀ w, callsOn w all < 2 ^ 31
  injOn : Set.InjOn E.derive (prfInputs df fun w => callsOn w all)

section

variable {E : Env} {df : Bool} {all : List Call}

theorem phase_fresh (h : FreshOk E df all) (base : List Call) {cs : List Call} (setup : Bool)
    {st : Client × Server} (hp : base ++ cs <+: all)
    (hcs : ∀ c ∈ cs, if setup then c.isSetup = true else c.isOnline = true)
    (hI : SpentInv E df (fun w => callsOn w all) base setup st) :
    ∃ st', run (step E) st cs = some st' ∧
      SpentInv E df (fun w => callsOn w all) (base ++ cs) setup st' := by
  have hinj := addrInj_of_injOn h.fits h.injOn
  refine Lib.run_inv (fun pre t => SpentInv E df (fun w => callsOn w all) (base ++ pre) setup t)
    (by simpa using hI) fun pre a t hpre _ hIt => ?_
  have hp' : base ++ pre ++ [a] <+: all := by
    rw [List.append_assoc]
    exact ((List.prefix_append_right_inj base).mpr hpre).trans hp
  have hb : ∀ v, callsOn v (base ++ pre ++ [a]) ≤ callsOn v all := fun v => callsOn_mono hp'
  have hmem : a ∈ all := hp'.subset (by simp)
  have ha := hcs a (hpre.subset (by simp))
  rw [← List.append_assoc]
  cases a with
  | update op w ind setup' =>
    have hs : setup' = setup := by cases setup <;> simpa [Call.isSetup, Call.isOnline] using ha
    subst hs
    exact update_fresh hIt (h.keyword _ hmem w rfl) hinj hb h.fits
  | search w =>
    have hs : setup = false := by cases setup <;> simp_all [Call.isSetup]
    subst hs
    obtain ⟨res, st', h1, h2⟩ := search_fresh hIt (h.keyword _ hmem w rfl) hinj hb h.fits
    exact ⟨st', by simp [step, h1], h2⟩
  | endSetup => cases setup <;> simp [Call.isSetup, Call.isOnline] at ha

end

/-- **Writes are fresh.** In every well-phased run, in either mode, every address
that an update or a clean-up writes differs from all addresses written or queried
before. -/
theorem writes_fresh (E : Env) (deleteFiles : Bool) (calls : List Call) (hph : Phased calls)
    (hok : FreshOk E deleteFiles calls) :
    ∃ st, runCalls E deleteFiles false calls = some st ∧ FreshWrites st.2.trace := by
  cases hph with
  | online ho =>
    obtain ⟨st, hr, -, -, -, src, len, h⟩ := phase_fresh hok [] false (List.prefix_refl _) ho
      (spent_init false)
    exact ⟨st, hr, h.fresh⟩
  | @setup ps cs hps hcs =>
    obtain ⟨st1, hr1, hI1⟩ := phase_fresh hok [] true (List.prefix_append _ _) hps (spent_init true)
    have hr2 : runCalls E deleteFiles false (ps ++ [.endSetup]) = some (endSetup st1.1, st1.2) :=
      run_snoc hr1 rfl
    obtain ⟨st, hr, -, -, -, src, len, h⟩ := phase_fresh hok (ps ++ [.endSetup]) false (by simp)
      hcs (endSetup_fresh hI1)
    refine ⟨st, ?_, h.fresh⟩
    rw [show ps ++ Call.endSetup :: cs = ps ++ [.endSetup] ++ cs by simp, runCalls, run_append]
    rw [runCalls] at hr2
    rw [hr2]
    exact hr

theorem writes_fresh_sample :
    ∃ st, runCalls plainEnv true false sampleCalls = some st ∧ FreshWrites st.2.trace :=
  writes_fresh plainEnv true sampleCalls
    (@Phased.setup [.update .INS [97] (cint 5) true]
      [.search [97], .update .DEL [97] (cint 5) false] (by decide) (by decide))
    ⟨runOk_sample.keyword, runOk_sample.fits, runOk_sample.injOn⟩

/-- A run of `2^31` updates of a keyword breaks off: there is no next file counter. -/
theorem fresh_counter_overflows : Phased (flips (2 ^ 31)) ∧
    (∀ c ∈ flips (2 ^ 31), ∀ w ∈ c.keyword?, Keyword w) ∧
    Set.InjOn plainEnv.derive (prfInputs false fun w => callsOn w (flips (2 ^ 31))) ∧
    ¬ ∃ st, runCalls plainEnv false false (flips (2 ^ 31)) = some st ∧ FreshWrites st.2.trace := by
  refine ⟨flips_phased _, flips_keyword _, Set.injOn_id _, ?_⟩
  rintro ⟨st, hst, -⟩
  rw [flips_overflow] at hst
  cases hst

end SmallClientSSE.Mitra
