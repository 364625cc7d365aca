import Mathlib.Data.Set.Function
import SmallClientSSE.Mitra.Search

/-!
# Mitra runs

A search reads the records of its keyword and, with `deleteFiles`, writes the
live ids back under the next `srcCnt`; `endSetup` moves the counters from the
setup map into the OMAP. `searches_exact` puts the steps together: after any
well-phased run a search lists the live ids of its keyword in ascending order.
-/

namespace SmallClientSSE.Mitra

open Lib

section

variable {E : Env} {df : Bool} {calls : List Call} {st : Client × Server}

/-- The ids a search returns from the records of its keyword. -/
abbrev liveIds (recs : List (OP × CInt)) : List CInt := Tally.below (Tally.tally (weights recs))

theorem Entry.mem_liveIds {m : FMap 16} {s : Server} {w : Str} {src : Nat} {recs : List (OP × CInt)}
    (h : Entry E df calls m s w src recs) (ind : CInt) : ind ∈ liveIds recs ↔ Live calls w ind := by
  rw [Tally.mem_below_tally, h.net]
  split <;> simp_all

theorem pairwise_liveIds (recs : List (OP × CInt)) : (liveIds recs).Pairwise (· < ·) :=
  Tally.pairwise_below (Tally.sorted_tally _)

theorem length_liveIds_le (recs : List (OP × CInt)) : (liveIds recs).length ≤ recs.length :=
  (Tally.length_below_tally_le _).trans (by simp [weights])

theorem search_stored {m : FMap 16} {s : Server} {w : Str} {src : Nat} {recs : List (OP × CInt)}
    (h : Entry E df calls m s w src recs)
    (hnz : ∀ a v, Msg.update a v ∈ s.trace → v ≠ Buf.zero) :
    (s.search ((List.range' 1 recs.length).map (addr E df w 0 src))).1 =
      (List.range' 1 recs.length).map fun j => s.DictW (addr E df w 0 src j) := by
  simp only [Server.search, List.map_map]
  rw [List.filter_eq_self.mpr]
  · rfl
  · intro v hv
    obtain ⟨j, hj, rfl⟩ := List.mem_map.mp hv
    rw [List.mem_range'_1] at hj
    exact decide_eq_true (hnz _ _ (h.sent j hj.1 (by omega)))

/-- **What a search reads.** -/
theorem search_eq (hI : Inv E df calls false st) {w : Str} {src : Nat} {recs : List (OP × CInt)}
    (he : Entry E df calls st.1.omap st.2 w src recs) (hfit : callsOn w calls < 2 ^ 31)
    (hnz : ∀ a v, Msg.update a v ∈ st.2.trace → v ≠ Buf.zero) :
    (src = 0 ∧ recs = [] ∧ search E st.1 st.2 w = some ([], st)) ∨
    ∃ k s', SameKw df w k ∧ s'.DictW = st.2.DictW ∧ (∀ m ∈ st.2.trace, m ∈ s'.trace) ∧
      search E st.1 st.2 w = some (liveIds recs,
        if df then cleanUp E st.1 s' k w src (liveIds recs) else (st.1, s')) := by
  have hlen := he.len_le
  have hsrc := he.src_le
  by_cases hz : src = 0 ∧ recs.length = 0
  · refine .inl ⟨hz.1, List.length_eq_zero_iff.mp hz.2, ?_⟩
    simp [search, searchCounters, hI.remote, cntText_find _ _ he.text, hz]
  · right
    obtain ⟨ha1, ha2⟩ := addresses_spec (E := E) src recs.length 1 (@sameKw_kw df w)
    obtain ⟨hd1, hd2⟩ := decodeAll_spec src recs 1 ha2 he.stored
    rw [Nat.cast_one] at ha1 ha2 hd1 hd2
    have hfind : st.1.omap.find (Bid.ofStr w) = pairStr recs.length src := by
      rw [cntText_find _ _ he.text, if_neg hz]
    have hcnt : searchCounters st.1 (kw w) w =
        some (some ((recs.length : Int), (src : Int)), st.1) := by
      simp [searchCounters, hI.remote, hfind, pairStr_ne_nil,
        parsePair_cnt (show recs.length < 2 ^ 31 by omega) (show src < 2 ^ 31 by omega)]
    have hs := search_stored he hnz
    refine ⟨_, (st.2.search ((List.range' 1 recs.length).map (addr E df w 0 src))).2, hd2, rfl,
      fun m hm => List.mem_append_right _ hm, ?_⟩
    simp only [search, hcnt, Option.bind_eq_bind, Option.bind_some, hI.mode, Int.toNat_natCast]
    rw [ha1, hs, hd1]
    cases df <;> simp

theorem not_live_of_untouched {m : FMap 16} {s : Server} {w : Str}
    (h : Entry E df calls m s w 0 []) (ind : CInt) : ¬ Live calls w ind := by
  rw [← h.mem_liveIds]
  simp [weights, Tally.tally, Tally.below]

/-- **What a search answers.** -/
theorem Inv.search_answers (hI : Inv E df calls false st) {w : Str} (hw : Keyword w)
    (hfit : callsOn w calls < 2 ^ 31)
    (hnz : ∀ a v, Msg.update a v ∈ st.2.trace → v ≠ Buf.zero) :
    ∃ res st', search E st.1 st.2 w = some (res, st') ∧ res.Pairwise (· < ·) ∧
      ∀ ind, ind ∈ res ↔ Live calls w ind := by
  obtain ⟨src, recs, he⟩ := hI.entries w hw
  rcases search_eq hI he hfit hnz with ⟨rfl, rfl, hs⟩ | ⟨k, s', -, -, -, hs⟩
  · exact ⟨[], st, hs, List.Pairwise.nil, fun ind =>
      ⟨fun h => absurd h (by simp), fun h => absurd h (not_live_of_untouched he ind)⟩⟩
  · exact ⟨_, _, hs, pairwise_liveIds recs, he.mem_liveIds⟩

/-! ## One search -/

theorem cleanUp_spec {c : Client} {s : Server} {k : Block} {w : Str} {src : Nat} {ids : List CInt}
    (hmode : c.deleteFiles = df) (hrem : c.localStorage = false) (hk : SameKw df w k)
    (hne : ∀ i j, 0 < i → i < j → j ≤ ids.length →
      addr E df w 0 (src + 1) i ≠ addr E df w 0 (src + 1) j) :
    ∃ n s', cleanUp E c s k w src ids =
        ({ c with rands := n,
                  omap := c.omap.insert (Bid.ofStr w) (pairStr ids.length (src + 1 : Nat)) }, s') ∧
      Rewritten E df w (src + 1) 0 ids c { c with rands := n } s s' := by
  obtain ⟨c', s', k', hrw, -, R⟩ := rewrite_spec (E := E) (src + 1) ids c s k 0 hmode hk
    fun i j h1 h2 h3 => hne i j h1 h2 (by omega)
  obtain ⟨n, hn⟩ := R.client
  subst hn
  refine ⟨n, s', ?_, R⟩
  simp only [Nat.zero_add, Nat.cast_zero, Nat.cast_add, Nat.cast_one] at hrw ⊢
  simp [cleanUp, hrem, hrw]

theorem search_step {b : Str → Nat} {w : Str} (hI : Inv E df calls false st) (hw : Keyword w)
    (hinj : AddrInj E df b) (hb : ∀ v, callsOn v (calls ++ [.search w]) ≤ b v)
    (hb31 : ∀ v, b v < 2 ^ 31) (hnz : ∀ a v, Msg.update a v ∈ st.2.trace → v ≠ Buf.zero) :
    ∃ res st', search E st.1 st.2 w = some (res, st') ∧ Inv E df (calls ++ [.search w]) false st' := by
  obtain ⟨src, recs, he⟩ := hI.entries w hw
  have hself : callsOn w (calls ++ [.search w]) = callsOn w calls + 1 :=
    callsOn_snoc_self (by simp [Call.touches])
  have hbw := hb w
  have hbw31 := hb31 w
  have hle1 := he.src_le
  have hle2 := he.len_le
  have hops : ∀ v ind, opsOf [.search w] v ind = [] := fun _ _ => rfl
  rcases search_eq hI he (by omega) hnz with ⟨rfl, rfl, hs⟩ | ⟨k, s', hk, hD, htr, hs⟩
  · refine ⟨_, _, hs, hI.mode, hI.remote, hI.empty, fun v hv => ?_⟩
    obtain ⟨src', recs', he'⟩ := hI.entries v hv
    exact ⟨src', recs', he'.frame rfl (fun _ _ _ => rfl) (fun _ h => h) (hops v)⟩
  cases df with
  | false =>
    refine ⟨_, _, hs, hI.mode, hI.remote, hI.empty, fun v hv => ?_⟩
    obtain ⟨src', recs', he'⟩ := hI.entries v hv
    exact ⟨src', recs', he'.frame rfl (fun _ _ _ => by rw [← hD]; rfl) htr (hops v)⟩
  | true =>
    have hlen := length_liveIds_le recs
    obtain ⟨n, s'', hcl, R⟩ := @cleanUp_spec E true st.1 s' k w src (liveIds recs)
      hI.mode hI.remote hk fun i j h1 h2 h3 e => by
        have := (hinj hw hw (by omega) (by omega) h1 (by omega) (by omega) (by omega) e).2.2
        omega
    rw [if_pos rfl, hcl] at hs
    refine ⟨_, _, hs, hI.mode, hI.remote, fun h => absurd h (by simp), fun v hv => ?_⟩
    have hmap : mapOf false { st.1 with rands := n, omap := st.1.omap.insert (Bid.ofStr w) (pairStr
        (liveIds recs).length (src + 1 : Nat)) } = st.1.omap.insert (Bid.ofStr w)
          (pairStr (liveIds recs).length (src + 1 : Nat)) := rfl
    by_cases hvw : v = w
    · subst hvw
      refine ⟨src + 1, (liveIds recs).map fun i => (.INS, i), ?_, ?_, ?_, by omega, ?_,
        fun h => absurd h (by simp), ?_⟩
      · rw [hmap, FMap.insert_self, cntText, if_neg (by omega), List.length_map]
      · simpa using R.stored
      · intro j h1 h2
        rw [List.length_map] at h2
        exact R.sent j h1 (by omega)
      · rw [List.length_map]; omega
      · intro ind
        have hnd : (liveIds recs).Nodup := (pairwise_liveIds recs).imp fun h => ne_of_lt h
        have := Tally.totalAt_map_const ind (-1) hnd
        simp only [weights, List.map_map]
        simp only [he.mem_liveIds] at this
        simp only [live_append_of_nil (hops v ind)]
        exact this
    · obtain ⟨src', recs', he'⟩ := hI.entries v hv
      refine ⟨src', recs', he'.frame ?_ ?_ ?_ (hops v)⟩
      · rw [hmap, FMap.insert_of_ne _ fun e => hvw (Bid.ofStr_inj hv.1 hw.1 (by have := hv.2; omega)
          (by have := hw.2; omega) e)]
        rfl
      · intro j h1 h2
        rw [← hD]
        refine R.others _ fun i h3 h4 e => hvw ?_
        have hbv := hb v
        have hmono := callsOn_mono (w := v) (List.prefix_append calls [.search w])
        have hle3 := he'.src_le
        have hle4 := he'.len_le
        exact (hinj hv hw (by omega) (by omega) h1 (by omega) (by omega) (by omega) e).1
      · exact fun x hx => R.mono x (htr x hx)

/-! ## The end of setup -/

theorem endSetup_eq {c : Client} (hrem : c.localStorage = false) :
    endSetup c = { c with omap := testInserts (c.omap.setupInsert c.setupOMAP) } := by
  simp [endSetup, hrem]

theorem testInserts_apply {w : Str} (hw : NulFree w) (hlen : 1 ≤ w.length) (m : FMap 16) :
    testInserts m (Bid.ofStr w) = m (Bid.ofStr w) :=
  FMap.foldl_insert_of_ne _ (Bid.ofStr_ne_one hw (List.ne_nil_of_length_pos hlen)) _ m

theorem endSetup_step (hI : Inv E df calls true st) :
    Inv E df (calls ++ [.endSetup]) false (endSetup st.1, st.2) := by
  rw [endSetup_eq hI.remote]
  refine ⟨hI.mode, hI.remote, fun h => absurd h (by simp), fun v hv => ?_⟩
  obtain ⟨src, recs, he⟩ := hI.entries v hv
  refine ⟨src, recs, he.frame ?_ (fun _ _ _ => rfl) (fun _ h => h) fun _ => rfl⟩
  simp only [mapOf, Bool.false_eq_true, if_false, if_true]
  rw [testInserts_apply hv.1 hv.2.1, hI.empty rfl]
  simp [FMap.setupInsert]

/-! ## Runs -/

theorem inv_init (setup : Bool) : Inv E df [] setup (Client.init df false, Server.init) :=
  ⟨rfl, rfl, fun _ => rfl, fun w _ => ⟨0, [], by cases setup <;> rfl, trivial,
    fun j h1 h2 => absurd h1 (by simp at h2; omega), Nat.le_refl _, Nat.le_refl _, fun _ => rfl,
    fun ind => by simp [weights, Live, opsOf]⟩⟩

/-- The PRF inputs of runs with up to `b w` calls for each keyword `w`. -/
def prfInputs (df : Bool) (b : Str → Nat) : Set Block :=
  {x | ∃ w op s c, Keyword w ∧ (op = 0 ∨ op = 1) ∧ s ≤ b w ∧ 1 ≤ c ∧ c ≤ b w ∧ x = slot df w op s c}

theorem addrInj_of_injOn {b : Str → Nat} (hb : ∀ w, b w < 2 ^ 31)
    (h : Set.InjOn E.derive (prfInputs df b)) : AddrInj E df b := by
  intro w w' s s' c c' hw hw' hs hs' hc hc1 hc' hc1' e
  have hbw := hb w
  have hbw' := hb w'
  have := h ⟨w, 0, s, c, hw, .inl rfl, hs, hc, hc1, rfl⟩ ⟨w', 0, s', c', hw', .inl rfl, hs', hc', hc1', rfl⟩ e
  have h4 := slot_inj hw hw' (by omega) (by omega) (by omega) (by omega) this
  exact ⟨h4.1, h4.2.2.1, h4.2.2.2⟩

end

section

variable (E : Env) (df : Bool) (all : List Call)

/-- What every run assumes: keyword lengths, alternating updates, a PRF injective on the
inputs used and no all-zero ciphertext. -/
structure Assumed : Prop where
  keyword : ∀ c ∈ all, ∀ w ∈ c.keyword?, Keyword w
  alternates : ∀ w ind, Alternates (opsOf all w ind)
  injOn : Set.InjOn E.derive (prfInputs df fun w => callsOn w all)
  nonzero : ∀ pre st, pre <+: all → runCalls E df false pre = some st →
    ∀ a v, Msg.update a v ∈ st.2.trace → v ≠ Buf.zero

structure RunOk : Prop extends Assumed E df all where
  fits : ∀ w, callsOn w all < 2 ^ 31

variable {E df all}

theorem RunOk.alternates_of (h : RunOk E df all) {pre : List Call} (hp : pre <+: all) (w : Str)
    (ind : CInt) : Alternates (opsOf pre w ind) := by
  obtain ⟨t, rfl⟩ := hp
  have := h.alternates w ind
  rw [opsOf_append] at this
  exact this.left

theorem call_step (h : RunOk E df all) {pre : List Call} {a : Call} {setup : Bool}
    {st : Client × Server} (hp : pre ++ [a] <+: all)
    (ha : if setup then a.isSetup = true else a.isOnline = true)
    (hrun : runCalls E df false pre = some st) (hI : Inv E df pre setup st) :
    ∃ st', step E st a = some st' ∧ Inv E df (pre ++ [a]) setup st' := by
  have hinj := addrInj_of_injOn h.fits h.injOn
  have hb : ∀ v, callsOn v (pre ++ [a]) ≤ callsOn v all := fun v => callsOn_mono hp
  have hmem : a ∈ all := hp.subset (by simp)
  have hpre : pre <+: all := (List.prefix_append _ _).trans hp
  cases a with
  | update op w ind setup' =>
    have hs : setup' = setup := by cases setup <;> simpa [Call.isSetup, Call.isOnline] using ha
    subst hs
    exact update_step hI (h.keyword _ hmem w rfl) hinj hb h.fits (h.alternates_of hp w ind)
  | search w =>
    have hs : setup = false := by cases setup <;> simp_all [Call.isSetup]
    subst hs
    obtain ⟨res, st', h1, h2⟩ := search_step hI (h.keyword _ hmem w rfl) hinj hb h.fits
      (h.nonzero pre st hpre hrun)
    exact ⟨st', by simp [step, h1], h2⟩
  | endSetup => cases setup <;> simp [Call.isSetup, Call.isOnline] at ha

theorem phase_run (h : RunOk E df all) (base : List Call) {cs : List Call} (setup : Bool)
    {st : Client × Server}
    (hp : base ++ cs <+: all)
    (hcs : ∀ c ∈ cs, if setup then c.isSetup = true else c.isOnline = true)
    (hrun : runCalls E df false base = some st) (hI : Inv E df base setup st) :
    ∃ st', runCalls E df false (base ++ cs) = some st' ∧ Inv E df (base ++ cs) setup st' := by
  have hcall : ∀ pre a t, pre ++ [a] <+: cs → run (step E) st pre = some t →
      Inv E df (base ++ pre) setup t →
      ∃ u, step E t a = some u ∧ Inv E df (base ++ (pre ++ [a])) setup u := by
    intro pre a t hpre ht hIt
    have hp' : base ++ pre ++ [a] <+: all := by
      rw [List.append_assoc]
      exact ((List.prefix_append_right_inj base).mpr hpre).trans hp
    have := call_step h hp' (hcs a (hpre.subset (by simp))) (by
      rw [runCalls, run_append] at *; simp [hrun, ht]) hIt
    simpa only [List.append_assoc] using this
  obtain ⟨t, ht, hIt⟩ := run_inv (fun pre t => Inv E df (base ++ pre) setup t)
    (by simpa using hI) hcall
  refine ⟨t, ?_, hIt⟩
  rw [runCalls, run_append] at *
  simp [hrun, ht]

/-- **Every well-phased run succeeds and keeps the invariant.** -/
theorem run_ok (h : RunOk E df all) (hph : Phased all) :
    ∃ st, runCalls E df false all = some st ∧ Inv E df all false st := by
  cases hph with
  | online ho =>
    exact phase_run h [] false (List.prefix_refl _) ho rfl (inv_init false)
  | @setup ps cs hps hcs =>
    have h1 : ps <+: ps ++ .endSetup :: cs := List.prefix_append _ _
    obtain ⟨st1, hr1, hI1⟩ := phase_run h [] true h1 hps rfl (inv_init true)
    have hr2 : runCalls E df false (ps ++ [.endSetup]) = some (endSetup st1.1, st1.2) :=
      run_snoc hr1 rfl
    obtain ⟨st, hr, hI⟩ := phase_run h (ps ++ [.endSetup]) false (by simp) hcs hr2
      (endSetup_step hI1)
    simp only [List.append_assoc, List.singleton_append] at hr hI
    exact ⟨st, hr, hI⟩

end

/-- **Mitra search is exact.** After every well-phased run, in either mode, a
search returns the ids whose last update is an insertion, in ascending order. -/
theorem searches_exact (E : Env) (deleteFiles : Bool) (calls : List Call) (hph : Phased calls)
    (hok : RunOk E deleteFiles calls) (w : Str) (hw : Keyword w) :
    ∃ st res st', runCalls E deleteFiles false calls = some st ∧
      search E st.1 st.2 w = some (res, st') ∧
      res.Pairwise (· < ·) ∧ ∀ ind, ind ∈ res ↔ Live calls w ind := by
  obtain ⟨st, hrun, hI⟩ := run_ok hok hph
  obtain ⟨res, st', hs⟩ := hI.search_answers hw (hok.fits w)
    (hok.nonzero calls st (List.prefix_refl _) hrun)
  exact ⟨st, res, st', hrun, hs⟩

def plainEnv : Env := ⟨id, fun _ _ => 1⟩

def sampleCalls : List Call :=
  [.update .INS [97] (cint 5) true, .endSetup, .search [97],
    .update .DEL [97] (cint 5) false]

def Msg.isNonzero : Msg → Bool
  | .update _ val => decide (val ≠ Buf.zero)
  | .query _ => true

/-- The runs of a list of calls send no zero value. -/
theorem nonzero_of_inits {df : Bool} {calls : List Call}
    (h : ∀ pre ∈ calls.inits, (runCalls plainEnv df false pre).all
      (fun st => st.2.trace.all Msg.isNonzero) = true) (pre : List Call) (st : Client × Server)
    (hpre : pre <+: calls) (hst : runCalls plainEnv df false pre = some st) (a v : Block)
    (hv : Msg.update a v ∈ st.2.trace) : v ≠ Buf.zero := by
  have hall := h pre ((List.mem_inits _ _).mpr hpre)
  rw [hst, Option.all_some, List.all_eq_true] at hall
  exact of_decide_eq_true (hall _ hv)

theorem sampleCalls_nonzero :
    ∀ pre ∈ sampleCalls.inits, (runCalls plainEnv true false pre).all
      (fun st => st.2.trace.all Msg.isNonzero) = true := by
  decide +kernel

theorem runOk_sample : RunOk plainEnv true sampleCalls where
  keyword := by
    intro c hc w hw
    simp only [sampleCalls, List.mem_cons, List.not_mem_nil, or_false] at hc
    rcases hc with rfl | rfl | rfl | rfl <;> simp [Call.keyword?] at hw <;> subst hw <;> decide
  alternates := by
    intro w ind
    by_cases h : [97] = w ∧ cint 5 = ind
    · obtain ⟨rfl, rfl⟩ := h
      decide
    · have : opsOf sampleCalls w ind = [] := by simp [opsOf, sampleCalls, h]
      rw [this]
      intro i hi
      simp at hi
  fits w := lt_of_le_of_lt List.countP_le_length (by decide)
  injOn := Set.injOn_id _
  nonzero := nonzero_of_inits sampleCalls_nonzero

theorem searches_exact_sample :
    ∃ st res st', runCalls plainEnv true false sampleCalls = some st ∧
      search plainEnv st.1 st.2 [97] = some (res, st') ∧
      res.Pairwise (· < ·) ∧ ∀ ind, ind ∈ res ↔ Live sampleCalls [97] ind :=
  searches_exact plainEnv true sampleCalls
    (@Phased.setup [.update .INS [97] (cint 5) true]
      [.search [97], .update .DEL [97] (cint 5) false] (by decide) (by decide))
    runOk_sample [97] (by decide)

/-! ## Past the range of the counter -/

def flip (i : Nat) : Call :=
  .update (if i % 2 = 0 then .INS else .DEL) [97] (cint 5) false

def flips (n : Nat) : List Call := (List.range n).map flip

theorem flips_succ (n : Nat) : flips (n + 1) = flips n ++ [flip n] := by
  rw [flips, List.range_succ, List.map_append]
  rfl

theorem mem_flips {n : Nat} {c : Call} (hc : c ∈ flips n) : ∃ i, flip i = c := by
  obtain ⟨i, -, hi⟩ := List.mem_map.mp hc
  exact ⟨i, hi⟩

theorem flips_phased (n : Nat) : Phased (flips n) := .online fun c hc => by
  obtain ⟨i, rfl⟩ := mem_flips hc
  rfl

theorem flips_keyword (n : Nat) : ∀ c ∈ flips n, ∀ w ∈ c.keyword?, Keyword w := by
  intro c hc w hw
  obtain ⟨i, rfl⟩ := mem_flips hc
  obtain rfl := Option.some.inj hw
  decide

theorem flips_alternates (n : Nat) (w : Str) (ind : CInt) : Alternates (opsOf (flips n) w ind) := by
  by_cases h : [97] = w ∧ cint 5 = ind
  · have hops : opsOf (flips n) w ind =
        (List.range n).map fun i => if i % 2 = 0 then OP.INS else .DEL := by
      rw [flips, opsOf, List.filterMap_map, ← List.filterMap_eq_map]
      exact List.filterMap_congr fun i _ => if_pos h
    intro i hi
    simp [hops]
  · have hops : opsOf (flips n) w ind = [] :=
      List.filterMap_eq_nil_iff.mpr fun c hc => by
        obtain ⟨i, rfl⟩ := mem_flips hc
        exact if_neg h
    rw [hops]
    exact fun i hi => absurd hi (by simp)

/-- Under the identity, the sixth byte of every record of the pair is `1`. -/
theorem put_nonzero (df : Bool) (op : OP) (ind : Int) (src cnt rands : Nat) :
    bitwiseXORInt ind op (addr plainEnv df [97] 1 src cnt) (plainEnv.rand rands) ≠ Buf.zero := by
  intro h
  have hslot : slot df [97] 1 src cnt 5 = 0 := by
    have := prfInput_at df (kw [97]) 1 src cnt 5 (by decide)
    simp only [show ¬ 12 ≤ 5 by decide, show ¬ 5 = 11 by decide, show ¬ 7 ≤ 5 by decide, if_false,
      and_false] at this
    exact this.trans (by decide)
  have h5 : (1 : Byte) ^^^ slot df [97] 1 src cnt 5 = 0 := congrFun h 5
  rw [hslot] at h5
  exact absurd h5 (by decide)

theorem flips_run (df : Bool) {n : Nat} (hn : n < 2 ^ 31) :
    ∃ st, runCalls plainEnv df false (flips n) = some st ∧ st.1.deleteFiles = df ∧
      st.1.localStorage = false ∧ st.1.omap (Bid.ofStr [97]) = cntText n 0 ∧
      ∀ a v, Msg.update a v ∈ st.2.trace → v ≠ Buf.zero := by
  induction n with
  | zero => exact ⟨_, rfl, rfl, rfl, rfl, fun _ _ h => absurd h List.not_mem_nil⟩
  | succ n ih =>
    obtain ⟨st, hst, hmode, hrem, htext, hnz⟩ := ih (by omega)
    obtain ⟨c, hbump, hmode', hrem', -, hmap⟩ := @bumpOmap_spec st.1 [97] false n 0 htext hn
      (by decide)
    obtain ⟨k, hput, -⟩ := put_spec (E := plainEnv) (w := [97]) c st.2 (hmode'.trans hmode) sameKw_kw
      (if n % 2 = 0 then .INS else .DEL) (cint 5).val 0 (n + 1)
    refine ⟨({ c with rands := c.rands + 1 }, st.2.update (addr plainEnv df [97] 0 0 (n + 1))
      (bitwiseXORInt (cint 5).val (if n % 2 = 0 then .INS else .DEL)
        (addr plainEnv df [97] 1 0 (n + 1)) (plainEnv.rand c.rands))), ?_, hmode'.trans hmode, hrem'.trans hrem, ?_, fun a v hv => ?_⟩
    · rw [flips_succ]
      refine run_snoc hst ?_
      simp only [step, flip, update, hrem, Bool.false_eq_true, if_false, hbump,
        Option.bind_eq_bind, Option.bind_some]
      rw [hput]
      rfl
    · show mapOf false c _ = _
      rw [hmap, FMap.insert_self, cntText, if_neg (by simp)]
    · rcases List.mem_cons.mp hv with hv | hv
      · obtain ⟨-, rfl⟩ := Msg.update.inj hv
        exact put_nonzero df _ _ 0 (n + 1) _
      · exact hnz a v hv

theorem flips_overflow (df : Bool) : runCalls plainEnv df false (flips (2 ^ 31)) = none := by
  obtain ⟨n, hn⟩ : ∃ n, n + 1 = 2 ^ 31 := ⟨2 ^ 31 - 1, by decide⟩
  obtain ⟨st, hst, -, hrem, htext, -⟩ := flips_run df (show n < 2 ^ 31 by omega)
  rw [← hn, flips_succ, runCalls, run_append, show run (step plainEnv) _ (flips n) = some st from hst]
  simp [step, flip, update, bumpOmap, hrem, incrementFileCnt_overflow htext hn]

theorem flips_assumed (df : Bool) : Assumed plainEnv df (flips (2 ^ 31)) where
  keyword := flips_keyword _
  alternates := flips_alternates _
  injOn := Set.injOn_id _
  nonzero pre st hpre hst := by
    obtain ⟨n, hn, rfl⟩ : ∃ n, n ≤ 2 ^ 31 ∧ pre = flips n := by
      rw [List.prefix_iff_eq_take, flips, ← List.map_take, List.take_range] at hpre
      exact ⟨_, min_le_right _ _, hpre⟩
    rcases hn.lt_or_eq with hn | rfl
    · obtain ⟨st', hst', -, -, -, hnz⟩ := flips_run df hn
      obtain rfl := Option.some.inj (hst'.symm.trans hst)
      exact hnz
    · rw [flips_overflow] at hst
      cases hst

/-- Past `2^31` updates of a keyword there is no search: the file counter leaves the range of
`int`. -/
theorem searches_overflow : Phased (flips (2 ^ 31)) ∧ Assumed plainEnv false (flips (2 ^ 31)) ∧
    Keyword [97] ∧ ¬ ∃ st res st', runCalls plainEnv false false (flips (2 ^ 31)) = some st ∧
      search plainEnv st.1 st.2 [97] = some (res, st') := by
  refine ⟨flips_phased _, flips_assumed false, by decide, ?_⟩
  rintro ⟨st, res, st', hst, -⟩
  rw [flips_overflow] at hst
  cases hst

end SmallClientSSE.Mitra
