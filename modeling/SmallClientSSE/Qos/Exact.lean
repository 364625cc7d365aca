import SmallClientSSE.Qos.SearchStep

/-!
# QOS runs with local maps

`liveIds` says what a keyword's search should list: the ids inserted and not
removed since, in the order of insertion. `Kept` ties it to the client and its
server, every allowed call keeps it (`step_inv`), and so after any allowed run a
search returns `liveIds`, and so does the search after it (`search_live_exact`).
-/

namespace SmallClientSSE.Qos

open Lib Dyadic

def Call.keyword : Call → Str
  | .insert w _ => w
  | .remove w _ => w
  | .search w => w

/-- What a call does to the live ids of `w`. -/
def effect (w : Str) (l : List CInt) : Call → List CInt
  | .insert v id => if v = w then l ++ [id] else l
  | .remove v id => if v = w then l.filter fun x => decide (x ≠ id) else l
  | .search _ => l

def liveIds (calls : List Call) (w : Str) : List CInt := calls.foldl (effect w) []

def Call.isInsert (w : Str) : Call → Bool
  | .insert v _ => decide (v = w)
  | _ => false

def Call.isSearch (w : Str) : Call → Bool
  | .search v => decide (v = w)
  | _ => false

def inserts (calls : List Call) (w : Str) : Nat := calls.countP (Call.isInsert w)

def searches (calls : List Call) (w : Str) : Nat := calls.countP (Call.isSearch w)

/-- The calls a user may make after `pre`. -/
def Allowed (height : Nat) (ks : List Str) (pre : List Call) : Call → Prop
  | .insert w id => w ∈ ks ∧ 0 ≤ id.val ∧ id ∉ liveIds pre w ∧ inserts pre w < 2 ^ (height - 1)
  | .remove w id => w ∈ ks ∧ Call.insert w id ∈ pre
  | .search w => w ∈ ks ∧ 0 < inserts pre w

instance (height : Nat) (ks : List Str) (pre : List Call) (a : Call) :
    Decidable (Allowed height ks pre a) := by
  cases a <;> exact inferInstanceAs (Decidable (_ ∧ _))

section

variable {pre calls : List Call} {a : Call} {w : Str} {id : CInt}

theorem liveIds_snoc : liveIds (pre ++ [a]) w = effect w (liveIds pre w) a := by
  simp [liveIds, List.foldl_append]

theorem inserts_snoc : inserts (pre ++ [a]) w = inserts pre w + (a.isInsert w).toNat := by
  cases h : a.isInsert w <;> simp [inserts, List.countP_append, h]

theorem searches_snoc : searches (pre ++ [a]) w = searches pre w + (a.isSearch w).toNat := by
  cases h : a.isSearch w <;> simp [searches, List.countP_append, h]

theorem searches_mono (h : pre <+: calls) : searches pre w ≤ searches calls w :=
  h.sublist.countP_le

theorem other (h : a.keyword ≠ w) : liveIds (pre ++ [a]) w = liveIds pre w ∧
    inserts (pre ++ [a]) w = inserts pre w ∧ searches (pre ++ [a]) w = searches pre w ∧
    ∀ id, Call.insert w id ∈ pre ++ [a] → Call.insert w id ∈ pre := by
  rw [liveIds_snoc, inserts_snoc, searches_snoc]
  have hmem : ∀ id, Call.insert w id ∈ pre ++ [a] → Call.insert w id ∈ pre := fun id hid => by
    rcases List.mem_append.mp hid with h' | h'
    · exact h'
    · exact absurd (congrArg Call.keyword (List.mem_singleton.mp h')).symm h
  cases a <;> exact ⟨by simp_all [effect, Call.keyword], by simp_all [Call.isInsert, Call.keyword],
    by simp_all [Call.isSearch, Call.keyword], hmem⟩

end

/-! ## The invariant -/

/-- The entry of a keyword is what its calls make of it. -/
structure Kept (E : Env) (S : Nat) (calls : List Call) (c : Client) (w : Str) (g : Slots) :
    Prop where
  entry : Entry E S c w (searches calls w) g
  ids : g.ids = liveIds calls w
  count : g.n = inserts calls w
  nonneg : ∀ p, p < g.n → 0 ≤ (g.idAt p).val
  recorded : ∀ id, Call.insert w id ∈ calls → ∃ p, p < g.n ∧ g.idAt p = id ∧
    c.LOdel (mapKey w id.val) = some (intStr p)

/-- Every keyword is kept. -/
structure Inv (E : Env) (S h : Nat) (ks : List Str) (calls : List Call) (c : Client) : Prop where
  height : c.height = h
  server : c.server.height = h
  kept : ∀ w ∈ ks, ∃ g, Kept E S calls c w g

section

variable {E : Env} {S h : Nat} {ks : List Str} {calls : List Call} {c c' : Client} {w : Str}
  {g : Slots} {a : Call} {id : CInt}

theorem Entry.one {src p q : Nat} (he : Entry E S c w src g) (hq : q < g.n) (hl : g.live q = true)
    (hdel : c.LOdel (mapKey w (g.idAt q).val) = some (intStr p)) : q = p := by
  have h1 := he.last q hq hl
  rw [hdel] at h1
  have := intStr_inj (Option.some.inj h1)
  omega

theorem Entry.nodup_ids {src : Nat} (he : Entry E S c w src g) : g.ids.Nodup := by
  refine List.Nodup.map_on (fun p hp q hq e => ?_) (List.nodup_range.filter _)
  obtain ⟨hp, hpl⟩ := List.mem_filter.mp hp
  obtain ⟨hq, hql⟩ := List.mem_filter.mp hq
  rw [List.mem_range] at hp hq
  exact he.one hp hpl (by rw [e]; exact he.last q hq hql)

theorem Kept.frame (hk : Kept E S calls c w g) (hs : Same E S c c' w) (hpos : 0 < c.height)
    (ha : a.keyword ≠ w) : Kept E S (calls ++ [a]) c' w g := by
  obtain ⟨h1, h2, h3, h4⟩ := @other calls _ _ ha
  refine ⟨?_, hk.ids.trans h1.symm, hk.count.trans h2.symm, hk.nonneg, fun id hid => ?_⟩
  · rw [h3]
    exact hk.entry.frame hs hpos hk.nonneg
  · obtain ⟨p, hp, he, hd⟩ := hk.recorded id (h4 id hid)
    exact ⟨p, hp, he, (hs.del id (he ▸ hk.nonneg p hp)).trans hd⟩

/-- A call on `w` that keeps `w` and leaves the others alone. -/
theorem Inv.next (hI : Inv E S h ks calls c) (hpos : 0 < h) (hw : a.keyword = w)
    (hh : c'.height = c.height) (hs : c'.server.height = c.server.height)
    (hk : Kept E S (calls ++ [a]) c' w g) (hsame : ∀ v ∈ ks, v ≠ w → Same E S c c' v) :
    Inv E S h ks (calls ++ [a]) c' := by
  refine ⟨hh.trans hI.height, hs.trans hI.server, fun v hv => ?_⟩
  by_cases hvw : v = w
  · exact ⟨g, hvw ▸ hk⟩
  · obtain ⟨gv, hkv⟩ := hI.kept v hv
    exact ⟨gv, hkv.frame (hsame v hv hvw) (hI.height ▸ hpos) fun e => hvw (e.symm.trans hw)⟩

theorem inv_init {N : CInt} : Inv E S (heightOf N) ks [] (Client.init N) :=
  ⟨rfl, rfl, fun _ _ => ⟨Slots.empty, ⟨Nat.zero_le _, Nat.zero_le _, fun _ => rfl, rfl,
    fun _ _ _ => .inl rfl, fun _ _ _ hm => absurd hm Bool.false_ne_true, fun p hp => absurd hp
    (Nat.not_lt_zero p), fun _ _ _ _ _ _ => rfl, fun p hp => absurd hp (Nat.not_lt_zero p),
    fun p hp => absurd hp (Nat.not_lt_zero p)⟩, rfl, rfl, fun p hp => absurd hp (Nat.not_lt_zero p),
    fun _ hid => absurd hid List.not_mem_nil⟩⟩

variable (hE : EnvOk E h ks S) (hh : h ≤ 31) (hpos : 0 < h) (hS : S < 2 ^ 31)

include hE hh hpos hS

theorem insert_inv (hI : Inv E S h ks calls c) (hc : Allowed h ks calls (.insert w id)) :
    ∃ c', step E c (.insert w id) = some c' ∧ Inv E S h ks (calls ++ [.insert w id]) c' := by
  obtain ⟨hw, hid, hnew, hroom⟩ := hc
  obtain ⟨g, hk⟩ := hI.kept w hw
  obtain rfl := hI.height
  obtain ⟨c', hr, he, hsame, hch, hcs, hdel⟩ := insert_step hE hh hpos hw hS hk.entry hid hk.nonneg
    (hk.ids ▸ hnew) (hk.count ▸ hroom)
  refine ⟨c', hr, hI.next (w := w) hpos rfl hch hcs (g := g.push id) ⟨?_, ?_, ?_, ?_, ?_⟩ hsame⟩
  · rw [searches_snoc]
    exact he
  · rw [Slots.ids_push, liveIds_snoc, hk.ids, effect, if_pos rfl]
  · rw [inserts_snoc]
    simp [Slots.push, Call.isInsert, hk.count]
  · intro p hp
    by_cases hpn : p = g.n
    · simpa [Slots.push, hpn] using hid
    · simp only [Slots.push, Function.update_of_ne hpn] at hp ⊢
      exact hk.nonneg p (by omega)
  · intro z hz
    rw [hdel]
    by_cases hzid : z = id
    · exact ⟨g.n, Nat.lt_succ_self _, by simp [Slots.push, hzid], by rw [hzid, Function.update_self]⟩
    · have hz' : Call.insert w z ∈ calls := by
        rcases List.mem_append.mp hz with h | h
        · exact h
        · exact absurd (by injection List.mem_singleton.mp h) hzid
      obtain ⟨p, hp, hpz, hd⟩ := hk.recorded z hz'
      refine ⟨p, Nat.lt_succ_of_lt hp, by simp [Slots.push, hp.ne, hpz], ?_⟩
      rw [Function.update_of_ne fun e => hzid (Subtype.ext
        (mapKey_inj (hpz ▸ hk.nonneg p hp) hid e).2)]
      exact hd

theorem remove_inv (hI : Inv E S h ks calls c) (hc : Allowed h ks calls (.remove w id)) :
    ∃ c', step E c (.remove w id) = some c' ∧ Inv E S h ks (calls ++ [.remove w id]) c' := by
  obtain ⟨hw, hins⟩ := hc
  obtain ⟨g, hk⟩ := hI.kept w hw
  obtain rfl := hI.height
  obtain ⟨p, hp, hpid, hd⟩ := hk.recorded id hins
  have hn : g.n ≤ 2 ^ 31 :=
    hk.entry.fit.trans (Nat.pow_le_pow_right (by decide) (by omega))
  obtain ⟨c', hr, he, hsame, hch, hcs, hdel⟩ := remove_step hE hh hpos hw hS hk.entry hp hd
  refine ⟨c', hr, hI.next (w := w) hpos rfl hch hcs (g := g.kill p) ⟨?_, ?_, ?_, hk.nonneg, ?_⟩ hsame⟩
  · rw [searches_snoc]
    exact he
  · rw [liveIds_snoc, ← hk.ids, effect, if_pos rfl]
    exact Slots.ids_kill hpid fun q hq hl e => hk.entry.one hq hl (by rw [e]; exact hd)
  · rw [inserts_snoc]
    exact hk.count
  · intro z hz
    rw [hdel]
    refine hk.recorded z ((List.mem_append.mp hz).resolve_right fun h => ?_)
    cases List.mem_singleton.mp h

/-- A search returns the live ids and keeps the invariant. -/
theorem search_inv (hI : Inv E S h ks calls c) (hw : w ∈ ks) (hins : 0 < inserts calls w)
    (hfit : searches calls w + 1 ≤ S) :
    ∃ c', search E c w = some (liveIds calls w, c') ∧
      Inv E S h ks (calls ++ [.search w]) c' := by
  obtain ⟨g, hk⟩ := hI.kept w hw
  obtain rfl := hI.height
  have hn : 0 < g.n := hk.count ▸ hins
  obtain ⟨he, hsame⟩ := search_step hE hh hpos hw hk.entry hn hfit
  refine ⟨searched E c w (searches calls w) g, ?_, hI.next (w := w) hpos rfl rfl ?_ (g := g)
    ⟨?_, ?_, ?_, hk.nonneg, ?_⟩ hsame⟩
  · rw [search_eq hh hpos hI.server hk.entry hn hS hfit, hk.ids]
  · exact (insertAll_spec _ _ _).1
  · rw [searches_snoc]
    simpa [Call.isSearch] using he
  · rw [liveIds_snoc]
    exact hk.ids
  · rw [inserts_snoc]
    exact hk.count
  · intro z hz
    refine hk.recorded z ((List.mem_append.mp hz).resolve_right fun h => ?_)
    cases List.mem_singleton.mp h

/-- **Every allowed call** succeeds and keeps the invariant. -/
theorem step_inv (hI : Inv E S h ks calls c) (ha : Allowed h ks calls a)
    (hfit : searches (calls ++ [a]) a.keyword ≤ S) :
    ∃ c', step E c a = some c' ∧ Inv E S h ks (calls ++ [a]) c' := by
  cases a with
  | insert w id => exact insert_inv hE hh hpos hS hI ha
  | remove w id => exact remove_inv hE hh hpos hS hI ha
  | search w =>
    rw [searches_snoc] at hfit
    obtain ⟨c', hs, hI'⟩ := search_inv hE hh hpos hS hI ha.1 ha.2
      (by simpa [Call.isSearch, Call.keyword] using hfit)
    exact ⟨c', by rw [step, hs]; rfl, hI'⟩

end

/-! ## Runs -/

/-- The PRF inputs for `ks` and up to `S` searches of each keyword. -/
def prfInputs (ks : List Str) (S : Nat) : Set Block :=
  {x | ∃ w ∈ ks, ∃ s : Nat, s ≤ S ∧ x = (Buf.zero.copyStr w).putInt 12 s}

/-- What a run of `calls` over `ks` assumes, with two more searches to come: short
keywords, allowed calls, counters within `int`, a PRF injective on what an address
keeps of it, and dummies that are no marks. -/
structure RunOk (E : Env) (N : CInt) (ks : List Str) (S : Nat) (calls : List Call) : Prop where
  keyword : ∀ w ∈ ks, Keyword w
  allowed : Each (Allowed (heightOf N) ks) calls
  fits : ∀ w ∈ ks, searches calls w + 2 ≤ S
  int : S < 2 ^ 31
  injOn : Set.InjOn (fun x => head11 (E.derive x)) (prfInputs ks S)
  dummy : ∀ r, ∀ w ∈ ks, ∀ s, s ≤ S → ∀ m k, InTree (heightOf N) m k →
    (E.dummy r).1 ≠ spot E (heightOf N) DKey w s m k

section

variable {E : Env} {N : CInt} {ks : List Str} {S : Nat} {calls : List Call}

theorem RunOk.envOk (hok : RunOk E N ks S calls) : EnvOk E (heightOf N) ks S := by
  refine ⟨?_, hok.dummy⟩
  rintro ⟨w, s⟩ ⟨hw, hs⟩ ⟨v, t⟩ ⟨hv, ht⟩ e
  have hS := hok.int
  simp only at hw hs hv ht
  have hbuf := hok.injOn ⟨w, hw, s, hs, rfl⟩ ⟨v, hv, t, ht, rfl⟩ e
  have hat : ∀ i, ((Buf.zero.copyStr w).putInt 12 s : Block).at' i =
      ((Buf.zero.copyStr v).putInt 12 t : Block).at' i := fun i => by rw [hbuf]
  obtain ⟨-, hw1, hw2⟩ := hok.keyword w hw
  obtain ⟨-, hv1, hv2⟩ := hok.keyword v hv
  have hst : (s : Int) = t := by
    refine Buf.leByte_inj ⟨by omega, by omega⟩ ⟨by omega, by omega⟩ fun k hk => ?_
    have := hat (12 + k)
    rwa [Buf.putInt_at _ _ _ _ (by omega), Buf.putInt_at _ _ _ _ (by omega), if_pos (by omega),
      if_pos (by omega), Nat.add_sub_cancel_left] at this
  refine Prod.ext (nulFree_ext hw1 hv1 hw2 hv2 fun i hi => ?_) (by exact_mod_cast hst)
  have := hat i
  rwa [Buf.putInt_at _ _ _ _ (by omega), Buf.putInt_at _ _ _ _ (by omega), if_neg (by omega),
    if_neg (by omega), Buf.copyStr_zero_at _ _ (by omega), Buf.copyStr_zero_at _ _ (by omega)] at this

theorem heightOf_pos (N : CInt) : 0 < heightOf N := Nat.succ_pos _

theorem heightOf_le (h : N.val ≤ 2 ^ 30) : heightOf N ≤ 31 := by
  have : Nat.clog 2 N.val.toNat ≤ 30 := Nat.clog_le_of_le_pow (by omega)
  unfold heightOf
  omega

theorem run_inv (hN : N.val ≤ 2 ^ 30) (hok : RunOk E N ks S calls) :
    ∃ c, run (step E) (Client.init N) calls = some c ∧ Inv E S (heightOf N) ks calls c := by
  refine Lib.run_inv (fun pre c => Inv E S (heightOf N) ks pre c) inv_init fun pre a c hpre _ hI => ?_
  have ha := hok.allowed.of_prefix hpre
  have hw : a.keyword ∈ ks := by cases a <;> exact ha.1
  refine step_inv hok.envOk (heightOf_le hN) (heightOf_pos N) hok.int hI ha ?_
  have h1 := hok.fits _ hw
  have h2 := searches_mono (w := a.keyword) hpre
  omega

end

/-- **QOS search is exact** when the tree has at most 31 levels: after every
allowed run a search lists the live ids in the order of insertion, each once, and
so does the same search repeated. -/
theorem search_live_exact (E : Env) (N : CInt) (hN : N.val ≤ 2 ^ 30) (ks : List Str) (S : Nat)
    (calls : List Call) (hok : RunOk E N ks S calls) :
    ∃ c, run (step E) (Client.init N) calls = some c ∧
      ∀ w ∈ ks, 0 < inserts calls w → (liveIds calls w).Nodup ∧
        ∃ c' c'', search E c w = some (liveIds calls w, c') ∧
          search E c' w = some (liveIds calls w, c'') := by
  have hh := heightOf_le hN
  obtain ⟨c, hrun, hI⟩ := run_inv hN hok
  refine ⟨c, hrun, fun w hw hins => ?_⟩
  have hfit := hok.fits w hw
  obtain ⟨g, hk⟩ := hI.kept w hw
  obtain ⟨c', hs, hI'⟩ := search_inv hok.envOk hh (heightOf_pos N) hok.int hI hw hins (by omega)
  obtain ⟨c'', hs', -⟩ := search_inv hok.envOk hh (heightOf_pos N) hok.int hI' hw
    (by rw [inserts_snoc]; exact Nat.lt_add_right _ hins) (by
      rw [searches_snoc]
      have := Bool.toNat_le (Call.isSearch w (.search w))
      omega)
  rw [liveIds_snoc] at hs'
  exact ⟨hk.ids ▸ hk.entry.nodup_ids, c', c'', hs, hs'⟩

/-- No encryption, and a PRF that moves the counter into the head of its value. -/
def sampleEnv : Env where
  aes := plainAes
  derive b := fun i => if i.val = 0 then b.at' 0 else b.at' (i.val + 11)
  dummy _ := (fun _ => 1, Buf.zero)

theorem sampleEnv_counter {w : Str} {s t : Nat} (hs : s < 2 ^ 31) (ht : t < 2 ^ 31)
    (e : head11 (getAESRandomValue sampleEnv w s) = head11 (getAESRandomValue sampleEnv w t)) :
    s = t := by
  have hst : (s : Int) = t := by
    refine Buf.leByte_inj ⟨by omega, by omega⟩ ⟨by omega, by omega⟩ fun k hk => ?_
    have := congrFun e ⟨k + 1, by omega⟩
    simp only [head11, getAESRandomValue, sampleEnv, Nat.succ_ne_zero, if_false] at this
    rwa [show k + 1 + 11 = 12 + k by omega, Buf.putInt_at _ _ _ _ (by omega),
      Buf.putInt_at _ _ _ _ (by omega), if_pos (by omega), if_pos (by omega),
      Nat.add_sub_cancel_left] at this
  omega

theorem sampleEnv_injOn {S : Nat} (hS : S < 2 ^ 31) :
    Set.InjOn (fun x => head11 (sampleEnv.derive x)) (prfInputs [[97]] S) := by
  rintro _ ⟨w, hw, s, hs, rfl⟩ _ ⟨v, hv, t, ht, rfl⟩ e
  obtain rfl := List.mem_singleton.mp hw
  obtain rfl := List.mem_singleton.mp hv
  rw [sampleEnv_counter (lt_of_le_of_lt hs hS) (lt_of_le_of_lt ht hS) e]

theorem sampleEnv_ok {N : CInt} {S : Nat} {calls : List Call}
    (hcalls : Each (Allowed (heightOf N) [[97]]) calls) (hfit : searches calls [97] + 2 ≤ S)
    (hS : S < 2 ^ 31) : RunOk sampleEnv N [[97]] S calls where
  keyword w hw := by
    obtain rfl := List.mem_singleton.mp hw
    decide
  allowed := hcalls
  fits w hw := by
    obtain rfl := List.mem_singleton.mp hw
    exact hfit
  int := hS
  injOn := sampleEnv_injOn hS
  dummy _ w _ s _ m k _ e := by
    -- the last byte is never encoded
    have := congrFun e ⟨15, by decide⟩
    simp [sampleEnv, spot, address, Aes.encodeBlock, plainAes, Buf.at'] at this

/-- Two insertions, a removal that marks a leaf, and searches around it. -/
def sampleCalls : List Call :=
  [.insert [97] (cint 5), .insert [97] (cint 6), .search [97],
    .remove [97] (cint 5), .search [97], .insert [97] (cint 5),
    .remove [97] (cint 6)]

theorem search_live_exact_sample :
    ∃ c, run (step sampleEnv) (Client.init ⟨4, by decide⟩) sampleCalls = some c ∧
      ∀ w ∈ [[97]], 0 < inserts sampleCalls w → (liveIds sampleCalls w).Nodup ∧
        ∃ c' c'', search sampleEnv c w = some (liveIds sampleCalls w, c') ∧
          search sampleEnv c' w = some (liveIds sampleCalls w, c'') :=
  search_live_exact sampleEnv ⟨4, by decide⟩ (by decide) [[97]] 4 sampleCalls
    (sampleEnv_ok (by decide +kernel) (by decide) (by decide))

/-- With `N` above `2^30` the tree has 32 levels and `(int)(pow(2, height) - 1)`
leaves the range of `int` in the first insertion. -/
theorem insert_overflows :
    RunOk sampleEnv ⟨2 ^ 30 + 1, by decide⟩ [[97]] 2 [.insert [97] ⟨5, by decide⟩] ∧
      run (step sampleEnv) (Client.init ⟨2 ^ 30 + 1, by decide⟩) [.insert [97] ⟨5, by decide⟩] =
        none := by
  refine ⟨sampleEnv_ok ?_ (by decide) (by decide), ?_⟩
  · rw [heightOf_large]
    decide
  · have hnext : nextCounters (((Client.init ⟨2 ^ 30 + 1, by decide⟩).LOcnt [97]).getD []) =
        some (0, 0) := by decide
    rw [run_cons, step, insert, hnext]
    simp only [Option.bind_eq_bind, Option.bind_some, Client.init, heightOf_large,
      getNodeOnPath_32]
    rfl

end SmallClientSSE.Qos
