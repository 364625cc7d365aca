import SmallClientSSE.Horus.SetupExact
import SmallClientSSE.Horus.Space

/-!
# Failing calls of Horus

A call changes the keys of its keyword and depends on no others, so a call that throws
in the middle is felt by later calls on its keyword only, as long as none of them runs
out of space: the stores share their free blocks. No step undoes another: what a call
changed before it throws stays.
-/

namespace SmallClientSSE.Horus.Space

open Lib Lib.Effect

variable {α β : Type} {w : Kw}

/-! ## Calls are local -/

/-- A step of the client that works on the keys of `w`. -/
abbrev Own (w : Kw) (x : Op α) : Prop :=
  Local (fun h h' => Same h h' w) (fun h h' => ∀ v, v ≠ w → Same h h' v) (fun _ => False) x

/-- A step with blocks that works on the keys of `w`, as long as there is space. -/
abbrev LocalTo (w : Kw) (x : MOp α) : Prop :=
  Local (fun m m' => Same m.client m'.client w)
    (fun m m' => ∀ v, v ≠ w → Same m.client m'.client v) (fun e => e = .noSpace) x

theorem Own.bind {x : Op α} {f : α → Op β} (hx : Own w x) (hf : ∀ a, Own w (f a)) :
    Own w (x >>= f) :=
  Local.bind (fun h1 h2 v hv => (h1 v hv).trans (h2 v hv)) hx fun a _ => hf a

theorem own_of_reads {x : Op α} (hx : Reads (fun h h' => Same h h' w) x) : Own w x :=
  hx.local (fun h => same_refl h w) fun h v _ => same_refl h v

theorem own_insertUpdt (p : Byte) (n : CInt) (value : Str) :
    Own w (Horus.insertUpdt (createBid p w n) value) where
  frame h v hv := ⟨fun q k => FMap.insert_of_ne _ fun e => hv (createBid_inj.mp e).2.1,
    fun _ => rfl, fun _ _ _ => rfl⟩
  alike h h' hs := .ok ⟨fun q k => by
    change (h'.OMAP_updt.insert _ _) _ = (h.OMAP_updt.insert _ _) _
    rw [FMap.insert_apply, FMap.insert_apply, hs.updt], hs.cnts, hs.srch⟩

theorem own_insertCnt (t : Cnt) (value : Str) : Own w (Horus.insertCnt (getBid w t) value) where
  frame h v hv := ⟨fun _ _ => rfl, fun q => FMap.insert_of_ne _ fun e => hv (getBid_inj.mp e).1,
    fun _ _ _ => rfl⟩
  alike h h' hs := .ok ⟨hs.updt, fun q => by
    change (h'.CNTs.insert _ _) _ = (h.CNTs.insert _ _) _
    rw [FMap.insert_apply, FMap.insert_apply, hs.cnts], hs.srch⟩

theorem own_writeBox (i s a : CInt) (value : Str) :
    Own w (Horus.writeBox (oramBid w i s a) value) where
  frame h v hv := ⟨fun _ _ => rfl, fun _ => rfl,
    fun _ _ _ => FMap.insert_of_ne _ fun e => hv (oramBid_inj.mp e).1⟩
  alike h h' hs := .ok ⟨hs.updt, hs.cnts, fun _ _ _ => by
    change (h'.ORAM_srch.insert _ _) _ = (h.ORAM_srch.insert _ _) _
    rw [FMap.insert_apply, FMap.insert_apply, hs.srch]⟩

theorem own_changeCnt (t : Cnt) (k : Int) : Own w (changeCnt (getBid w t) k) := by
  refine Local.get (fun h h' hs => by rw [hs.cnts t]) fun h => ?_
  split
  · exact own_of_reads (.pure _)
  · exact Own.bind (own_of_reads (reads_number _)) fun _ => Own.bind (own_of_reads (reads_add _ _))
      fun _ => Own.bind (own_insertCnt t _) fun _ => own_of_reads (.pure _)

theorem Own.lift {x : Op α} (hx : Own w x) : LocalTo w (lift x) where
  frame m := by
    have h := hx.frame m.client
    unfold Space.lift
    cases hr : x m.client <;> rw [hr] at h <;> exact h
  alike m m' hs := by
    have h := hx.alike m.client m'.client hs
    unfold Space.lift
    cases hr : x m.client <;> cases hr' : x m'.client <;> rw [hr, hr'] at h <;> cases h
    · next h => exact .ok h
    · next h => exact h.elim
    · next h => exact h.elim
    · next h => exact .error h
    · next h => exact h.elim
    · next h => exact h.elim

theorem LocalTo.bind {x : MOp α} {f : α → MOp β} (hx : LocalTo w x) (hf : ∀ a, LocalTo w (f a)) :
    LocalTo w (x >>= f) :=
  Local.bind (fun h1 h2 v hv => (h1 v hv).trans (h2 v hv)) hx fun a _ => hf a

theorem local_pure (a : α) : LocalTo w (pure a : MOp α) :=
  Reads.local (fun m => same_refl m.client w) (fun m v _ => same_refl m.client v) (.pure a)

theorem local_reduceEmpty (s : Store) : LocalTo w (reduceEmpty s) where
  frame m v _ := by
    unfold reduceEmpty
    split
    · exact same_refl _ v
    · exact same_refl _ v
  alike m m' hs := by
    unfold reduceEmpty
    split
    · split
      · exact .ok hs
      · exact .right rfl
    · exact .left rfl

section

variable {p : Byte} {n i s a : CInt} {t : Cnt} {k : Int} (value : Str)

theorem local_number : LocalTo w (lift (number value)) := (own_of_reads (reads_number _)).lift

theorem local_add (a : CInt) (k : Int) : LocalTo w (lift (add a k)) :=
  (own_of_reads (reads_add _ _)).lift

theorem local_tokenAt (tokens : List Str) (i : Nat) : LocalTo w (lift (tokenAt tokens i)) :=
  (own_of_reads (reads_tokenAt _ _)).lift

theorem local_findUpdt : LocalTo w (lift (findUpdt (createBid p w n))) :=
  (own_of_reads (reads_findUpdt fun h h' hs => by rw [FMap.find, FMap.find, hs.updt])).lift

theorem local_findCnt : LocalTo w (lift (findCnt (getBid w t))) :=
  (own_of_reads (reads_findCnt fun h h' hs => by rw [FMap.find, FMap.find, hs.cnts])).lift

theorem local_changeCnt : LocalTo w (lift (changeCnt (getBid w t) k)) := (own_changeCnt t k).lift

theorem local_insertUpdt : LocalTo w (insertUpdt (createBid p w n) value) :=
  .get (fun m m' hs => by rw [hs.updt p n]) fun _ => .ite (own_insertUpdt _ _ _).lift
    ((local_reduceEmpty _).bind fun _ => (own_insertUpdt _ _ _).lift)

theorem local_insertCnt : LocalTo w (insertCnt (getBid w t) value) :=
  .get (fun m m' hs => by rw [hs.cnts t]) fun _ => .ite (own_insertCnt _ _).lift
    ((local_reduceEmpty _).bind fun _ => (own_insertCnt _ _).lift)

theorem local_writeBox : LocalTo w (writeBox (oramBid w i s a) value) :=
  (local_reduceEmpty _).bind fun _ => (own_writeBox _ _ _ _).lift

end

theorem local_batchWrite : ∀ {items : List (Bid 24 × Str)},
    (∀ e ∈ items, ∃ i s a, e.1 = oramBid w i s a) → LocalTo w (batchWrite items)
  | [], _ => local_pure ()
  | (key, value) :: items, h => by
    obtain ⟨i, s, a, hk⟩ := h _ List.mem_cons_self
    obtain rfl : key = oramBid w i s a := hk
    exact (local_writeBox value).bind fun _ =>
      local_batchWrite fun e he => h e (List.mem_cons_of_mem _ he)

theorem mem_entries {q : FMap 24} {e : Bid 24 × Str} (he : e ∈ entries q) : (q e.1).isSome := by
  obtain ⟨k, hk, rfl⟩ := List.mem_map.mp he
  simpa using hk

section

variable (keyword : Kw)

theorem local_insertCounters : LocalTo keyword (insertCounters keyword) :=
  local_changeCnt.bind fun _ => .ite
    ((local_insertCnt _).bind fun _ => (local_insertCnt _).bind fun _ =>
      (local_insertCnt _).bind fun _ => local_pure _)
    ((local_number _).bind fun _ => local_findCnt.bind fun _ => (local_number _).bind fun _ =>
      local_findCnt.bind fun _ => (local_number _).bind fun _ => local_pure _)

theorem local_accessCounter : LocalTo keyword (accessCounter keyword) :=
  local_findCnt.bind fun _ => .ite ((local_insertCnt _).bind fun _ => local_pure _)
    (local_number _)

theorem local_raiseAccess (a b : CInt) : LocalTo keyword (raiseAccess keyword a b) :=
  .ite (local_insertCnt _) (local_pure _)

theorem local_nextAccess (a b : CInt) : LocalTo keyword (nextAccess keyword a b) :=
  local_findUpdt.bind fun _ => .ite (local_pure _)
    ((local_tokenAt _ _).bind fun _ => (local_number _).bind fun _ => (local_add _ _).bind fun _ =>
      (local_raiseAccess keyword _ _).bind fun _ => local_pure _)

theorem local_countNew (i s a l : CInt) : LocalTo keyword (countNew keyword i s a l) :=
  .ite ((local_add _ _).bind fun _ => (local_insertCnt _).bind fun _ =>
    .ite (local_writeBox _) (local_pure _)) (local_pure _)

theorem local_insert (ind : CInt) : LocalTo keyword (insert keyword ind) :=
  local_findUpdt.bind fun _ => .ite
    ((local_insertCounters keyword).bind fun _ => (local_accessCounter keyword).bind fun _ =>
      (local_add _ _).bind fun _ => (local_nextAccess keyword _ _).bind fun _ =>
      (local_insertUpdt _).bind fun _ => (local_insertUpdt _).bind fun _ =>
      (local_writeBox _).bind fun _ => (local_countNew keyword _ _ _ _).bind fun _ =>
      local_insertCnt _)
    (local_pure _)

theorem local_moveLast (i a s l : CInt) : LocalTo keyword (moveLast keyword i a s l) :=
  (local_add _ _).bind fun _ => local_findCnt.bind fun _ => (local_number _).bind fun _ =>
    (local_raiseAccess keyword _ _).bind fun _ => (local_writeBox _).bind fun _ =>
    (local_insertUpdt _).bind fun _ => local_insertUpdt _

theorem local_remove (ind : CInt) : LocalTo keyword (remove keyword ind) := by
  refine local_findUpdt.bind fun _ => (local_tokenAt _ _).bind fun _ => (local_number _).bind
    fun _ => .ite ?_ (local_pure _)
  refine (local_tokenAt _ _).bind fun _ => (local_number _).bind fun _ => (local_add _ _).bind
    fun _ => (local_insertUpdt _).bind fun _ => local_changeCnt.bind fun _ =>
    (local_number _).bind fun _ => (local_add _ _).bind fun _ => .ite ?_ (local_insertCnt _)
  refine local_findCnt.bind fun _ => (local_number _).bind fun _ => local_findCnt.bind fun _ =>
    (local_number _).bind fun _ => ?_
  dsimp only
  refine .ite ((local_moveLast keyword _ _ _ _).bind fun _ => ?_) ?_
  all_goals
    exact local_findUpdt.bind fun _ => (local_tokenAt _ _).bind fun _ => (local_number _).bind
      fun _ => local_insertCnt _

theorem local_search : LocalTo keyword (search keyword) :=
  local_findCnt.bind fun _ => (local_number _).bind fun _ => local_findCnt.bind fun _ =>
    (local_number _).bind fun _ => local_changeCnt.bind fun _ => (local_number _).bind fun srcCnt =>
    (local_add _ _).bind fun next => by
      refine Local.bind (fun h1 h2 v hv => (h1 v hv).trans (h2 v hv))
        (own_of_reads (reads_rounds srcCnt next (fun h h' hs i s a => ?_) _ _ _ _)).lift
        fun r ⟨m, m', hr⟩ => ?_
      · rw [FMap.find, FMap.find, hs.srch]
      · -- the queued boxes are those of the keyword
        have hq : OwnBoxes keyword r.2 := by
          unfold lift at hr
          split at hr
          · next hr' =>
            cases hr
            exact OwnBoxes.rounds hr' ownBoxes_empty
          · cases hr
        exact (local_batchWrite fun e he => hq _ (mem_entries he)).bind fun _ =>
          (local_insertCnt _).bind fun _ => local_pure _

/-- **A call** works on the keys of its keyword. -/
theorem local_perform : ∀ c : Call, LocalTo c.keyword (perform c)
  | .insert w z => (local_insert w z).bind fun _ => local_pure _
  | .remove w z => (local_remove w z).bind fun _ => local_pure _
  | .search w => local_search w

end

/-! ## Calls one after another -/

inductive Outcome where
  | done (result : List CInt)
  | failed (e : Failure)
  deriving DecidableEq

def outcome : EStateM.Result Failure Metered (List CInt) → Outcome
  | .ok result _ => .done result
  | .error e _ => .failed e

/-- Calls with their outcomes; the caller goes on after a failure. -/
def trace : Metered → List Call → List (Call × Outcome)
  | _, [] => []
  | m, c :: cs => (c, outcome (perform c m)) :: trace (after (perform c m)) cs

/-- The calls on `v`. -/
def seen (v : Kw) (t : List (Call × Outcome)) : List (Call × Outcome) :=
  t.filter fun e => e.1.keyword = v

/-- No call on `v` runs out of space. -/
def HasRoom (v : Kw) (t : List (Call × Outcome)) : Prop := ∀ e ∈ seen v t, e.2 ≠ .failed .noSpace

section

variable {m m' : Metered} {c : Call} {v : Kw}

theorem same_after (hs : Same m.client m'.client v) (hc : v ≠ c.keyword) :
    Same (after (perform c m)).client (after (perform c m')).client v :=
  (((local_perform c).frame m v hc).symm.trans hs).trans ((local_perform c).frame m' v hc)

theorem seen_cons (r : Outcome) (t : List (Call × Outcome)) :
    seen v ((c, r) :: t) = if c.keyword = v then (c, r) :: seen v t else seen v t := by
  simp [seen, List.filter_cons]

/-- **Two runs** of states that agree on `v` see the same of `v`. -/
theorem seen_trace : ∀ {cs : List Call} {m m' : Metered}, Same m.client m'.client v →
    HasRoom v (trace m cs) → HasRoom v (trace m' cs) → seen v (trace m cs) = seen v (trace m' cs)
  | [], _, _, _, _, _ => rfl
  | c :: cs, m, m', hs, h1, h2 => by
    simp only [HasRoom, trace, seen_cons] at h1 h2 ⊢
    by_cases hc : c.keyword = v
    · simp only [hc, if_true, List.forall_mem_cons] at h1 h2 ⊢
      obtain ⟨hn1, h1⟩ := h1
      obtain ⟨hn2, h2⟩ := h2
      have hlike := (local_perform c).alike m m' (hc ▸ hs)
      rw [hc] at hlike
      cases hr : perform c m <;> cases hr' : perform c m' <;>
        simp only [hr, hr', outcome, after] at hlike hn1 hn2 h1 h2 ⊢ <;> cases hlike
      · next hs' => rw [seen_trace hs' h1 h2]
      · next e => exact absurd (congrArg _ e) hn2
      · next e => exact absurd (congrArg _ e) hn1
      · next hs' => rw [seen_trace hs' h1 h2]
      · next e => exact absurd (congrArg _ e) hn1
      · next e => exact absurd (congrArg _ e) hn2
    · simp only [hc, if_false] at h1 h2 ⊢
      exact seen_trace (same_after hs (Ne.symm hc)) h1 h2

/-! ## After a failure -/

/-- A counter that `search` reads before it writes has no number. -/
def Unread (h : Client) (w : Kw) : Prop :=
  ∃ t, (t = .UpdtCnt ∨ t = .Access ∨ t = .SrchCnt) ∧ stoi (h.CNTs.find (getBid w t)) = none

theorem lift_error {x : Op α} {f : Fault} {h : Client} (hx : x m.client = .error f h) :
    lift x m = .error (.fault f) { m with client := h } := by
  simp only [lift, hx]

theorem lift_ok {x : Op α} {a : α} {h : Client} (hx : x m.client = .ok a h) :
    lift x m = .ok a { m with client := h } := by
  simp only [lift, hx]

theorem number_none {s : Str} {h : Client} (hs : stoi s = none) : number s h = .error .stoi h := by
  rw [number, hs]
  rfl

/-- **Such a search** fails before it changes anything. -/
theorem search_unread {w : Kw} (hu : Unread m.client w) :
    search w m = .error (.fault .stoi) m := by
  have read : ∀ t, lift (findCnt (getBid w t)) m = .ok (m.client.CNTs.find (getBid w t)) m :=
    fun _ => rfl
  obtain ⟨t, ht, hnone⟩ := hu
  unfold search
  rw [bind_ok _ (read .UpdtCnt)]
  cases h1 : stoi (m.client.CNTs.find (getBid w .UpdtCnt)) with
  | none => rw [bind_error _ (lift_error (number_none h1))]
  | some updtCnt =>
    rw [bind_ok _ (lift_ok (number_ok h1)), bind_ok _ (read .Access)]
    cases h2 : stoi (m.client.CNTs.find (getBid w .Access)) with
    | none => rw [bind_error _ (lift_error (number_none h2))]
    | some accessCnt =>
      rw [bind_ok _ (lift_ok (number_ok h2))]
      have h3 : stoi (m.client.CNTs.find (getBid w .SrchCnt)) = none := by
        rcases ht with rfl | rfl | rfl
        · rw [h1] at hnone
          cases hnone
        · rw [h2] at hnone
          cases hnone
        · exact hnone
      cases hk : m.client.CNTs (getBid w .SrchCnt) with
      | none =>
        rw [bind_ok _ (lift_ok (changeCnt_absent hk)), bind_error _ (lift_error (number_none rfl))]
      | some res =>
        rw [find_some hk] at h3
        have hget : (get : Op Client) m.client = .ok m.client m.client := rfl
        rw [bind_error]
        refine lift_error (h := m.client) ?_
        rw [changeCnt, bind_ok _ hget, hk]
        exact bind_error _ (number_none h3)

end

/-- **A failing call** is not felt by later calls on other keywords that find space, and not
at all when it is a search that fails before it raises `SrchCnt`. -/
theorem failure_confined (m m' : Metered) (c : Call) (e : Failure)
    (hfail : perform c m = .error e m') :
    (∀ v, v ≠ c.keyword → ∀ later, HasRoom v (trace m later) → HasRoom v (trace m' later) →
      seen v (trace m' later) = seen v (trace m later)) ∧
    ∀ w, c = .search w → Unread m.client w → ∀ later, trace m' later = trace m later := by
  refine ⟨fun v hv later h1 h2 => ?_, fun w hc hu later => ?_⟩
  · have hframe := (local_perform c).frame m v hv
    rw [hfail] at hframe
    exact (seen_trace hframe h1 h2).symm
  · subst hc
    have hsame := search_unread hu
    rw [show search w m = perform (.search w) m from rfl, hfail] at hsame
    cases hsame
    rfl

/-! ## What a failure breaks -/

theorem search_run {m : Metered} {w : Kw} {updtCnt accessCnt srcCnt next : CInt} {h : Client}
    {result : List CInt} {query : FMap 24} {text : Str}
    (h1 : stoi (m.client.CNTs.find (getBid w .UpdtCnt)) = some updtCnt)
    (h2 : stoi (m.client.CNTs.find (getBid w .Access)) = some accessCnt)
    (h3 : changeCnt (getBid w .SrchCnt) 1 m.client = .ok text h) (h4 : stoi text = some srcCnt)
    (h5 : add srcCnt 1 h = .ok next h)
    (h6 : rounds w srcCnt next (loopFuel accessCnt) true (initSlots updtCnt accessCnt)
      (fun _ => none) h = .ok (result, query) h) :
    search w m = (do
      batchWrite (entries query)
      insertCnt (getBid w .latestUpdatedCounter) (intStr result.length)
      pure result : MOp (List CInt)) { m with client := h } := by
  have read : ∀ t, lift (findCnt (getBid w t)) m = .ok (m.client.CNTs.find (getBid w t)) m :=
    fun _ => rfl
  rw [search, bind_ok _ (read .UpdtCnt), bind_ok _ (lift_ok (number_ok h1)),
    bind_ok _ (read .Access), bind_ok _ (lift_ok (number_ok h2)), bind_ok _ (lift_ok h3),
    bind_ok _ (lift_ok (number_ok h4)), bind_ok _ (lift_ok h5), bind_ok _ (lift_ok h6)]

theorem entries_single (k : Bid 24) (v : Str) :
    entries (FMap.insert (fun _ => none) k v) = [(k, v)] := by
  have : (Finset.univ.filter fun j => (FMap.insert (fun _ => none) k v j).isSome) = {k} := by
    ext j
    by_cases hj : j = k
    · simp [FMap.insert_apply, hj]
    · simp [FMap.insert_apply, hj]
  rw [entries, this, Finset.sort_singleton]
  simp [FMap.find, FMap.insert_self]

/-- `Horus(…, 4)` after the setup of the pair `("a", 1)`. -/
def loaded : Metered :=
  endSetup { Metered.init 4 with client := after (setupInsert kwA one Client.init) }

/-- A call that fails on the missing `latestUpdatedCounter`. -/
def unknownCounter : Call := .insert kwA (cint 2)

/-- A call that takes the last three free blocks of `CNTs` and fails. -/
def fifthCounter : Call := .insert kwB one

theorem eq_error_of_outcome {r : EStateM.Result Failure Metered (List CInt)} {e : Failure}
    (h : outcome r = .failed e) : r = .error e (after r) := by
  cases r with
  | ok => cases h
  | error e' s =>
    cases h
    rfl

theorem failure_confined_loaded :
    (∀ v, v ≠ kwA → ∀ later, HasRoom v (trace loaded later) →
      HasRoom v (trace (after (perform unknownCounter loaded)) later) →
      seen v (trace (after (perform unknownCounter loaded)) later) =
        seen v (trace loaded later)) ∧
    ∀ w, unknownCounter = .search w → Unread loaded.client w → ∀ later,
      trace (after (perform unknownCounter loaded)) later = trace loaded later :=
  failure_confined loaded _ unknownCounter (.fault .stoi) (eq_error_of_outcome (by decide +kernel))

def counted (h : Client) : Client :=
  { h with CNTs := h.CNTs.insert (getBid kwA .SrchCnt) (intStr (zero.val + 1)) }

theorem search_first {m : Metered} (hs : Same loaded.client m.client kwA) :
    search kwA m = (do
      batchWrite [(oramBid kwA one one one, intStr 1)]
      insertCnt (getBid kwA .latestUpdatedCounter) (intStr 1)
      pure [one] : MOp (List CInt)) ⟨counted m.client, m.free⟩ := by
  have hfind : ∀ t v, loaded.client.CNTs.find (getBid kwA t) = v →
      m.client.CNTs.find (getBid kwA t) = v := fun t v h => by
    rw [FMap.find, hs.cnts]
    exact h
  have hloop : rounds kwA zero one (loopFuel one) true (initSlots one one) (fun _ => none)
      loaded.client = .ok ([one], FMap.insert (fun _ => none) (oramBid kwA one one one) (intStr 1))
        loaded.client := by with_unfolding_all rfl
  have hbox : ∀ i s a, loaded.client.ORAM_srch.find (oramBid kwA i s a) =
      (counted m.client).ORAM_srch.find (oramBid kwA i s a) := fun i s a => by
    rw [FMap.find, ← hs.srch]
    rfl
  have hround : rounds kwA zero one (loopFuel one) true (initSlots one one) (fun _ => none)
      (counted m.client) = .ok ([one], FMap.insert (fun _ => none) (oramBid kwA one one one)
        (intStr 1)) (counted m.client) := by
    have hreads : Reads (fun h h' => ∀ i s a,
        h.ORAM_srch.find (oramBid kwA i s a) = h'.ORAM_srch.find (oramBid kwA i s a))
        (rounds kwA zero one (loopFuel one) true (initSlots one one) fun _ => none) :=
      reads_rounds zero one (fun _ _ h => h) _ _ _ _
    rcases hreads loaded.client (counted m.client) hbox with ⟨r, h1, h2⟩ | ⟨e, h1, -⟩
    · rw [hloop] at h1
      cases h1
      exact h2
    · rw [hloop] at h1
      cases h1
  have hone : stoi (intStr 1) = some one := by decide
  have hupdt := hfind .UpdtCnt (intStr 1) (by decide +kernel)
  have haccess := hfind .Access (intStr 1) (by decide +kernel)
  have hsrch : m.client.CNTs (getBid kwA .SrchCnt) = some (intStr zero.val) :=
    (hs.cnts .SrchCnt).trans (by decide +kernel)
  rw [search_run (hupdt ▸ hone) (haccess ▸ hone) (changeCnt_run hsrch (by decide)) (by decide) rfl
    hround, entries_single]
  rfl

/-- **Failures are felt**: after the first one the search of the same keyword fails, after the
second one that of another keyword finds no block; without them it returns `1`. -/
theorem failures_felt :
    outcome (perform unknownCounter loaded) = .failed (.fault .stoi) ∧
    outcome (perform fifthCounter loaded) = .failed .noSpace ∧
    trace loaded [.search kwA] = [(.search kwA, .done [one])] ∧
    trace (after (perform unknownCounter loaded)) [.search kwA] =
      [(.search kwA, .failed (.fault .stoi))] ∧
    trace (after (perform fifthCounter loaded)) [.search kwA] =
      [(.search kwA, .failed .noSpace)] := by
  refine ⟨by decide +kernel, by decide +kernel, ?_, by decide +kernel, ?_⟩
  · simp only [trace, perform]
    rw [search_first (same_refl _ _)]
    decide +kernel
  · simp only [trace]
    rw [show perform (.search kwA) = search kwA from rfl,
      search_first ((local_perform fifthCounter).frame loaded kwA (by decide))]
    decide +kernel

end SmallClientSSE.Horus.Space
