import SmallClientSSE.Static.DeAmortizedExact

/-!
# The merges of a run of the DeAmortized scheme

`history E i` lists what each update of a run does at level `i`: nothing, or a move
with the number it computes for the NEW set, the size that set reaches, and the place
a complete set takes. `merge_schedule` describes it without the closed formula: by
the moves and completions before.
-/

namespace SmallClientSSE.DeAmortized

open Lib Lib.MergeSchedule Static BASClient

structure Move where
  upCnt : Int
  size : Nat
  place : Option Nat
  deriving DecidableEq

section

variable (E : Env)

def moveAt (i : Nat) (setup : Bool) (c : Client) : Option (Option Move) :=
  if ready c i then
    (move E c i setup).map fun r =>
      some ⟨upCnt c i, newSize r.2 i, if newSize r.2 i = 2 ^ i then freePlace r.2 i else none⟩
  else some none

/-- What is seen as the updates of a run reach level `i`. -/
def along {β : Type} (i : Nat) (see : Bool → Client → Option β) :
    Client → List Call → Option (List β)
  | _, [] => some []
  | c, .update u setup :: as => do
    let c1 ← reach E c setup i
    let b ← see setup c1
    let c' ← step E c (.update u setup)
    let bs ← along i see c' as
    pure (b :: bs)
  | c, a :: as => do
    let c' ← step E c a
    along i see c' as

/-- What the updates of a run do at level `i`. -/
def history (i : Nat) (c : Client) (calls : List Call) : Option (List (Option Move)) :=
  along E i (moveAt E i) c calls

/-- Whether the updates of a run find the place of their record empty. -/
def entries (c : Client) (calls : List Call) : Option (List Bool) :=
  along E 0 (fun _ c => some (free c (recordPlace c) 0)) c calls

def placeRecords (c : Client) (j i : Nat) : List (Str × Byte × CInt) :=
  if i < localSize then (c.data j i).pairs.map fun p => readRecord p.2
  else (c.L.server j i).pairs.map fun item =>
    readRecord (E.aes.decode item.2 (some (c.keys j i)))

end

def moves (es : List (Option Move)) : Nat := es.countP fun e => e.isSome

def completed (i : Nat) (es : List (Option Move)) : Nat :=
  es.countP fun e => e.any fun mv => mv.size = 2 ^ i

/-! ## The schedule of a level -/

/-- What the schedule has the update after `t` others do at level `i`. -/
def scheduled (l i t : Nat) : Option Move :=
  if Due i t then
    some ⟨done i t + 1, moved i t + 1, if moved i t + 1 = 2 ^ i then
      some (done i t - base l (stage done t (i - 1)) i) else none⟩
  else none

theorem completed_scheduled (l i : Nat) : ∀ k,
    completed i ((List.range k).map (scheduled l i)) = done i k := by
  intro k
  induction k with
  | zero => simp [completed]
  | succ k ih =>
    rw [List.range_succ, List.map_append, completed, List.countP_append, ← completed, ih,
      List.map_singleton, List.countP_singleton]
    by_cases hdue : Due i k
    · by_cases heq : moved i k + 1 = 2 ^ i
      · simp [scheduled, hdue, heq, (succ_of_eq hdue heq).1]
      · simp [scheduled, hdue, heq, done_succ_of_not_full fun h => heq h.2]
    · simp [scheduled, hdue, (succ_of_not_due hdue).1]

theorem moves_scheduled (l i : Nat) : ∀ k,
    moves ((List.range k).map (scheduled l i)) = k + 2 - 2 ^ (i + 1) := by
  intro k
  have hp : 2 ≤ 2 ^ (i + 1) := by
    have := Nat.two_pow_pos i
    rw [pow_succ]
    omega
  induction k with
  | zero => simp [moves]; omega
  | succ k ih =>
    rw [List.range_succ, List.map_append, moves, List.countP_append, ← moves, ih,
      List.map_singleton, List.countP_singleton]
    by_cases hdue : Due i k
    · have hle : 2 ^ (i + 1) ≤ k + 2 := hdue
      simp [scheduled, hdue]
      omega
    · have hlt : ¬ 2 ^ (i + 1) ≤ k + 2 := hdue
      simp [scheduled, hdue]
      omega

theorem scheduled_some {l i t : Nat} {mv : Move} (h : scheduled l i t = some mv) :
    Due i t ∧ mv.upCnt = done i t + 1 ∧ mv.size = moved i t + 1 ∧
      (mv.size = 2 ^ i → mv.place = some (done i t - base l (stage done t (i - 1)) i)) := by
  unfold scheduled at h
  split at h
  · next hdue =>
    obtain rfl := Option.some.inj h
    exact ⟨hdue, rfl, rfl, fun hsize => if_pos hsize⟩
  · cases h

theorem getElem_scheduled {l i n k : Nat} {e : Option Move} :
    ((List.range n).map (scheduled l i))[k]? = some e ↔ k < n ∧ scheduled l i k = e := by
  rw [List.getElem?_map]
  by_cases hk : k < n
  · simp [hk]
  · simp [hk]

/-! ## Along a run -/

section

variable {E : Env} {l : Nat} {all : List Call}

/-- What is seen at every update of a run, when it follows from the number of updates
before. -/
theorem along_eq {β : Type} {i : Nat} {see : Bool → Client → Option β} {g : Nat → β}
    (hok : RunOk E l all)
    (hsee : ∀ pre u setup post c, pre ++ .update u setup :: post = all → runCalls E l pre = some c →
      ∃ c1, reach E c setup i = some c1 ∧ see setup c1 = some (g (updatesOf pre).length)) :
    along E i see (Client.init E l) all = some ((List.range (updatesOf all).length).map g) := by
  obtain ⟨phase, hrun⟩ := run_between hok
  have key : ∀ post pre c, pre ++ post = all → runCalls E l pre = some c →
      along E i see c post =
        some ((List.range' (updatesOf pre).length (updatesOf post).length).map g) := by
    intro post
    induction post with
    | nil => intros; rfl
    | cons a post ih =>
      intro pre c hall hc
      have hall' : (pre ++ [a]) ++ post = all := by rw [← hall, List.append_assoc]; rfl
      obtain ⟨c', hc', -⟩ := hrun (pre ++ [a]) post hall'
      have hstep : step E c a = some c' := by
        have := hc'
        rw [runCalls, run_append, ← runCalls, hc] at this
        simpa using this
      have hrest := ih (pre ++ [a]) c' hall' hc'
      rw [updatesOf_append, List.length_append] at hrest
      cases a with
      | update u setup =>
        obtain ⟨c1, hc1, hb⟩ := hsee pre u setup post c hall hc
        simp only [along, hc1, hb, hstep, hrest, Option.bind_eq_bind, Option.bind_some,
          Option.pure_def, updatesOf, List.length_cons, List.length_nil, List.range'_succ,
          List.map_cons, Nat.zero_add]
      | endSetup =>
        simp only [along, hstep, hrest, Option.bind_eq_bind, Option.bind_some, updatesOf,
          List.length_nil, Nat.add_zero]
      | search w =>
        simp only [along, hstep, hrest, Option.bind_eq_bind, Option.bind_some, updatesOf,
          List.length_nil, Nat.add_zero]
  rw [key all [] _ (List.nil_append _) rfl, List.range_eq_range']
  rfl

theorem reach_between (hok : RunOk E l all) {pre post : List Call} {u : Upd} {setup : Bool}
    {c : Client} (hall : pre ++ .update u setup :: post = all) (hc : runCalls E l pre = some c)
    (i : Nat) :
    (∀ v ∈ updatesOf pre, v.keyword ∈ all.filterMap Call.keyword?) ∧
    (updatesOf pre).length + 1 ≤ (updatesOf all).length ∧
    ∃ c1, reach E c setup i = some c1 ∧ c1.updateCounter = ((updatesOf pre).length + 1 : Nat) ∧
      Inv E (all.filterMap Call.keyword?) l (updatesOf all).length (updatesOf pre) setup
        (stage done (updatesOf pre).length i) (stage moved (updatesOf pre).length i) c1 := by
  obtain ⟨phase, hrun⟩ := run_between hok
  obtain ⟨c', hc', hphase, hbetween⟩ := hrun pre (.update u setup :: post) hall
  obtain rfl : c' = c := Option.some.inj (hc'.symm.trans hc)
  rw [phased, Bool.and_eq_true, beq_iff_eq] at hphase
  rw [← hphase.1] at hbetween
  have hsplit : updatesOf all = updatesOf pre ++ u :: updatesOf post := by
    rw [← hall, updatesOf_append]
    rfl
  have hlen := congrArg List.length hsplit
  rw [List.length_append, List.length_cons] at hlen
  have hmem : ∀ v ∈ updatesOf pre, v.keyword ∈ all.filterMap Call.keyword? := fun v hv =>
    keyword_of_mem_updatesOf (hsplit ▸ List.mem_append_left _ hv)
  have hcap := hok.capacity
  exact ⟨hmem, by omega, hbetween.2.reach hok.prf hok.keyword hmem (by omega) hok.int (by omega)
    hbetween.1 i⟩

/-- **The moves of a run are those of the schedule.** -/
theorem history_eq (hok : RunOk E l all) {m : Nat} (hm : m + 1 < l) :
    history E (m + 1) (Client.init E l) all =
      some ((List.range (updatesOf all).length).map (scheduled l (m + 1))) := by
  refine along_eq hok fun pre u setup post c hall hc => ?_
  obtain ⟨hmem, hlen, c1, hc1, htime, hI⟩ := reach_between hok hall hc (m + 1)
  have hcap := hok.capacity
  refine ⟨c1, hc1, ?_⟩
  unfold moveAt scheduled
  rcases hI.round hok.prf hok.keyword hmem hlen hok.int (by omega) hm htime with
    ⟨hdue, hr⟩ | ⟨hdue, hr, hup, w, c2, hmove, -, hsize, -, hfree⟩
  · rw [hr, if_neg Bool.false_ne_true, if_neg hdue]
  · rw [hr, if_pos rfl, if_pos hdue, hmove, Option.map_some, hsize, hup, Nat.add_sub_cancel]
    by_cases heq : moved (m + 1) (updatesOf pre).length + 1 = 2 ^ (m + 1)
    · rw [if_pos heq, if_pos heq, hfree heq]
    · rw [if_neg heq, if_neg heq]

/-- **Every record finds its place empty.** -/
theorem entries_eq (hok : RunOk E l all) : entries E (Client.init E l) all =
    some ((List.range (updatesOf all).length).map fun _ => true) := by
  refine along_eq hok fun pre u setup post c hall hc => ?_
  obtain ⟨hmem, hlen, c1, hc1, -, hI⟩ := reach_between hok hall hc 0
  have hcap := hok.capacity
  have hd0 : stage done (updatesOf pre).length 0 0 = (updatesOf pre).length :=
    (stage_of_le le_rfl).trans (done_zero _)
  exact ⟨c1, hc1, congrArg some (hI.recordPlace_eq rfl hd0
    (sched_stage (by omega) 0) (room_zero (by omega))).2⟩

/-- The records of a place are those of its set. -/
theorem Inv.placeRecords_perm {ks : List Str} {n : Nat} {us : List Upd} {setup : Bool}
    {d f : Nat → Nat} {c : Client} (hI : Inv E ks l n us setup d f c)
    (hus : ∀ u ∈ us, Keyword u.keyword) (i : Nat) {j : Nat} (hj : j < 3) :
    (placeRecords E c j i).Perm
      ((contents l d us i j).map fun u => (u.keyword, u.op.toByte, u.ind)) := by
  obtain ⟨items, hst, hperm, -, -⟩ := hI.place i j hj
  have hcont : ∀ u ∈ contents l d us i j, Keyword u.keyword := by
    intro u hu
    unfold contents at hu
    split at hu
    · exact hus u (mem_of_mem_block hu)
    · cases hu
  have hitems : (items.map fun p => head15 p.2).Perm
      ((contents l d us i j).map fun u => head15 u.value) := by
    have := hperm.map Prod.snd
    rwa [List.map_map, List.map_map] at this
  unfold placeRecords
  split
  · next hi =>
    rw [Client.setAt, if_pos hi] at hst
    have := (Numbered.values hst).map head15
    rw [List.map_map (l := items)] at this
    have := perm_readRecord_of_perm hcont (this.trans hitems)
    rwa [List.map_map] at this
  · next hi =>
    rw [Client.setAt, if_neg hi] at hst
    have := (Numbered.values hst).map fun v => head15 (E.aes.decode v (some (c.keys j i)))
    simp only [encoded, List.map_map, Function.comp_def, Aes.head15_decode] at this
    have hblocks : (((c.L.server j i).pairs.map fun item =>
        E.aes.decode item.2 (some (c.keys j i))).map head15).Perm
          (items.map fun p => head15 p.2) := by
      rwa [List.map_map]
    have := perm_readRecord_of_perm hcont (hblocks.trans hitems)
    rwa [List.map_map] at this

/-- **The places of all levels hold the record of every update once.** -/
theorem Between.records_perm {ks : List Str} {n : Nat} {us : List Upd} {setup : Bool} {c : Client}
    (hcap : us.length ≤ 3 * 2 ^ max l 1 - 3) (h : Between E ks l n us setup c)
    (hus : ∀ u ∈ us, Keyword u.keyword) :
    ((List.range (max l 1)).flatMap fun i => [0, 1, 2].flatMap fun j =>
      placeRecords E c j i).Perm (us.map fun u => (u.keyword, u.op.toByte, u.ind)) := by
  have hplace : ∀ i ∈ List.range (max l 1), ([0, 1, 2].flatMap fun j => placeRecords E c j i).Perm
      ([0, 1, 2].flatMap fun j => (contents l (fun k => done k us.length) us i j).map
        fun u => (u.keyword, u.op.toByte, u.ind)) := by
    intro i _
    refine List.Perm.flatMap_left _ fun j hj => h.2.placeRecords_perm hus i ?_
    simp only [List.mem_cons, List.not_mem_nil, or_false] at hj
    omega
  refine (List.Perm.flatMap_left _ hplace).trans ?_
  have hall := (perm_contents hcap).map fun u => (u.keyword, u.op.toByte, u.ind)
  simpa only [List.map_flatMap] using hall

end

/-- **The merge schedule** of a run of fewer than `2 ^ 31` updates. -/
theorem merge_schedule (E : Env) (l : Nat) (calls : List Call) (hl : 1 ≤ l)
    (hcap : (updatesOf calls).length ≤ 3 * 2 ^ l - 3) (hint : (updatesOf calls).length < 2 ^ 31)
    (hkeyword : ∀ w ∈ calls.filterMap Call.keyword?, Keyword w)
    (horder : phased true calls = true ∨ phased false calls = true)
    (hprf : PrfInj E (calls.filterMap Call.keyword?) l (updatesOf calls).length) :
    (∀ i, 1 ≤ i → i < l → ∃ es, history E i (Client.init E l) calls = some es ∧
      es.length = (updatesOf calls).length ∧
      ∀ k mv, es[k]? = some (some mv) →
        -- the number of the set, which no other set of the level has
        mv.upCnt = (completed i (es.take k) : Int) + 1 ∧
        (∀ k' mv', k ≤ k' → es[k']? = some (some mv') → (mv'.upCnt = mv.upCnt ↔
          ∀ t mvt, k ≤ t → t < k' → es[t]? = some (some mvt) → mvt.size ≠ 2 ^ i)) ∧
        mv.size = moves (es.take k) % 2 ^ i + 1 ∧
        (∀ k', k ≤ k' → k' < es.length → es[k']? ≠ some none) ∧
        (mv.size = 2 ^ i → ∃ p < 3, mv.place = some p)) ∧
    (∃ bs, entries E (Client.init E l) calls = some bs ∧ bs.length = (updatesOf calls).length ∧
      ∀ b ∈ bs, b = true) ∧
    ∃ c, runCalls E l calls = some c ∧ ((List.range l).flatMap fun i => [0, 1, 2].flatMap fun j =>
      placeRecords E c j i).Perm
        ((updatesOf calls).map fun u => (u.keyword, u.op.toByte, u.ind)) := by
  have hmax : max l 1 = l := by omega
  have hok : RunOk E l calls := ⟨hkeyword, horder, by rwa [hmax], hint, hprf⟩
  refine ⟨fun i hi hil => ?_, ⟨_, entries_eq hok, by simp, by simp⟩, ?_⟩
  · obtain ⟨m, rfl⟩ : ∃ m, i = m + 1 := ⟨i - 1, by omega⟩
    refine ⟨_, history_eq hok hil, by simp, fun k mv hk => ?_⟩
    obtain ⟨hku, hsched⟩ := getElem_scheduled.mp hk
    obtain ⟨hdue, hup, hsize, hplace⟩ := scheduled_some hsched
    rw [← List.map_take, List.take_range, Nat.min_eq_left hku.le, completed_scheduled,
      moves_scheduled]
    refine ⟨hup, fun k' mv' hkk' hk' => ?_, hsize, fun k' hkk' hk' => ?_, fun hfull => ?_⟩
    · obtain ⟨hku', hsched'⟩ := getElem_scheduled.mp hk'
      obtain ⟨hdue', hup', -, -⟩ := scheduled_some hsched'
      have hiff : mv'.upCnt = mv.upCnt ↔ done (m + 1) k = done (m + 1) k' := by
        rw [hup, hup']
        omega
      rw [hiff, done_eq_iff hkk']
      constructor
      · intro h t mvt ht ht' hmvt hfull
        obtain ⟨-, hschedt⟩ := getElem_scheduled.mp hmvt
        obtain ⟨hduet, -, hsizet, -⟩ := scheduled_some hschedt
        exact h t ht ht' ⟨hduet, by rw [← hsizet, hfull]⟩
      · rintro h t ht ht' ⟨hduet, hfull⟩
        exact h t _ ht ht' (getElem_scheduled.mpr ⟨by omega, if_pos hduet⟩) hfull
    · intro hnone
      obtain ⟨-, hsched'⟩ := getElem_scheduled.mp hnone
      rw [scheduled, if_pos (hdue.mono hkk')] at hsched'
      cases hsched'
    · have hroom : done (m + 1) k - base l (stage done k m) (m + 1) < 3 := by
        rw [hsize] at hfull
        unfold base
        split
        · rw [stage_of_lt (by omega)]
          have := room hdue hfull
          omega
        · have htop : l = m + 1 + 1 := by omega
          rw [htop] at hcap
          have := room_top hdue hfull (by omega)
          omega
      exact ⟨_, hroom, hplace hfull⟩
  · obtain ⟨setup, hrun⟩ := run_between hok
    obtain ⟨c, hc, -, hbetween⟩ := hrun calls [] (List.append_nil _)
    have hus : ∀ u ∈ updatesOf calls, Keyword u.keyword := fun u hu =>
      hkeyword _ (keyword_of_mem_updatesOf hu)
    have := hbetween.records_perm (by rwa [hmax]) hus
    rw [hmax] at this
    exact ⟨c, hc, this⟩

theorem merge_schedule_sample :
    (∀ i, 1 ≤ i → i < 2 → ∃ es, history plainEnv i (Client.init plainEnv 2) sampleCalls = some es ∧
      es.length = (updatesOf sampleCalls).length ∧
      ∀ k mv, es[k]? = some (some mv) →
        mv.upCnt = (completed i (es.take k) : Int) + 1 ∧
        (∀ k' mv', k ≤ k' → es[k']? = some (some mv') → (mv'.upCnt = mv.upCnt ↔
          ∀ t mvt, k ≤ t → t < k' → es[t]? = some (some mvt) → mvt.size ≠ 2 ^ i)) ∧
        mv.size = moves (es.take k) % 2 ^ i + 1 ∧
        (∀ k', k ≤ k' → k' < es.length → es[k']? ≠ some none) ∧
        (mv.size = 2 ^ i → ∃ p < 3, mv.place = some p)) ∧
    (∃ bs, entries plainEnv (Client.init plainEnv 2) sampleCalls = some bs ∧
      bs.length = (updatesOf sampleCalls).length ∧ ∀ b ∈ bs, b = true) ∧
    ∃ c, runCalls plainEnv 2 sampleCalls = some c ∧
      ((List.range 2).flatMap fun i => [0, 1, 2].flatMap fun j => placeRecords plainEnv c j i).Perm
        ((updatesOf sampleCalls).map fun u => (u.keyword, u.op.toByte, u.ind)) :=
  merge_schedule plainEnv 2 sampleCalls (by decide) (by decide) (by decide) (by decide)
    (.inl (by decide)) (plainEnv_prfInj (by decide) (by decide))

/-! ## Overflow -/

section

variable {E : Env} {setup : Bool} {c c' : Client} {i : Nat} {w : Str}

theorem updateCounter_of_countUp {e : Int} {text : Str} (h : countUp c i w e setup = some (text, c')) :
    c'.updateCounter = c.updateCounter := by
  have hread : ∀ {r : Str × Client}, readCnt c i w e setup = some r →
      r.2.updateCounter = c.updateCounter := by
    intro r hr
    unfold readCnt at hr
    split at hr
    · exact Option.some.inj hr ▸ rfl
    · split at hr
      · exact Option.some.inj hr ▸ rfl
      · obtain ⟨p, -, rfl⟩ := Option.map_eq_some_iff.mp hr
        rfl
  unfold countUp at h
  obtain ⟨r, hr, h⟩ := Option.bind_eq_some_iff.mp h
  obtain ⟨t, -, h⟩ := Option.bind_eq_some_iff.mp h
  obtain ⟨-, rfl⟩ := Prod.mk.inj (Option.some.inj h)
  refine Eq.trans ?_ (hread hr)
  unfold writeCnt
  split
  · rfl
  · split <;> rfl

theorem updateCounter_of_move (h : move E c i setup = some (w, c')) :
    c'.updateCounter = c.updateCounter := by
  unfold move at h
  obtain ⟨x, -, h⟩ := Option.bind_eq_some_iff.mp h
  obtain ⟨⟨text, c1⟩, hr, h⟩ := Option.bind_eq_some_iff.mp h
  obtain ⟨c2, hfile, h⟩ := Option.bind_eq_some_iff.mp h
  obtain ⟨-, rfl⟩ := Prod.mk.inj (Option.some.inj h)
  have hcount : c1.updateCounter = c.updateCounter := (updateCounter_of_countUp hr :)
  refine Eq.trans ?_ hcount
  unfold file at hfile
  split at hfile
  · exact Option.some.inj hfile ▸ rfl
  · obtain ⟨n, -, rfl⟩ := Option.map_eq_some_iff.mp hfile
    rfl

theorem updateCounter_promote (c : Client) (i : Nat) :
    (promote c i).updateCounter = c.updateCounter := by
  unfold promote
  split
  · next p _ =>
    obtain ⟨data, L, keys, h, -⟩ := place_fields c i p
    rw [h]
  · rfl

theorem updateCounter_complete (c : Client) (i : Nat) (w : Str) (e : Int) (setup : Bool) :
    (complete E c i w e setup).updateCounter = c.updateCounter := by
  obtain ⟨lm, dummies, om, h1⟩ := dropCnt_fields c i w e setup
  obtain ⟨data, L, keys, h2, -⟩ := dropSources_fields (dropCnt c i w e setup) i
  have hrenew : ∀ c : Client, (renewKey E c i).updateCounter = c.updateCounter := by
    intro c
    obtain ⟨keys, h⟩ := renewKey_fields (E := E) c i
    rw [h]
  rw [complete, hrenew, updateCounter_promote]
  have hcnt : (dropCnt c i w e setup).updateCounter = c.updateCounter := by rw [h1]
  rw [h2]
  exact hcnt

theorem updateCounter_of_level (h : level E setup c i = some c') :
    c'.updateCounter = c.updateCounter := by
  unfold level at h
  split at h
  · obtain ⟨⟨w, c1⟩, hmove, h⟩ := Option.bind_eq_some_iff.mp h
    rw [← updateCounter_of_move hmove, ← Option.some.inj h]
    split
    · exact updateCounter_complete _ _ _ _ _
    · rfl
  · rw [← Option.some.inj h]

theorem updateCounter_of_update {u : Upd} (h : update E c u setup = some c') :
    c'.updateCounter = c.updateCounter + 1 ∧ InInt c'.updateCounter := by
  obtain ⟨c1, hreach, rfl⟩ := Option.map_eq_some_iff.mp h
  unfold reach at hreach
  split at hreach
  · next hin =>
    have hcnt : c1.updateCounter = c.updateCounter + 1 :=
      run_keeps (fun _ s => s.updateCounter = c.updateCounter + 1) rfl hreach
        fun _ _ _ _ _ ht hu => (updateCounter_of_level hu).trans ht
    exact ⟨hcnt, hcnt ▸ hin⟩
  · cases hreach

end

/-- A run that succeeds counts its updates in an `int`. -/
theorem length_lt_of_run {E : Env} {l : Nat} {calls : List Call} {c : Client}
    (h : runCalls E l calls = some c) : (updatesOf calls).length < 2 ^ 31 := by
  have hinv : c.updateCounter = (updatesOf calls).length ∧ InInt c.updateCounter := by
    refine run_keeps
      (fun (pre : List Call) (s : Client) =>
        s.updateCounter = ((updatesOf pre).length : Int) ∧ InInt s.updateCounter)
      ⟨rfl, by show InInt 0; decide⟩ h fun pre a t t' _ ht hstep => ?_
    rw [updatesOf_append, List.length_append]
    obtain ⟨⟨res, t1⟩, hexec, rfl⟩ := Option.map_eq_some_iff.mp hstep
    cases a with
    | update u setup =>
      obtain ⟨t2, hupd, h2⟩ := Option.map_eq_some_iff.mp hexec
      obtain ⟨-, rfl⟩ := Prod.mk.inj h2
      obtain ⟨h3, h4⟩ := updateCounter_of_update hupd
      refine ⟨?_, h4⟩
      rw [h3, ht.1, updatesOf, updatesOf]
      push_cast
      rfl
    | endSetup =>
      obtain ⟨-, rfl⟩ := Prod.mk.inj (Option.some.inj hexec)
      exact ht
    | search w =>
      obtain ⟨r, -, h2⟩ := Option.map_eq_some_iff.mp hexec
      obtain ⟨-, rfl⟩ := Prod.mk.inj h2
      exact ht
  have := hinv.2.2
  omega

theorem updatesOf_replicate (u : Upd) (setup : Bool) :
    ∀ n, (updatesOf (List.replicate n (.update u setup))).length = n := by
  intro n
  induction n with
  | zero => rfl
  | succ n ih => rw [List.replicate_succ, updatesOf, List.length_cons, ih]

/-- With thirty levels a run of the stated length can overflow `updateCounter`. -/
theorem updateCounter_overflows :
    (1 ≤ 30 ∧ (updatesOf (List.replicate (2 ^ 31)
      (.update ⟨.INS, [97], ⟨5, by decide⟩⟩ false))).length ≤ 3 * 2 ^ 30 - 3 ∧ Keyword [97]) ∧
      runCalls plainEnv 30 (List.replicate (2 ^ 31)
        (.update ⟨.INS, [97], ⟨5, by decide⟩⟩ false)) = none := by
  refine ⟨⟨by decide, ?_, by decide⟩, ?_⟩
  · rw [updatesOf_replicate]
    norm_num
  · rw [Option.eq_none_iff_forall_ne_some]
    intro c hc
    have := length_lt_of_run hc
    rw [updatesOf_replicate] at this
    exact absurd this (lt_irrefl _)

end SmallClientSSE.DeAmortized
