import SmallClientSSE.Static.AmortizedExact
import SmallClientSSE.Static.DeAmortizedSchedule

/-!
# Runs of the DeAmortized scheme

A run makes its first updates during setup, closes them with `endSetup` and goes on
online; searches come at any time. It follows the schedule (`merge_schedule`), no
record is dropped, and every search returns the `answer` of the updates so far
(`merged_search_exact`).
-/

namespace SmallClientSSE.DeAmortized

open Lib Lib.MergeSchedule Static BASClient
open Amortized (answer mem_answer pairwise_answer)

/-! ## Histories -/

def updatesOf : List Call → List Upd
  | [] => []
  | .update u _ :: cs => u :: updatesOf cs
  | .endSetup :: cs => updatesOf cs
  | .search _ :: cs => updatesOf cs

def Call.keyword? : Call → Option Str
  | .update u _ => some u.keyword
  | .endSetup => none
  | .search w => some w

/-- Updates of the setup come first and are closed by `endSetup`. -/
def phased : Bool → List Call → Bool
  | _, [] => true
  | setup, .update _ setup' :: cs => setup' == setup && phased setup cs
  | setup, .endSetup :: cs => setup && phased false cs
  | setup, .search _ :: cs => phased setup cs

def returned (us : List Upd) : Call → Option (List CInt)
  | .search w => some (answer us w)
  | _ => none

/-- What a run assumes: keyword lengths, its order, the capacity, an `int` that counts its
updates, a PRF injective on the inputs used. -/
structure RunOk (E : Env) (l : Nat) (calls : List Call) : Prop where
  keyword : ∀ w ∈ calls.filterMap Call.keyword?, Keyword w
  order : phased true calls = true ∨ phased false calls = true
  capacity : (updatesOf calls).length ≤ 3 * 2 ^ max l 1 - 3
  int : (updatesOf calls).length < 2 ^ 31
  prf : PrfInj E (calls.filterMap Call.keyword?) l (updatesOf calls).length

theorem updatesOf_append (cs ds : List Call) :
    updatesOf (cs ++ ds) = updatesOf cs ++ updatesOf ds := by
  induction cs with
  | nil => rfl
  | cons c cs ih => cases c <;> simp [updatesOf, ih]

theorem keyword_of_mem_updatesOf {cs : List Call} {u : Upd} (h : u ∈ updatesOf cs) :
    u.keyword ∈ cs.filterMap Call.keyword? := by
  induction cs with
  | nil => cases h
  | cons c cs ih =>
    cases c with
    | update v setup =>
      rcases List.mem_cons.mp h with rfl | h
      · exact List.mem_cons_self
      · exact List.mem_cons_of_mem _ (ih h)
    | endSetup => exact ih h
    | search w => exact List.mem_cons_of_mem _ (ih h)

/-! ## The state of a run -/

variable {E : Env} {ks : List Str} {l n : Nat} {us : List Upd} {setup : Bool} {c : Client}

/-- The state between two calls. -/
def Between (E : Env) (ks : List Str) (l n : Nat) (us : List Upd) (setup : Bool) (c : Client) :
    Prop :=
  c.updateCounter = us.length ∧
    Inv E ks l n us setup (fun k => done k us.length) (fun k => moved k us.length) c

theorem between_init (E : Env) (ks : List Str) (l n : Nat) (setup : Bool) :
    Between E ks l n [] setup (Client.init E l) := by
  have hcont : ∀ i j, contents l (fun k => done k 0) [] i j = [] := by
    intro i j
    rw [contents, if_neg]
    rw [done_start]
    omega
  have hset : ∀ i j, (Client.init E l).setAt j i =
      if i < localSize then .client ∅ else .server (E.key0 j i) ∅ false := fun i j => rfl
  have hstored : ∀ i j, Stored E ((Client.init E l).setAt j i) [] := by
    intro i j
    rw [hset]
    split <;> exact Numbered.empty _
  refine ⟨rfl, rfl, fun i j _ => ?_, fun m hm => ?_, rfl⟩
  · rw [List.length_nil, hcont]
    refine ⟨[], hstored i j, List.Perm.refl _, ?_, fun h => absurd rfl h⟩
    rw [hset]
    split
    · trivial
    · rfl
  · simp only [List.length_nil, done_start, moved_start]
    refine ⟨hstored _ _, ?_, rfl, fun w _ => ?_, fun w _ e' _ _ => ?_⟩
    · rw [hset]
      split
      · trivial
      · exact ⟨m + 1, hm, .inl rfl⟩
    all_goals
      simp only [counter, Client.init]
      split
      · rfl
      · cases setup <;> rfl

/-- **`endSetup` hands the counters over.** -/
theorem Between.endSetup (h : Between E ks l n us true c) :
    Between E ks l n us false (DeAmortized.endSetup c) := by
  refine ⟨h.1, h.2.levels, h.2.place, fun m hm => ?_, h.2.new0⟩
  have hcount : ∀ w e, counter (DeAmortized.endSetup c) false (m + 1) w e =
      counter c true (m + 1) w e := by
    intro w e
    have hlt : m + 1 < c.l := by rwa [h.2.levels]
    simp only [counter, DeAmortized.endSetup, hlt, if_true, Bool.false_eq_true, if_false,
      FMap.setupInsert, FMap.setDummy, Option.or_none]
  have hnew := h.2.new m hm
  refine ⟨hnew.stored, hnew.key, hnew.cnt, fun w hw => ?_, fun w hw e' he hin => ?_⟩
  · rw [hcount]
    exact hnew.count w hw
  · rw [hcount]
    exact hnew.later w hw e' he hin

/-! ## Searches -/

theorem base_max (l : Nat) (d : Nat → Nat) (i : Nat) : base (max l 1) d i = base l d i := by
  unfold base
  by_cases h : i + 1 < l
  · rw [if_pos h, if_pos (by omega)]
  · rw [if_neg h, if_neg (by omega)]

theorem part_eq {d : Nat → Nat} {i : Nat} (hi : i < max l 1) (hroom : d i ≤ base l d i + 3)
    (us : List Upd) : part (max l 1) d us i = [0, 1, 2].flatMap (contents l d us i) := by
  have hcont : ∀ j, contents l d us i j =
      if base l d i + j < d i then block us i (base l d i + j) else [] := by
    intro j
    rw [contents]
    refine if_congr ?_ rfl rfl
    rw [and_iff_right hi]
  rw [part, base_max]
  simp only [List.flatMap_cons, List.flatMap_nil, List.append_nil, hcont]
  generalize base l d i = b at *
  obtain ⟨k, hk, hk3⟩ : ∃ k, d i - b = k ∧ k ≤ 3 := ⟨_, rfl, by omega⟩
  rw [hk]
  have h0 : b + 0 < d i ↔ 0 < k := by omega
  have h1 : b + 1 < d i ↔ 1 < k := by omega
  have h2 : b + 2 < d i ↔ 2 < k := by omega
  simp only [h0, h1, h2]
  interval_cases k <;> simp [List.range'_succ]

/-- **The places hold every record once.** -/
theorem perm_contents {us : List Upd} (hcap : us.length ≤ 3 * 2 ^ max l 1 - 3) :
    ((List.range (max l 1)).flatMap fun i =>
      [0, 1, 2].flatMap (contents l (fun k => done k us.length) us i)).Perm us := by
  have hroom : ∀ i, i < max l 1 →
      done i us.length ≤ base l (fun k => done k us.length) i + 3 := by
    intro i hi
    unfold base
    split
    · exact done_le i us.length
    · have htop : max l 1 = i + 1 := by omega
      rw [htop] at hcap
      exact (done_le_top hcap).trans (Nat.le_add_left _ _)
  have h := perm_parts (l := max l 1) (by omega) us (d := fun k => done k us.length)
    (fun i _ => two_done_le i us.length) (done_zero _)
  rwa [List.flatMap_congr fun i hi => part_eq (List.mem_range.mp hi) (hroom i (List.mem_range.mp hi))
    us] at h

theorem valuesOf_perm {items : List (Str × Block)} (h : (items.map tagOf).Perm (us.map Upd.tag))
    (w : Str) : ((valuesOf items w).map head15).Perm
      ((us.filter fun u => u.keyword = w).map fun u => head15 u.value) := by
  have h1 := (h.filter fun p => p.1 = w).map Prod.snd
  rw [List.filter_map, List.filter_map, List.map_map, List.map_map] at h1
  rw [valuesOf, List.map_map]
  exact h1

theorem collect_eq {f : Nat → Nat → Option (List Block)} {g : Nat → Nat → List Block}
    {levels : List Nat} (h : ∀ j, j < 3 → ∀ i ∈ levels, f j i = some (g j i)) :
    collect f levels = some ([0, 1, 2].flatMap fun j => levels.flatMap fun i => g j i) := by
  have hfold : ∀ (rs : List (Option (List Block))) (vs : List (List Block)) (acc : List Block),
      rs = vs.map some → rs.foldlM (fun encIndexes r =>
        r.map fun tmpRes => encIndexes ++ tmpRes) acc = some (acc ++ vs.flatten) := by
    rintro rs vs acc rfl
    induction vs generalizing acc with
    | nil => simp
    | cons v vs ih =>
      simp only [List.map_cons, List.foldlM_cons, Option.map_some, Option.bind_eq_bind,
        Option.bind_some, ih, List.flatten_cons, List.append_assoc]
  have hmap : ∀ j, j < 3 → (levels.map fun i => f j i) = (levels.map fun i => g j i).map some := by
    intro j hj
    rw [List.map_map]
    exact List.map_congr_left fun i hi => h j hj i hi
  rw [collect, hfold _ ([0, 1, 2].flatMap fun j => levels.map fun i => g j i)]
  · simp [List.flatMap, List.flatten_append]
  · simp only [List.flatMap_cons, List.flatMap_nil, List.append_nil, List.map_append,
      hmap 0 (by omega), hmap 1 (by omega), hmap 2 (by omega)]

theorem flatMap_swap {α : Type} (g : Nat → Nat → List α) (levels : List Nat) :
    ([0, 1, 2].flatMap fun j => levels.flatMap (g j)).Perm
      (levels.flatMap fun i => [0, 1, 2].flatMap fun j => g j i) := by
  simp only [List.flatMap_cons, List.flatMap_nil, List.append_nil]
  refine ((List.flatMap_append_perm levels (g 1) (g 2)).append_left _).trans ?_
  exact List.flatMap_append_perm levels (g 0) fun i => g 1 i ++ g 2 i

theorem flatMap_levels {α : Type} (l : Nat) {g : Nat → List α}
    (hg : ∀ i, max l 1 ≤ i → g i = []) :
    (List.range localSize).flatMap g ++ (List.range' localSize (l - localSize)).flatMap g =
      (List.range (max l 1)).flatMap g := by
  have hsplit : ∀ a b, a ≤ b → List.range b = List.range a ++ List.range' a (b - a) := by
    intro a b hab
    have := List.range'_append_1 (s := 0) (m := a) (n := b - a)
    rw [Nat.zero_add, Nat.add_sub_cancel' hab] at this
    rw [List.range_eq_range', List.range_eq_range', this]
  have hrest : ∀ a b, max l 1 ≤ a → (List.range' a b).flatMap g = [] := by
    intro a b ha
    rw [List.flatMap_eq_nil_iff]
    intro i hi
    exact hg i (ha.trans (List.mem_range'_1.mp hi).1)
  rcases Nat.le_total localSize (max l 1) with h | h
  · have hl : l - localSize = max l 1 - localSize := by
      unfold localSize at *
      omega
    rw [hsplit _ _ h, List.flatMap_append, hl]
  · rw [hsplit _ _ h, List.flatMap_append, hrest _ _ le_rfl, hrest _ _ h, List.append_nil,
      List.append_nil]

section

variable (hE : PrfInj E ks l n) (hks : ∀ w ∈ ks, Keyword w) (hmem : ∀ u ∈ us, u.keyword ∈ ks)
  (hn : us.length ≤ n)

include hE hks hmem hn

theorem Inv.search_place {d f : Nat → Nat} (hI : Inv E ks l n us setup d f c) {w : Str} (hw : w ∈ ks) {i j : Nat} (hj : j < 3) :
    ∃ bs, (if i < localSize then searchLocal c w j i else searchSet E c w j i) = some bs ∧
      (bs.map head15).Perm (((contents l d us i j).filter fun u => u.keyword = w).map
        fun u => head15 u.value) := by
  obtain ⟨items, hst, hperm, hshows, hkey⟩ := hI.place i j hj
  by_cases hi : i < localSize
  · rw [if_pos hi]
    exact ⟨_, searchLocal_stored hi hst w, valuesOf_perm hperm w⟩
  · rw [if_neg hi]
    have hset : c.setAt j i = .server (c.keys j i) (c.L.server j i) (c.L.exist j i) := if_neg hi
    rw [hset] at hshows hkey
    have hexist : c.L.exist j i = decide (contents l d us i j ≠ []) := hshows
    unfold searchSet
    by_cases hnil : contents l d us i j = []
    · rw [hexist, hnil]
      exact ⟨[], rfl, List.Perm.refl _⟩
    · rw [hexist, decide_eq_true hnil, if_pos rfl]
      have hsub : ∀ v ∈ contents l d us i j, v ∈ us := by
        intro v hv
        unfold contents at hv
        split at hv
        · exact mem_of_mem_block hv
        · cases hv
      have hlen : (contents l d us i j).length ≤ us.length := by
        unfold contents
        split
        · rw [block]
          exact (List.length_take_le' _ _).trans (by simp)
        · exact Nat.zero_le _
      have hitems : ∀ p ∈ items, p.1 ∈ ks := by
        intro p hp
        obtain ⟨u, hu, e⟩ := List.mem_map.mp (hperm.subset (List.mem_map_of_mem hp))
        rw [show p.1 = u.keyword from congrArg Prod.fst e.symm]
        exact hmem u (hsub u hu)
      have hlen' := hperm.length_eq
      rw [List.length_map, List.length_map] at hlen'
      obtain ⟨bs, hbs, hhead⟩ := search_stored hE hks (by omega) hst hitems (by omega) (hkey hnil) hw
      exact ⟨bs, hbs, hhead ▸ valuesOf_perm hperm w⟩

/-- **A search** ends and returns what the updates say. -/
theorem Between.search (hcap : us.length ≤ 3 * 2 ^ max l 1 - 3)
    (h : Between E ks l n us setup c) {w : Str} (hw : w ∈ ks) :
    DeAmortized.search E c w = some (answer us w) := by
  obtain ⟨-, hI⟩ := h
  have hplace : ∀ i j, j < 3 → _ := fun i j hj => hI.search_place hE hks hmem hn hw (i := i) hj
  let g : Nat → Nat → List Block := fun j i =>
    (if i < localSize then searchLocal c w j i else searchSet E c w j i).getD []
  have hg : ∀ j, j < 3 → ∀ i,
      (if i < localSize then searchLocal c w j i else searchSet E c w j i) = some (g j i) := by
    intro j hj i
    obtain ⟨bs, hbs, -⟩ := hplace i j hj
    simp only [g, hbs, Option.getD_some]
  have hlocal : collect (searchLocal c w) (List.range localSize) =
      some ([0, 1, 2].flatMap fun j => (List.range localSize).flatMap fun i => g j i) :=
    collect_eq fun j hj i hi => by
      have := hg j hj i
      rwa [if_pos (List.mem_range.mp hi)] at this
  have hserver : collect (searchSet E c w) (List.range' localSize (c.l - localSize)) =
      some ([0, 1, 2].flatMap fun j =>
        (List.range' localSize (l - localSize)).flatMap fun i => g j i) := by
    rw [hI.levels]
    exact collect_eq fun j hj i hi => by
      have := hg j hj i
      rwa [if_neg (Nat.not_lt.mpr (List.mem_range'_1.mp hi).1)] at this
  rw [DeAmortized.search, hlocal, hserver]
  refine congrArg some (Tally.below_tally_perm (perm_plain_of_perm ?_))
  let H : Nat → List (Buf 15) := fun i => [0, 1, 2].flatMap fun j =>
    ((contents l (fun k => done k us.length) us i j).filter fun u => u.keyword = w).map
      fun u => head15 u.value
  have hlevel : ∀ i, (([0, 1, 2].flatMap fun j => g j i).map head15).Perm (H i) := by
    intro i
    rw [List.map_flatMap]
    refine List.Perm.flatMap_left _ fun j hj => ?_
    have hj3 : j < 3 := by
      simp only [List.mem_cons, List.not_mem_nil, or_false] at hj
      omega
    obtain ⟨bs, hbs, hperm⟩ := hplace i j hj3
    have hgj := hg j hj3 i
    rw [hbs] at hgj
    exact Option.some.inj hgj ▸ hperm
  have hlevels : ∀ levels : List Nat,
      (([0, 1, 2].flatMap fun j => levels.flatMap fun i => g j i).map head15).Perm
        (levels.flatMap H) := by
    intro levels
    refine ((flatMap_swap g levels).map head15).trans ?_
    rw [List.map_flatMap]
    exact List.Perm.flatMap_left _ fun i _ => hlevel i
  have hnil : ∀ i, max l 1 ≤ i → H i = [] := by
    intro i hi
    have hcont : ∀ j, contents l (fun k => done k us.length) us i j = [] := fun j =>
      if_neg fun h => absurd h.1 (Nat.not_lt.mpr hi)
    simp only [H, hcont, List.filter_nil, List.map_nil, List.flatMap_cons, List.flatMap_nil,
      List.append_nil]
  rw [List.map_append]
  refine ((hlevels _).append (hlevels _)).trans ?_
  rw [flatMap_levels l hnil]
  have hall := ((perm_contents hcap).filter fun u => u.keyword = w).map fun u => head15 u.value
  simpa only [List.filter_flatMap, List.map_flatMap] using hall

end

/-! ## Whole runs -/

def phaseAfter : Bool → List Call → Bool
  | setup, [] => setup
  | setup, .update _ _ :: cs => phaseAfter setup cs
  | _, .endSetup :: cs => phaseAfter false cs
  | setup, .search _ :: cs => phaseAfter setup cs

theorem phased_append (cs ds : List Call) : ∀ setup, phased setup (cs ++ ds) = true →
    phased setup cs = true ∧ phased (phaseAfter setup cs) ds = true := by
  induction cs with
  | nil => exact fun setup h => ⟨rfl, h⟩
  | cons c cs ih =>
    intro setup h
    cases c with
    | update u setup' =>
      rw [List.cons_append, phased, Bool.and_eq_true] at h
      rw [phased, Bool.and_eq_true]
      exact ⟨⟨h.1, (ih _ h.2).1⟩, (ih _ h.2).2⟩
    | endSetup =>
      rw [List.cons_append, phased, Bool.and_eq_true] at h
      rw [phased, Bool.and_eq_true]
      exact ⟨⟨h.1, (ih _ h.2).1⟩, (ih _ h.2).2⟩
    | search w => exact ih setup h

theorem phaseAfter_snoc (cs : List Call) (a : Call) : ∀ setup,
    phaseAfter setup (cs ++ [a]) = phaseAfter (phaseAfter setup cs) [a] := by
  induction cs with
  | nil => exact fun _ => rfl
  | cons c cs ih => intro setup; cases c <;> exact ih _

section

variable {all : List Call}

/-- **Every call of a run succeeds and keeps the state in step with the schedule.** -/
theorem Between.step (hok : RunOk E l all) {pre post : List Call} {a : Call}
    (hall : pre ++ a :: post = all)
    (hphase : phased (phaseAfter setup pre) (a :: post) = true)
    (h : Between E (all.filterMap Call.keyword?) l (updatesOf all).length (updatesOf pre)
      (phaseAfter setup pre) c) :
    ∃ c', exec E c a = some (returned (updatesOf pre) a, c') ∧
      Between E (all.filterMap Call.keyword?) l (updatesOf all).length (updatesOf (pre ++ [a]))
        (phaseAfter setup (pre ++ [a])) c' := by
  have hsplit : updatesOf all = updatesOf pre ++ updatesOf (a :: post) := by
    rw [← hall, updatesOf_append]
  have hlen := congrArg List.length hsplit
  rw [List.length_append] at hlen
  have hmem : ∀ u ∈ updatesOf pre, u.keyword ∈ all.filterMap Call.keyword? := fun u hu =>
    keyword_of_mem_updatesOf (hsplit ▸ List.mem_append_left _ hu)
  have hcap := hok.capacity
  rw [phaseAfter_snoc, updatesOf_append]
  cases a with
  | update u setup' =>
    rw [phased, Bool.and_eq_true, beq_iff_eq] at hphase
    rw [updatesOf, List.length_cons] at hlen
    obtain ⟨c', hc', htime, hI'⟩ := h.2.update hok.prf hok.keyword hmem (by omega) hok.int
      (by omega) h.1 u
    refine ⟨c', ?_, ?_, ?_⟩
    · rw [exec, hphase.1, hc']
      rfl
    · rw [htime, updatesOf, updatesOf, List.length_append, List.length_singleton]
    · rw [updatesOf, updatesOf, List.length_append, List.length_singleton]
      exact hI'
  | endSetup =>
    rw [phased, Bool.and_eq_true] at hphase
    rw [hphase.1] at h
    rw [updatesOf, updatesOf, List.append_nil]
    exact ⟨_, rfl, h.endSetup⟩
  | search w =>
    have hw : w ∈ all.filterMap Call.keyword? := by
      rw [← hall, List.filterMap_append, List.filterMap_cons]
      exact List.mem_append_right _ List.mem_cons_self
    rw [updatesOf, updatesOf, List.append_nil]
    refine ⟨c, ?_, h⟩
    rw [exec, h.search hok.prf hok.keyword hmem (by omega) (by omega) hw]
    rfl

theorem run_between (hok : RunOk E l all) : ∃ setup, ∀ pre post, pre ++ post = all →
    ∃ c, runCalls E l pre = some c ∧ phased (phaseAfter setup pre) post = true ∧
      Between E (all.filterMap Call.keyword?) l (updatesOf all).length (updatesOf pre)
        (phaseAfter setup pre) c := by
  obtain ⟨setup, horder⟩ : ∃ setup, phased setup all = true :=
    hok.order.elim (fun h => ⟨_, h⟩) fun h => ⟨_, h⟩
  refine ⟨setup, fun pre => ?_⟩
  induction pre using List.reverseRecOn with
  | nil =>
    intro post hall
    rw [List.nil_append] at hall
    exact ⟨_, rfl, hall ▸ horder, between_init E _ l _ setup⟩
  | append_singleton pre a ih =>
    intro post hall
    have hall' : pre ++ a :: post = all := by rw [← hall, List.append_assoc]; rfl
    obtain ⟨c, hc, hphase, hbetween⟩ := ih (a :: post) hall'
    obtain ⟨c', hstep, hbetween'⟩ := hbetween.step hok hall' hphase
    have hrun : runCalls E l (pre ++ [a]) = some c' :=
      run_snoc hc (by rw [DeAmortized.step, hstep]; rfl)
    refine ⟨c', hrun, ?_, hbetween'⟩
    rw [← hall] at horder
    exact (phased_append _ _ _ horder).2

end

theorem numOfLevels_capacity {N : CInt} {k : Nat} (hN : 1 ≤ N.val) (hk : (k : Int) ≤ N.val) :
    k ≤ 3 * 2 ^ max (numOfLevels N) 1 - 3 := by
  have hle : N.val.toNat ≤ 2 ^ numOfLevels N := Nat.le_pow_clog (by omega) _
  have hpow : 2 ^ numOfLevels N ≤ 2 ^ max (numOfLevels N) 1 :=
    Nat.pow_le_pow_right (by omega) (le_max_left _ _)
  have htwo : 2 ^ 1 ≤ 2 ^ max (numOfLevels N) 1 :=
    Nat.pow_le_pow_right (by omega) (le_max_right _ _)
  omega

/-- **Searches of every run are exact.** -/
theorem merged_search_exact (E : Env) (N : CInt) (calls : List Call) (hN : 1 ≤ N.val)
    (hlen : ((updatesOf calls).length : Int) ≤ N.val)
    (hkeyword : ∀ w ∈ calls.filterMap Call.keyword?, Keyword w)
    (horder : phased true calls = true ∨ phased false calls = true)
    (hprf : PrfInj E (calls.filterMap Call.keyword?) (numOfLevels N) (updatesOf calls).length) :
    (∃ c, runCalls E (numOfLevels N) calls = some c) ∧
    ∀ pre w post, calls = pre ++ .search w :: post →
      ∃ c res, runCalls E (numOfLevels N) pre = some c ∧ search E c w = some res ∧
        res.Pairwise (· < ·) ∧ ∀ ind, ind ∈ res ↔ Live (updatesOf pre) w ind := by
  have hint : (updatesOf calls).length < 2 ^ 31 := by
    have := N.property.2
    omega
  have hok : RunOk E (numOfLevels N) calls :=
    ⟨hkeyword, horder, numOfLevels_capacity hN hlen, hint, hprf⟩
  obtain ⟨setup, hrun⟩ := run_between hok
  refine ⟨?_, fun pre w post hcalls => ?_⟩
  · obtain ⟨c, hc, -⟩ := hrun calls [] (List.append_nil _)
    exact ⟨c, hc⟩
  · obtain ⟨c, hc, hphase, hbetween⟩ := hrun pre (.search w :: post) hcalls.symm
    obtain ⟨c', hexec, -⟩ := hbetween.step hok hcalls.symm hphase
    refine ⟨c, answer (updatesOf pre) w, hc, ?_, pairwise_answer _ _, mem_answer _ _⟩
    rw [exec] at hexec
    obtain ⟨res, hres, h⟩ := Option.map_eq_some_iff.mp hexec
    rw [hres]
    exact congrArg Prod.fst h

/-! ## A concrete environment -/

/-- No encryption at all, the identity as PRF, zero keys. -/
def plainEnv : Env :=
  ⟨plainAes, id, fun _ _ => Buf.zero, fun _ _ => Buf.zero, HashOrder.stored⟩

theorem plainEnv_prfInj {ks : List Str} {l n : Nat} (hks : ∀ w ∈ ks, Keyword w)
    (hn : n + 1 < 2 ^ 31) : PrfInj plainEnv ks l n := by
  rintro key - ⟨a, i⟩ ⟨w, hw, rfl, hi⟩ ⟨b, j⟩ ⟨v, hv, rfl, hj⟩ h
  simp only [getAESRandomValue, plainEnv, id] at hi hj h
  obtain ⟨h1, h2⟩ := plainAes_address_inj (hks w hw) (hks v hv) (inInt_natCast (by omega))
    (inInt_natCast (by omega)) h
  exact Prod.ext h1 (by exact_mod_cast h2)

/-- Two updates of the setup, two more, and a search. -/
def sampleCalls : List Call :=
  [.update ⟨.INS, [97], cint 5⟩ true, .update ⟨.INS, [98], cint 6⟩ true, .endSetup,
    .update ⟨.DEL, [97], cint 5⟩ false, .update ⟨.INS, [97], cint 7⟩ false,
    .search [97]]

theorem merged_search_exact_sample :
    (∃ c, runCalls plainEnv (numOfLevels ⟨8, by decide⟩) sampleCalls = some c) ∧
    ∀ pre w post, sampleCalls = pre ++ .search w :: post →
      ∃ c res, runCalls plainEnv (numOfLevels ⟨8, by decide⟩) pre = some c ∧
        search plainEnv c w = some res ∧ res.Pairwise (· < ·) ∧
        ∀ ind, ind ∈ res ↔ Live (updatesOf pre) w ind :=
  merged_search_exact plainEnv ⟨8, by decide⟩ sampleCalls (by decide) (by decide) (by decide)
    (.inl (by decide)) (plainEnv_prfInj (by decide) (by decide))

end SmallClientSSE.DeAmortized
