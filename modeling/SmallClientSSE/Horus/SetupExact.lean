import SmallClientSSE.Horus.Exact
import SmallClientSSE.Horus.Setup

/-!
# Setup against online runs of Horus

A sequence of calls is split into a prefix made during setup and the calls after
`endSetup`. The split run agrees with the online run as long as setup insertions
take clean slots and no keyword of the prefix is inserted again online; without
the second condition the insertion fails on the missing `latestUpdatedCounter`.
-/

namespace SmallClientSSE.Horus

open Lib Lib.Effect

/-- An insertion of a pair that is not live, or a removal of one that is. -/
def Alternates (calls : List Call) : Call → Prop
  | .insert w z => live calls w z = false
  | .remove w z => live calls w z = true
  | .search _ => False

instance (calls : List Call) : (c : Call) → Decidable (Alternates calls c)
  | .insert w z => inferInstanceAs (Decidable (live calls w z = false))
  | .remove w z => inferInstanceAs (Decidable (live calls w z = true))
  | .search _ => inferInstanceAs (Decidable False)

/-- The prefix between `beginSetup` and `endSetup`, the rest online. -/
def splitRun (pre post : List Call) : Option Client :=
  (run setupStep (beginSetup Client.init) pre).bind fun h => run step (endSetup h) post

def searchAll : List Kw → Op (List (List CInt))
  | [] => pure []
  | w :: ws => do
    let res ← search w
    let rest ← searchAll ws
    pure (res :: rest)

/-- No call fails in either run, and the searches that follow return the same sets. -/
def Agree (pre post : List Call) (ws : List Kw) : Prop :=
  ∃ h1 rs1 h1' h2 rs2 h2', splitRun pre post = some h1 ∧ searchAll ws h1 = .ok rs1 h1' ∧
    run step Client.init (pre ++ post) = some h2 ∧ searchAll ws h2 = .ok rs2 h2' ∧
    List.Forall₂ (fun r1 r2 => ∀ z, z ∈ r1 ↔ z ∈ r2) rs1 rs2

/-- Every insertion of a setup run takes a clean slot. -/
def CleanFrom : Client → List Call → Prop
  | _, [] => True
  | h, c :: cs =>
    (∀ w z, c = .insert w z → CleanSlot h w) ∧ ∀ h', setupStep h c = some h' → CleanFrom h' cs

/-! ## Searches in turn -/

/-- Searches of the keywords `ws` list what `L` says. -/
def Searchable (h : Client) (ws : List Kw) (L : Kw → CInt → Prop) : Prop :=
  ∀ w ∈ ws, ∃ g known, Entry h w g known ∧ (∀ z, g.Has z ↔ L w z) ∧ g.access.val < 2 ^ 30 ∧
    g.src.val + ws.length < 2 ^ 31

theorem searchAll_spec {L : Kw → CInt → Prop} : ∀ {ws : List Kw} {h : Client}, Searchable h ws L →
    ∃ rs h', searchAll ws h = .ok rs h' ∧
      List.Forall₂ (fun w r => ∀ z, z ∈ r ↔ L w z) ws rs := by
  intro ws
  induction ws with
  | nil => exact fun _ => ⟨[], _, rfl, .nil⟩
  | cons w ws ih =>
    intro h hs
    obtain ⟨g, known, he, hhas, hacc, hsrc⟩ := hs w List.mem_cons_self
    rw [List.length_cons, Nat.cast_add_one] at hsrc
    obtain ⟨h', res, next, hr, -, hmem, hn, he', -, hsame⟩ := search_spec he hacc (by omega)
    have hs' : Searchable h' ws L := fun v hv => by
      by_cases hvw : v = w
      · subst hvw
        refine ⟨g.refile next, true, he', hhas, hacc, ?_⟩
        simp only [Ledger.refile]
        omega
      · obtain ⟨g', known', he2, h2, h3, h4⟩ := hs v (List.mem_cons_of_mem _ hv)
        rw [List.length_cons, Nat.cast_add_one] at h4
        exact ⟨g', known', he2.frame (hsame v hvw), h2, h3, by omega⟩
    obtain ⟨rs, h2, hrs, hall⟩ := ih hs'
    refine ⟨res :: rs, h2, ?_, .cons (fun z => (hmem z).trans (hhas z)) hall⟩
    rw [searchAll, bind_ok _ hr, bind_ok _ hrs]
    rfl

theorem forall₂_same {L : Kw → CInt → Prop} : ∀ {ws : List Kw} {rs1 rs2 : List (List CInt)},
    List.Forall₂ (fun w r => ∀ z, z ∈ r ↔ L w z) ws rs1 →
    List.Forall₂ (fun w r => ∀ z, z ∈ r ↔ L w z) ws rs2 →
    List.Forall₂ (fun r1 r2 => ∀ z, z ∈ r1 ↔ z ∈ r2) rs1 rs2
  | [], _, _, .nil, .nil => .nil
  | _ :: _, _, _, .cons h1 t1, .cons h2 t2 =>
    .cons (fun z => (h1 z).trans (h2 z).symm) (forall₂_same t1 t2)

/-! ## The setup phase -/

/-- The ledger `g` of `w` after the setup calls `calls`. -/
structure SetupKept (calls : List Call) (h : Client) (w : Kw) (g : Ledger) : Prop where
  entry : inserted calls w = true → SetupEntry h w g
  blank : inserted calls w = false → SetupBlank h w ∧ g = Ledger.blank
  tracks : Tracks calls w g

structure SetupInv (calls : List Call) (h : Client) : Prop where
  kept : ∀ w, ∃ g, SetupKept calls h w g
  stores : Stores h = Stores Client.init

theorem setupInv_init : SetupInv [] (beginSetup Client.init) :=
  ⟨fun w => ⟨Ledger.blank, fun h => absurd h (by simp [inserted]),
    fun _ => ⟨⟨fun _ _ => rfl, fun _ _ _ => rfl, rfl, rfl, rfl, rfl⟩, rfl⟩, tracks_blank w⟩, rfl⟩

section

variable {calls pre : List Call} {h h' : Client} {c : Call} {w : Kw} {z : CInt} {g : Ledger}

theorem SetupKept.opened (hk : SetupKept calls h w g) : SetupOpened h w g := by
  cases hi : inserted calls w with
  | true => exact .inl (hk.entry hi)
  | false => exact .inr (hk.blank hi)

theorem SetupKept.inserted (hk : SetupKept calls h w g) (hz : g.Has z) :
    inserted calls w = true := by
  refine eq_true_of_ne_false fun hi => ?_
  rw [(hk.blank hi).2] at hz
  obtain ⟨i, h1, h2, -⟩ := hz
  exact absurd (h1.trans h2) (by decide)

theorem setupInv_next (hI : SetupInv calls h) (hin : inserted (calls ++ [c]) c.keyword = true)
    (he : SetupEntry h' c.keyword g) (ht : Tracks (calls ++ [c]) c.keyword g)
    (hs : ∀ v, v ≠ c.keyword → SetupSame h h' v) (hst : Stores h' = Stores h) :
    SetupInv (calls ++ [c]) h' := by
  refine ⟨fun v => ?_, hst.trans hI.stores⟩
  by_cases hv : v = c.keyword
  · subst hv
    exact ⟨g, fun _ => he, fun hf => absurd (hin.symm.trans hf) (by decide), ht⟩
  · obtain ⟨g', hk⟩ := hI.kept v
    refine ⟨g', fun hi => (hk.entry (inserted_of_other (Ne.symm hv) hi)).frame (hs v hv),
      fun hi => ?_, hk.tracks.other (Ne.symm hv)⟩
    have hb := hk.blank (eq_false_of_ne_true fun e => by
      rw [inserted_mono e] at hi
      cases hi)
    exact ⟨hb.1.frame (hs v hv), hb.2⟩

/-- **Every setup call** that alternates succeeds. -/
theorem setupStep_inv (hI : SetupInv calls h) (hc : Alternates calls c)
    (hclean : ∀ w z, c = .insert w z → CleanSlot h w) (hfit : callsOn c.keyword calls + 3 < 2 ^ 31) :
    ∃ h', setupStep h c = some h' ∧ SetupInv (calls ++ [c]) h' := by
  cases c with
  | insert w z =>
    obtain ⟨g, hk⟩ := hI.kept w
    have hH := hk.opened.holds
    have h1 := hk.tracks.lat_le
    have h2 := hH.live_le
    have h3 : callsOn w calls + 3 < 2 ^ 31 := hfit
    have hz : ¬ g.Has z := fun hh => by
      have := (hk.tracks.has z).mp hh
      rw [hc] at this
      cases this
    obtain ⟨h', i0, hr, hi0, he, hs, hst⟩ := setupInsert_spec hk.opened hz (by omega)
      (hclean w z rfl)
    exact ⟨h', by simp only [setupStep, finished, hr, Option.map_some],
      setupInv_next hI (inserted_iff.mpr ⟨z, by simp [Call.keyword]⟩) he
        (hk.tracks.put hH hi0 (.inl rfl)) hs hst⟩
  | remove w z =>
    obtain ⟨g, hk⟩ := hI.kept w
    have h1 := hk.tracks.paced.access
    have h3 : callsOn w calls + 3 < 2 ^ 31 := hfit
    have hz := (hk.tracks.has z).mpr hc
    have hin := hk.inserted hz
    obtain ⟨p, hp1, hp2, rfl⟩ := hz
    have he := hk.entry hin
    obtain ⟨h', live', a1, hr, hlv, ha1, he', hs, hst⟩ := setupRemove_spec he hp1 hp2 (by omega)
    exact ⟨h', by simp only [setupStep, finished, hr, Option.map_some],
      setupInv_next hI (inserted_mono hin) he' (hk.tracks.free he.holds hp1 hp2 hlv ha1) hs hst⟩
  | search w => exact absurd hc id

theorem CleanFrom.at {cs : List Call} : ∀ {h : Client}, CleanFrom h cs → pre ++ [c] <+: cs →
    run setupStep h pre = some h' → ∀ w z, c = .insert w z → CleanSlot h' w := by
  induction cs generalizing pre with
  | nil =>
    intro h _ hpre
    simp at hpre
  | cons d cs ih =>
    intro h hc hpre hr
    cases pre with
    | nil =>
      obtain rfl : h = h' := by simpa using hr
      obtain rfl : c = d := (List.cons_prefix_cons.mp hpre).1
      exact hc.1
    | cons b pre =>
      obtain ⟨rfl, htail⟩ := List.cons_prefix_cons.mp hpre
      rw [run_cons] at hr
      obtain ⟨h2, hs, hr⟩ := Option.bind_eq_some_iff.mp hr
      exact ih (hc.2 h2 hs) htail hr

/-! ## The calls after setup -/

/-- The ledger `g` of `w` after `calls`, of which `pre` were made during setup. -/
structure Follows (pre calls : List Call) (h : Client) (w : Kw) (g : Ledger) : Prop where
  opened : inserted pre w = false → Opened h w g
  unknown : inserted pre w = true → Entry h w g false
  entry : inserted calls w = true → ∃ known, Entry h w g known
  tracks : Tracks calls w g

def FollowInv (pre calls : List Call) (h : Client) : Prop := ∀ w, ∃ g, Follows pre calls h w g

theorem followInv_endSetup (hI : SetupInv pre h) : FollowInv pre pre (endSetup h) := fun w => by
  obtain ⟨g, hk⟩ := hI.kept w
  have he := fun hi => (hk.entry hi).endSetup hI.stores
  exact ⟨g, fun hi => .inr ⟨(hk.blank hi).1.endSetup hI.stores, (hk.blank hi).2⟩, he,
    fun hi => ⟨false, he hi⟩, hk.tracks⟩

theorem Follows.frame (hk : Follows pre calls h w g) (hc : c.keyword ≠ w) (hs : Same h h' w) :
    Follows pre (calls ++ [c]) h' w g := by
  refine ⟨fun hi => ?_, fun hi => (hk.unknown hi).frame hs, fun hi => ?_, hk.tracks.other hc⟩
  · exact (hk.opened hi).imp (·.frame hs) fun hb => ⟨hb.1.frame hs, hb.2⟩
  · obtain ⟨known, he⟩ := hk.entry (inserted_of_other hc hi)
    exact ⟨known, he.frame hs⟩

theorem followInv_next (hI : FollowInv pre calls h) (hk : Follows pre (calls ++ [c]) h' c.keyword g)
    (hs : ∀ v, v ≠ c.keyword → Same h h' v) : FollowInv pre (calls ++ [c]) h' := fun v => by
  by_cases hv : v = c.keyword
  · exact ⟨g, hv ▸ hk⟩
  · obtain ⟨g', hk'⟩ := hI v
    exact ⟨g', hk'.frame (Ne.symm hv) (hs v hv)⟩

/-- **Every online call** that alternates succeeds, unless it inserts a keyword
used during setup. -/
theorem followStep_inv (hI : FollowInv pre calls h) (hc : Alternates calls c)
    (hnew : ∀ w z, c = .insert w z → inserted pre w = false)
    (hfit : callsOn c.keyword calls + 3 < 2 ^ 31) :
    ∃ h', step h c = some h' ∧ FollowInv pre (calls ++ [c]) h' := by
  cases c with
  | insert w z =>
    obtain ⟨g, hk⟩ := hI w
    have hpre := hnew w z rfl
    have ho := hk.opened hpre
    have h1 := hk.tracks.lat_le
    have h2 := hk.tracks.paced.access
    have h3 : callsOn w calls + 3 < 2 ^ 31 := hfit
    have hz : ¬ g.Has z := fun hh => by
      have := (hk.tracks.has z).mp hh
      rw [hc] at this
      cases this
    obtain ⟨h', i0, a0, s0, hr, hi0, ha0, he, -, hs⟩ := insert_spec ho hz (by omega) (by omega)
    exact ⟨h', step_insert hr, followInv_next hI ⟨fun _ => .inl he,
      fun hi => absurd (hpre.symm.trans hi) (by decide), fun _ => ⟨true, he⟩,
      hk.tracks.put ho.holds hi0 ha0⟩ hs⟩
  | remove w z =>
    obtain ⟨g, hk⟩ := hI w
    have h2 := hk.tracks.paced.access
    have h3 : callsOn w calls + 3 < 2 ^ 31 := hfit
    have hz := (hk.tracks.has z).mpr hc
    cases hpre : inserted pre w with
    | true =>
      have he := hk.unknown hpre
      obtain ⟨p, hp1, hp2, rfl⟩ := hz
      obtain ⟨h', live', a1, hr, hlv, ha1, he', -, hs⟩ := remove_spec he hp1 hp2 (by omega)
      exact ⟨h', step_remove hr, followInv_next hI ⟨fun hi => absurd (hpre.symm.trans hi) (by decide),
        fun _ => he', fun _ => ⟨false, he'⟩, hk.tracks.free he.holds hp1 hp2 hlv ha1⟩ hs⟩
    | false =>
      have he := (hk.opened hpre).entry hz
      obtain ⟨p, hp1, hp2, rfl⟩ := hz
      obtain ⟨h', live', a1, hr, hlv, ha1, he', -, hs⟩ := remove_spec he hp1 hp2 (by omega)
      exact ⟨h', step_remove hr, followInv_next hI ⟨fun _ => .inl he',
        fun hi => absurd (hpre.symm.trans hi) (by decide), fun _ => ⟨true, he'⟩,
        hk.tracks.free he.holds hp1 hp2 hlv ha1⟩ hs⟩
  | search w => exact absurd hc id

end

/-! ## The two runs -/

section

variable {pre post : List Call} {ws : List Kw}

theorem setupRun_inv (halt : Each Alternates pre) (hfit : Fits pre)
    (hclean : CleanFrom (beginSetup Client.init) pre) :
    ∃ h, run setupStep (beginSetup Client.init) pre = some h ∧ SetupInv pre h :=
  Lib.run_inv (fun p h => SetupInv p h) setupInv_init fun _ _ _ hp hr hI =>
    setupStep_inv hI (halt.of_prefix hp) (hclean.at hp hr) (hfit.of_prefix hp)

theorem splitRun_inv (halt : Each Alternates (pre ++ post)) (hfit : Fits (pre ++ post))
    (hclean : CleanFrom (beginSetup Client.init) pre)
    (hnew : ∀ w z, Call.insert w z ∈ post → inserted pre w = false) :
    ∃ h, splitRun pre post = some h ∧ FollowInv pre (pre ++ post) h := by
  obtain ⟨h1, hr1, hI1⟩ := setupRun_inv (halt.left) (hfit.left) hclean
  obtain ⟨h2, hr2, hI2⟩ := Lib.run_inv (fun p h => FollowInv pre (pre ++ p) h)
    (by rw [List.append_nil]; exact followInv_endSetup hI1) fun p c h hp _ hI => by
      have hpp : (pre ++ p) ++ [c] <+: pre ++ post := by
        rw [List.append_assoc]
        exact (List.prefix_append_right_inj pre).mpr hp
      have hmem : c ∈ post := hp.subset (by simp)
      rw [← List.append_assoc]
      exact followStep_inv hI (halt.of_prefix hpp) (fun w z e => hnew w z (e ▸ hmem))
        (hfit.of_prefix hpp)
  exact ⟨h2, by rw [splitRun, hr1, Option.bind_some, hr2], hI2⟩

theorem allowed_of_alternates {calls : List Call} {c : Call} (h : Alternates calls c) :
    Allowed calls c := by
  cases c with
  | insert w z => trivial
  | remove w z => exact insert_mem_of_live h
  | search w => exact absurd h id

/-- **A split run agrees with the online run** when setup insertions take clean
slots, no keyword of the prefix is inserted online, and the keywords searched for
were inserted. -/
theorem setup_agrees (pre post : List Call) (ws : List Kw) (halt : Each Alternates (pre ++ post))
    (hfit : ∀ w, callsOn w (pre ++ post) + 1 < 2 ^ 30) (hlen : ws.length < 2 ^ 30)
    (hclean : CleanFrom (beginSetup Client.init) pre)
    (hnew : ∀ w z, Call.insert w z ∈ post → inserted pre w = false)
    (hws : ∀ w ∈ ws, inserted (pre ++ post) w = true) : Agree pre post ws := by
  have hfits : Fits (pre ++ post) := fun w => by
    have := hfit w
    omega
  obtain ⟨h1, hr1, hI1⟩ := splitRun_inv halt hfits hclean hnew
  obtain ⟨h2, hr2, hI2⟩ := run_inv (halt.mono fun _ _ => allowed_of_alternates) hfits
  have hs1 : Searchable h1 ws fun w z => live (pre ++ post) w z = true := fun w hw => by
    obtain ⟨g, hk⟩ := hI1 w
    obtain ⟨known, he⟩ := hk.entry (hws w hw)
    have := hfit w
    exact ⟨g, known, he, hk.tracks.has, by have := hk.tracks.paced.access; omega,
      by have := hk.tracks.src_le; omega⟩
  have hs2 : Searchable h2 ws fun w z => live (pre ++ post) w z = true := fun w hw => by
    obtain ⟨g, hk⟩ := hI2 w
    have := hfit w
    exact ⟨g, true, hk.entry (hws w hw), hk.tracks.has, by have := hk.tracks.paced.access; omega,
      by have := hk.tracks.src_le; omega⟩
  obtain ⟨rs1, h1', hq1, hf1⟩ := searchAll_spec hs1
  obtain ⟨rs2, h2', hq2, hf2⟩ := searchAll_spec hs2
  exact ⟨h1, rs1, h1', h2, rs2, h2', hr1, hq1, hr2, hq2, forall₂_same hf1 hf2⟩

end

/-- One pair inserted during setup, then another keyword online, and a removal. -/
theorem setup_agrees_sample : Agree [.insert kwA ⟨1, by decide⟩]
    [.insert kwB ⟨2, by decide⟩, .remove kwA ⟨1, by decide⟩] [kwA, kwB] := by
  refine setup_agrees _ _ _ (by decide) (fun _ => lt_of_le_of_lt
    (Nat.add_le_add_right List.countP_le_length 1) (by decide)) (by decide)
    ⟨fun w z _ i y a _ he => ?_, fun _ _ => trivial⟩ (fun w z hz => ?_) (by decide)
  · cases he
  · simp only [List.mem_cons, Call.insert.injEq, reduceCtorEq, List.not_mem_nil, or_false] at hz
    rw [hz.1]
    decide

/-! ## Insertions after setup -/

theorem insert_unknown {h : Client} {w : Kw} {g : Ledger} (he : Entry h w g false) {z : CInt}
    (hz : ¬ g.Has z) (hlive : g.live.val + 1 < 2 ^ 31) : step h (.insert w z) = none := by
  obtain ⟨hU, hS, -, -, -, hL⟩ := he.counters
  have hin : InInt (g.live.val + 1) := ⟨by have := he.holds.live_nonneg; omega, hlive⟩
  have hstop : ∀ h : Client, number [] h = .error .stoi h := fun _ => rfl
  have hcnt : insertCounters w h = .error .stoi
      { h with CNTs := h.CNTs.insert (getBid w .UpdtCnt) (intStr (g.live.val + 1)) } := by
    unfold insertCounters
    rw [bind_ok _ (changeCnt_run hU hin), if_neg (intStr_ne_nil _), bind_ok _ (number_intStr _),
      bind_ok _ (findCnt_run _), bind_ok _ (number_find (z := g.src) (by
        simpa [FMap.insert_apply] using hS)), bind_ok _ (findCnt_run _),
      find_none (by simpa [FMap.insert_apply] using hL rfl), bind_error _ (hstop _)]
  have hins : insert w z h = .error .stoi
      { h with CNTs := h.CNTs.insert (getBid w .UpdtCnt) (intStr (g.live.val + 1)) } := by
    unfold insert
    rw [bind_ok _ (findUpdt_run _), if_pos (he.holds.dead_find hz), bind_error _ hcnt]
  simp only [step, finished, hins, Option.map_none]

/-- **Inserting a keyword of the prefix online fails**, whatever came before. -/
theorem insert_after_setup {pre : List Call} {w : Kw} {z : CInt} (halt : Each Alternates pre)
    (hfit : Fits pre) (hclean : CleanFrom (beginSetup Client.init) pre)
    (hw : inserted pre w = true) (hz : live pre w z = false) :
    splitRun pre [.insert w z] = none := by
  obtain ⟨h, hr, hI⟩ := setupRun_inv halt hfit hclean
  obtain ⟨g, hk⟩ := hI.kept w
  have hn : ¬ g.Has z := fun hh => by
    have := (hk.tracks.has z).mp hh
    rw [hz] at this
    cases this
  have he := (hk.entry hw).endSetup hI.stores
  have h1 := hk.tracks.lat_le
  have h2 := he.holds.live_le
  have h3 := hfit w
  rw [splitRun, hr, Option.bind_some, run_cons, insert_unknown he hn (by omega)]
  rfl

/-- **An online insertion after setup fails**: the pair `("a", 2)` after `("a", 1)`. -/
theorem setup_loses_counter :
    Each Alternates [.insert kwA ⟨1, by decide⟩, .insert kwA ⟨2, by decide⟩] ∧
      ¬ Agree [.insert kwA ⟨1, by decide⟩] [.insert kwA ⟨2, by decide⟩] [kwA] := by
  refine ⟨by decide, ?_⟩
  rintro ⟨h1, rs1, h1', h2, rs2, h2', hr, -⟩
  have := @insert_after_setup [.insert kwA ⟨1, by decide⟩] kwA ⟨2, by decide⟩ (by decide)
    (fits_of_length (by decide)) ⟨fun w z _ i y a _ he => ?_, fun _ _ => trivial⟩ (by decide)
    (by decide)
  · rw [this] at hr
    cases hr
  · cases he

end SmallClientSSE.Horus
