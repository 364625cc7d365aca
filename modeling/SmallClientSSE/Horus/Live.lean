import SmallClientSSE.Horus.Ledger

/-!
# Live pairs

A pair is live when its last insertion or removal is an insertion. `Tracks` says
that a ledger lists the live pairs of its keyword, with counters bounded by the
number of calls; the ledgers of the next calls do so too.
-/

namespace SmallClientSSE.Horus

open Lib

/-! ## Calls so far -/

/-- Whether the pair `(w, z)` is live after one more call. -/
def liveAfter (w : Kw) (z : CInt) (b : Bool) : Call → Bool
  | .insert v y => if v = w ∧ y = z then true else b
  | .remove v y => if v = w ∧ y = z then false else b
  | .search _ => b

def live (calls : List Call) (w : Kw) (z : CInt) : Bool := calls.foldl (liveAfter w z) false

def Call.keyword : Call → Kw
  | .insert w _ => w
  | .remove w _ => w
  | .search w => w

def inserted (calls : List Call) (w : Kw) : Bool := calls.any fun
  | .insert v _ => decide (v = w)
  | _ => false

def callsOn (w : Kw) (calls : List Call) : Nat := calls.countP fun c => decide (c.keyword = w)

section

variable {calls pre : List Call} {c : Call} {w v : Kw} {z y : CInt}

theorem live_snoc : live (calls ++ [c]) w z = liveAfter w z (live calls w z) c := by
  simp [live]

theorem liveAfter_other {b : Bool} (h : c.keyword ≠ w) : liveAfter w z b c = b := by
  cases c <;> simp_all [liveAfter, Call.keyword]

theorem liveAfter_of_live {z : CInt} (hz : live calls w z = true) (y : CInt) :
    liveAfter w y (live calls w y) (.insert w z) = live calls w y := by
  by_cases hy : z = y
  · subst hy
    rw [hz]
    simp [liveAfter]
  · simp [liveAfter, hy]

theorem liveAfter_of_dead {z : CInt} (hz : live calls w z = false) (y : CInt) :
    liveAfter w y (live calls w y) (.remove w z) = live calls w y := by
  by_cases hy : z = y
  · subst hy
    rw [hz]
    simp [liveAfter]
  · simp [liveAfter, hy]

theorem inserted_iff : inserted calls w = true ↔ ∃ z, Call.insert w z ∈ calls := by
  simp only [inserted, List.any_eq_true]
  constructor
  · rintro ⟨_ | _ | _, hc, h⟩
    · obtain rfl := of_decide_eq_true h
      exact ⟨_, hc⟩
    · cases h
    · cases h
  · rintro ⟨z, hz⟩
    exact ⟨_, hz, by simp⟩

theorem insert_mem_of_other (hc : c.keyword ≠ w) (h : Call.insert w z ∈ calls ++ [c]) :
    Call.insert w z ∈ calls := by
  refine (List.mem_append.mp h).resolve_right fun hz => ?_
  rw [← List.mem_singleton.mp hz] at hc
  exact hc rfl

theorem inserted_of_other (hc : c.keyword ≠ w) (h : inserted (calls ++ [c]) w = true) :
    inserted calls w = true := by
  obtain ⟨z, hz⟩ := inserted_iff.mp h
  exact inserted_iff.mpr ⟨z, insert_mem_of_other hc hz⟩

theorem inserted_mono {more : List Call} (h : inserted calls w = true) :
    inserted (calls ++ more) w = true := by
  obtain ⟨z, hz⟩ := inserted_iff.mp h
  exact inserted_iff.mpr ⟨z, List.mem_append_left _ hz⟩

theorem callsOn_snoc : callsOn w (calls ++ [c]) = callsOn w calls + if c.keyword = w then 1 else 0 := by
  simp [callsOn, List.countP_append, List.countP_cons]

theorem callsOn_mono (h : pre <+: calls) : callsOn w pre ≤ callsOn w calls := by
  obtain ⟨t, rfl⟩ := h
  simp [callsOn, List.countP_append]

end

theorem insert_mem_of_live {w : Kw} {z : CInt} : ∀ {calls : List Call}, live calls w z = true →
    Call.insert w z ∈ calls := by
  intro calls
  induction calls using List.reverseRecOn with
  | nil => exact fun h => by cases h
  | append_singleton calls d ih =>
    rw [live_snoc]
    intro hl
    by_cases hd : d = .insert w z
    · simp [hd]
    · refine List.mem_append_left _ (ih ?_)
      cases d with
      | insert v y =>
        have : ¬ (v = w ∧ y = z) := fun e => hd (by rw [e.1, e.2])
        simpa [liveAfter, this] using hl
      | remove v y =>
        by_cases e : v = w ∧ y = z
        · simp [liveAfter, e] at hl
        · simpa [liveAfter, e] using hl
      | search v => exact hl

/-! ## The pace of the accesses -/

/-- Between two accesses of a slot there is a call that makes room for the second one, so `n`
calls write a slot at most every other time; a slot below the last one is ahead of that. -/
structure Ledger.Paced (g : Ledger) (n : Nat) : Prop where
  used : ∀ i : CInt, 1 ≤ i.val → i.val ≤ g.live.val →
    2 * (g.acc i).val + g.live.val ≤ n + i.val + 1
  unused : ∀ i : CInt, g.live.val < i.val → i.val ≤ g.top.val → 2 * (g.acc i).val ≤ n
  access : 2 * g.access.val ≤ n + 2

section

variable {g : Ledger} {n : Nat}

theorem Ledger.Paced.succ (h : g.Paced n) : g.Paced (n + 1) := by
  refine ⟨fun i h1 h2 => ?_, fun i h1 h2 => ?_, ?_⟩
  · have := h.used i h1 h2
    omega
  · have := h.unused i h1 h2
    omega
  · have := h.access
    omega

theorem Ledger.Paced.put (h : g.Paced n) {z i0 a0 s0 : CInt} (hi : i0.val = g.live.val + 1)
    (ha : g.Next i0 a0) : (g.put z i0 a0 s0).Paced (n + 1) := by
  have hacc := h.access
  have hnew : 2 * a0.val ≤ n + 2 := by
    rcases ha with rfl | ⟨htop, ha⟩
    · show (2 : Int) * 1 ≤ n + 2
      omega
    · have := h.unused i0 (by omega) htop
      omega
  have hmax := larger_val g.access a0
  have htop := larger_val g.top i0
  refine ⟨fun i h1 h2 => ?_, fun i h1 h2 => ?_, ?_⟩
  all_goals simp only [Ledger.put, Function.update_apply] at *
  · by_cases hii : i = i0
    · rw [if_pos hii, hii]
      omega
    · have hne : i.val ≠ i0.val := fun e => hii (Subtype.ext e)
      have := h.used i h1 (by omega)
      rw [if_neg hii]
      omega
  · have hii : i ≠ i0 := fun e => by
      rw [e] at h1
      omega
    have := h.unused i (by omega) (by omega)
    rw [if_neg hii]
    omega
  · omega

theorem Ledger.Paced.free (h : g.Paced n) {p live' a1 : CInt} (hp1 : 1 ≤ p.val)
    (hp : p.val ≤ g.live.val) (hl : live'.val = g.live.val - 1) (ha : a1.val = (g.acc p).val + 1) :
    (g.free p live' a1).Paced (n + 1) := by
  have hacc := h.access
  have hmax := larger_val g.access a1
  have hstep := h.used p hp1 hp
  unfold Ledger.free
  split
  · refine ⟨fun i h1 h2 => ?_, fun i h1 h2 => ?_, ?_⟩
    all_goals simp only [Ledger.drop] at *
    · have := h.used i h1 (by omega)
      omega
    · by_cases hi : i.val ≤ g.live.val
      · have := h.used i (by omega) hi
        omega
      · have := h.unused i (by omega) h2
        omega
    · omega
  · next hne =>
    have hlt : p.val ≠ g.live.val := fun e => hne (Subtype.ext e)
    refine ⟨fun i h1 h2 => ?_, fun i h1 h2 => ?_, ?_⟩
    all_goals simp only [Ledger.move, Function.update_apply] at *
    · by_cases hip : i = p
      · rw [if_pos hip, hip]
        omega
      · have := h.used i h1 (by omega)
        rw [if_neg hip]
        omega
    · have hip : i ≠ p := fun e => by
        rw [e] at h1
        omega
      rw [if_neg hip]
      by_cases hi : i.val ≤ g.live.val
      · have := h.used i (by omega) hi
        omega
      · have := h.unused i (by omega) h2
        omega
    · omega

end

/-! ## Ledgers of live pairs -/

/-- The ledger `g` of `w` lists its live pairs after `calls`. -/
structure Tracks (calls : List Call) (w : Kw) (g : Ledger) : Prop where
  has : ∀ z, g.Has z ↔ live calls w z = true
  paced : g.Paced (callsOn w calls)
  lat_le : g.lat.val ≤ callsOn w calls
  src_le : g.src.val ≤ callsOn w calls

theorem tracks_blank (w : Kw) : Tracks [] w Ledger.blank :=
  ⟨fun _ => ⟨fun ⟨_, h1, h2, _⟩ => absurd (h1.trans h2) (by decide), fun h => by cases h⟩,
    ⟨fun _ h1 h2 => absurd (h1.trans h2) (by decide),
      fun _ h1 h2 => absurd (lt_of_lt_of_le h1 h2) (by decide), by
        show (2 : Int) * 1 ≤ 0 + 2
        decide⟩, le_refl _, le_refl _⟩

section

variable {calls : List Call} {c : Call} {w : Kw} {g g' : Ledger} {P B : FMap 24}

theorem Tracks.other (ht : Tracks calls w g) (hc : c.keyword ≠ w) : Tracks (calls ++ [c]) w g := by
  refine ⟨fun z => by rw [live_snoc, liveAfter_other hc, ht.has], ?_, ?_, ?_⟩
  all_goals rw [callsOn_snoc, if_neg hc]
  exacts [ht.paced, ht.lat_le, ht.src_le]

theorem Tracks.next (ht : Tracks calls w g) (hc : c.keyword = w)
    (hhas : ∀ z, g'.Has z ↔ liveAfter w z (live calls w z) c = true)
    (ha : g'.Paced (callsOn w calls + 1)) (hl : g'.lat.val ≤ g.lat.val + 1)
    (hs : g'.src.val ≤ g.src.val + 1) : Tracks (calls ++ [c]) w g' := by
  have h2 := ht.lat_le
  have h3 := ht.src_le
  refine ⟨fun z => by rw [live_snoc, hhas], ?_, ?_, ?_⟩
  all_goals rw [callsOn_snoc, if_pos hc]
  · exact ha
  all_goals
    push_cast
    omega

theorem Tracks.idle (ht : Tracks calls w g) (hc : c.keyword = w)
    (hlive : ∀ z, liveAfter w z (live calls w z) c = live calls w z) : Tracks (calls ++ [c]) w g :=
  ht.next hc (fun z => by rw [hlive, ht.has]) ht.paced.succ (by omega) (by omega)

theorem Tracks.insert_live (ht : Tracks calls w g) {z : CInt} (hz : live calls w z = true) :
    Tracks (calls ++ [.insert w z]) w g := ht.idle rfl (liveAfter_of_live hz)

theorem Tracks.remove_dead (ht : Tracks calls w g) {z : CInt} (hz : live calls w z = false) :
    Tracks (calls ++ [.remove w z]) w g := ht.idle rfl (liveAfter_of_dead hz)

theorem Tracks.put (ht : Tracks calls w g) (hH : Holds P B w g) {z i0 a0 s0 : CInt}
    (hi0 : i0.val = g.live.val + 1) (ha0 : g.Next i0 a0) :
    Tracks (calls ++ [.insert w z]) w (g.put z i0 a0 s0) := by
  have hlive := hH.live_nonneg
  have hle := hH.live_le
  have hlat := larger_val g.lat i0
  refine ht.next rfl (fun y => ?_) (ht.paced.put hi0 ha0) ?_ (by simp only [Ledger.put]; omega)
  · rw [Ledger.has_put hlive hi0, ht.has]
    by_cases hy : z = y
    · simp [liveAfter, hy]
    · simp [liveAfter, hy, Ne.symm hy]
  · simp only [Ledger.put]
    omega

theorem Tracks.free (ht : Tracks calls w g) (hH : Holds P B w g) {p live' a1 : CInt}
    (hp1 : 1 ≤ p.val) (hp : p.val ≤ g.live.val) (hl : live'.val = g.live.val - 1)
    (ha : a1.val = (g.acc p).val + 1) :
    Tracks (calls ++ [.remove w (g.ind p)]) w (g.free p live' a1) := by
  refine ht.next rfl (fun y => ?_) (ht.paced.free hp1 hp hl ha) ?_ ?_
  · rw [hH.has_free hp1 hp hl, ht.has]
    by_cases hy : g.ind p = y
    · simp [liveAfter, hy]
    · simp [liveAfter, hy, Ne.symm hy]
  · rw [Ledger.free_lat]
    omega
  · rw [Ledger.free_src]
    omega

theorem Tracks.refile (ht : Tracks calls w g) (hH : Holds P B w g) {next : CInt}
    (hn : next.val = g.src.val + 1) : Tracks (calls ++ [.search w]) w (g.refile next) := by
  have hle := hH.live_le
  have hpaced := ht.paced.succ
  refine ht.next rfl ht.has ⟨hpaced.used, hpaced.unused, hpaced.access⟩ ?_ ?_
  all_goals
    simp only [Ledger.refile]
    omega

end

end SmallClientSSE.Horus
