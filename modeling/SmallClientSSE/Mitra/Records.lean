import SmallClientSSE.Mitra.Layout

/-!
# Records on the Mitra server

`addr` is the address (op byte `0`) or mask (op byte `1`) of a record.
`Stored D w srcCnt i recs` says the dictionary `D` holds the encryptions of
`recs` under the numbers `i`, `i + 1`, … of `w` at `srcCnt`. Sending a record
appends to such a list, a search reads the list back as tally weights, and the
clean-up writes a fresh one.
-/

namespace SmallClientSSE.Mitra

open Lib

section

variable (E : Env) (df : Bool) (w : Str)

def addr (op : Byte) (srcCnt fileCnt : Nat) : Block := E.derive (slot df w op srcCnt fileCnt)

/-- `v` is an encryption of a record. -/
def Encrypts (srcCnt i : Nat) (r : OP × CInt) (v : Block) : Prop :=
  ∃ pad, v = bitwiseXORInt r.2.val r.1 (addr E df w 1 srcCnt i) pad

def Stored (D : Block → Block) (srcCnt : Nat) : Nat → List (OP × CInt) → Prop
  | _, [] => True
  | i, r :: rs => Encrypts E df w srcCnt i r (D (addr E df w 0 srcCnt i)) ∧ Stored D srcCnt (i + 1) rs

/-- The buffer `k` yields the same PRF inputs as the keyword's own. -/
def SameKw (k : Block) : Prop :=
  ∀ o s c, prfInput df k o s c = prfInput df (kw w) o s c

/-- Tally weights of records. -/
def weights (recs : List (OP × CInt)) : List (CInt × Int) := recs.map fun r => (r.2, r.1.weight)

end

section

variable {E : Env} {df : Bool} {w : Str}

theorem sameKw_kw : SameKw df w (kw w) := fun _ _ _ => rfl

theorem SameKw.prfInput {k : Block} (h : SameKw df w k) (o : Byte) (s c : Int) :
    SameKw df w (prfInput df k o s c) := fun o' s' c' => by
  rw [prfInput_prfInput]; exact h o' s' c'

theorem SameKw.derive {k : Block} (h : SameKw df w k) (o : Byte) (s c : Nat) :
    E.derive (Mitra.prfInput df k o s c) = addr E df w o s c := by
  rw [h o s c]; rfl

theorem stored_append {D : Block → Block} {src : Nat} {r : OP × CInt} {rs : List (OP × CInt)} :
    ∀ {i : Nat}, Stored E df w D src i (rs ++ [r]) ↔
      Stored E df w D src i rs ∧
        Encrypts E df w src (i + rs.length) r (D (addr E df w 0 src (i + rs.length))) := by
  induction rs with
  | nil => intro i; simp [Stored]
  | cons q rs ih =>
    intro i
    simp only [List.cons_append, Stored, ih, List.length_cons, and_assoc]
    rw [show i + 1 + rs.length = i + (rs.length + 1) by omega]

theorem Stored.congr {D D' : Block → Block} {src : Nat} {rs : List (OP × CInt)} :
    ∀ {i : Nat}, Stored E df w D src i rs →
      (∀ j, i ≤ j → j < i + rs.length → D' (addr E df w 0 src j) = D (addr E df w 0 src j)) →
      Stored E df w D' src i rs := by
  induction rs with
  | nil => exact fun _ _ => trivial
  | cons r rs ih =>
    intro i h hD
    refine ⟨?_, ih h.2 fun j h1 h2 => hD j (by omega) (by simp only [List.length_cons]; omega)⟩
    rw [hD i (Nat.le_refl i) (by simp only [List.length_cons]; omega)]
    exact h.1

/-! ## Sending -/

theorem put_spec (c : Client) (s : Server) {k : Block} (hc : c.deleteFiles = df)
    (hk : SameKw df w k) (op : OP) (ind : Int) (src cnt : Nat) :
    ∃ k', put E c s k op ind src cnt =
        ({ c with rands := c.rands + 1 },
          s.update (addr E df w 0 src cnt)
            (bitwiseXORInt ind op (addr E df w 1 src cnt) (E.rand c.rands)), k') ∧
      SameKw df w k' := by
  subst hc
  refine ⟨prfInput c.deleteFiles (prfInput c.deleteFiles k 0 src cnt) 1 src cnt, ?_,
    (hk.prfInput _ _ _).prfInput _ _ _⟩
  simp only [put]
  rw [hk.derive, (hk.prfInput _ _ _).derive]

/-! ## Reading -/

theorem addresses_spec (src : Nat) :
    ∀ (n i : Nat) {k : Block}, SameKw df w k →
      (addresses E df src k i n).2 = (List.range' i n).map (addr E df w 0 src) ∧
      SameKw df w (addresses E df src k i n).1 := by
  intro n
  induction n with
  | zero => intro i k hk; exact ⟨rfl, hk⟩
  | succ n ih =>
    intro i k hk
    have h := ih (i + 1) (hk.prfInput 0 src i)
    simp only [addresses, List.range'_succ, List.map_cons]
    rw [← Nat.cast_succ, h.1, hk.derive]
    exact ⟨rfl, h.2⟩

theorem decodeAll_spec {D : Block → Block} (src : Nat) (recs : List (OP × CInt)) :
    ∀ (i : Nat) {k : Block}, SameKw df w k → Stored E df w D src i recs →
      (decodeAll E df src k i ((List.range' i recs.length).map fun j => D (addr E df w 0 src j))).2 =
        weights recs ∧
      SameKw df w
        (decodeAll E df src k i ((List.range' i recs.length).map fun j => D (addr E df w 0 src j))).1 := by
  induction recs with
  | nil => exact fun i k hk _ => ⟨rfl, hk⟩
  | cons r recs ih =>
    intro i k hk hst
    obtain ⟨⟨pad, hv⟩, hst⟩ := hst
    have h := ih (i + 1) (hk.prfInput 1 src i) hst
    simp only [List.length_cons, List.range'_succ, List.map_cons, decodeAll, weights]
    rw [← Nat.cast_succ, h.1, hk.derive, hv, unmask_id, unmask_op, OP.weight_eq]
    exact ⟨rfl, h.2⟩

/-! ## The clean-up -/

/-- What writing a list of ids back does. -/
structure Rewritten (E : Env) (df : Bool) (w : Str) (src cnt : Nat) (inds : List CInt)
    (c c' : Client) (s s' : Server) : Prop where
  client : ∃ n, c' = { c with rands := n }
  stored : Stored E df w s'.DictW src (cnt + 1) (inds.map fun i => (OP.INS, i))
  others : ∀ a, (∀ j, cnt < j → j ≤ cnt + inds.length → a ≠ addr E df w 0 src j) →
    s'.DictW a = s.DictW a
  sent : ∀ j, cnt < j → j ≤ cnt + inds.length →
    Msg.update (addr E df w 0 src j) (s'.DictW (addr E df w 0 src j)) ∈ s'.trace
  mono : ∀ m ∈ s.trace, m ∈ s'.trace

theorem rewrite_spec (src : Nat) (inds : List CInt) :
    ∀ (c : Client) (s : Server) (k : Block) (cnt : Nat), c.deleteFiles = df → SameKw df w k →
      (∀ i j, cnt < i → i < j → j ≤ cnt + inds.length → addr E df w 0 src i ≠ addr E df w 0 src j) →
      ∃ c' s' k', rewrite E src c s k cnt inds = (c', s', k', ((cnt + inds.length : Nat) : Int)) ∧
        SameKw df w k' ∧ Rewritten E df w src cnt inds c c' s s' := by
  induction inds with
  | nil =>
    intro c s k cnt _ hk _
    exact ⟨c, s, k, rfl, hk, ⟨c.rands, rfl⟩, trivial, fun _ _ => rfl,
      fun j h1 h2 => absurd h1 (by simpa using h2), fun _ h => h⟩
  | cons ind inds ih =>
    intro c s k cnt hc hk hne
    obtain ⟨k1, hput, hk1⟩ := put_spec (E := E) c s hc hk .INS ind.val src (cnt + 1)
    simp only [List.length_cons] at hne ⊢
    obtain ⟨c', s', k', hrw, hk', R⟩ := ih { c with rands := c.rands + 1 }
      (s.update (addr E df w 0 src (cnt + 1))
        (bitwiseXORInt ind.val .INS (addr E df w 1 src (cnt + 1)) (E.rand c.rands)))
      k1 (cnt + 1) hc hk1 fun i j h1 h2 h3 => hne i j (by omega) h2 (by omega)
    have hkeep : s'.DictW (addr E df w 0 src (cnt + 1)) =
        bitwiseXORInt ind.val .INS (addr E df w 1 src (cnt + 1)) (E.rand c.rands) := by
      rw [R.others _ fun j h1 h2 => hne _ j (by omega) h1 (by omega)]
      simp [Server.update]
    refine ⟨c', s', k', ?_, hk', ?_⟩
    · simp only [rewrite]
      rw [← Nat.cast_succ, hput]
      simp only
      rw [hrw]
      simp only [Prod.mk.injEq, true_and]
      congr 1
      omega
    · constructor
      · obtain ⟨n, hn⟩ := R.client
        exact ⟨n, hn⟩
      · exact ⟨⟨E.rand c.rands, hkeep⟩, R.stored⟩
      · intro a ha
        rw [R.others a fun j h1 h2 => ha j (by omega) (by simp only [List.length_cons]; omega)]
        have := ha (cnt + 1) (by omega) (by simp only [List.length_cons]; omega)
        simp [Server.update, this]
      · intro j h1 h2
        by_cases hj : j = cnt + 1
        · subst hj
          rw [hkeep]
          exact R.mono _ List.mem_cons_self
        · exact R.sent j (by omega) (by simp only [List.length_cons] at h2; omega)
      · exact fun m hm => R.mono m (List.mem_cons_of_mem _ hm)

end

end SmallClientSSE.Mitra
