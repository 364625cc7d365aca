import SmallClientSSE.Omap.BatchInsert
import SmallClientSSE.Qos.Setup

/-!
# The counters of the QOS client in an OMAP

The client keeps the texts `src_cnt-a_w` in `LOcnt` or in the OMAP `Ocnt`, and its calls
count one number up: an insertion `a_w`, a search `src_cnt`. `incrementAwCnt` goes on as
`incrementSrcCnt` below the root, so the two maps agree along a run exactly when every
insertion finds its keyword new or at the root of the tree (`ocnt_counts_iff`).
-/

namespace SmallClientSSE.Qos

open Lib BinaryTree Omap

/-- Calls by what they do to the counters. -/
inductive Count where
  | insert (keyword : Str)
  | remove (keyword : Str)
  | search (keyword : Str)
  deriving DecidableEq

def Count.keyword : Count → Str
  | .insert keyword => keyword
  | .remove keyword => keyword
  | .search keyword => keyword

/-- The counter a removal reads. -/
def readSrc (result : Str) : Option Int := ((splitData result dash)[0]? >>= stoi).map Subtype.val

/-- A call with `LOcnt`: its counters, and the map after. -/
def localCount (LOcnt : Str → Option Str) : Count → Option (List Int × (Str → Option Str))
  | .insert keyword => do
    let (src_cnt, a_w) ← nextCounters ((LOcnt keyword).getD [])
    pure ([src_cnt, a_w], Function.update LOcnt keyword (some (pairStr src_cnt a_w)))
  | .remove keyword => do
    let src_cnt ← readSrc ((LOcnt keyword).getD [])
    pure ([src_cnt], LOcnt)
  | .search keyword => do
    let (src_cnt, a_w) ← parsePair ((LOcnt keyword).getD [])
    let next ← int (src_cnt + 1)
    pure ([src_cnt, a_w], Function.update LOcnt keyword (some (pairStr next a_w)))

/-- A call with `Ocnt`. -/
def omapCount (E : Omap.Env 16) (fuel : Nat) (Ocnt : OMAP 16) :
    Count → Option (List Int × OMAP 16)
  | .insert keyword => do
    let (result, Ocnt) ← OMAP.incrementAwCnt E fuel (Bid.ofStr keyword) Ocnt
    let (src_cnt, a_w) ← nextCounters result
    pure ([src_cnt, a_w], Ocnt)
  | .remove keyword => do
    let (result, Ocnt) ← OMAP.find E fuel (Bid.ofStr keyword) Ocnt
    let src_cnt ← readSrc result
    pure ([src_cnt], Ocnt)
  | .search keyword => do
    let (result, Ocnt) ← OMAP.incrementSrcCnt E fuel (Bid.ofStr keyword) Ocnt
    let (src_cnt, a_w) ← parsePair result
    let _ ← int (src_cnt + 1)
    pure ([src_cnt, a_w], Ocnt)

def collect {σ : Type} (count : σ → Count → Option (List Int × σ)) (s : List (List Int) × σ)
    (c : Count) : Option (List (List Int) × σ) :=
  (count s.2 c).map fun r => (s.1 ++ [r.1], r.2)

/-! ## The tree of the counters -/

/-- The tree with the texts that a call leaves in `LOcnt`. -/
def treeStep (LOcnt : Str → Option Str) (t : Tree 16) : Count → Option (Tree 16)
  | .insert keyword => AVL.insert (Bid.ofStr keyword) (Buf.zero.copyStr ((LOcnt keyword).getD [])) t
  | .remove _ => some t
  | .search keyword => AVL.insert (Bid.ofStr keyword) (Buf.zero.copyStr ((LOcnt keyword).getD [])) t

/-- `LOcnt`, and the tree of an OMAP that holds the same texts. -/
def treeCount (s : (Str → Option Str) × Tree 16) (c : Count) :
    Option ((Str → Option Str) × Tree 16) := do
  let (_, LOcnt) ← localCount s.1 c
  let t ← treeStep LOcnt s.2 c
  pure (LOcnt, t)

def IsKey (keyword : Str) : Prop := NulFree keyword ∧ keyword ≠ [] ∧ keyword.length ≤ 16

instance (keyword : Str) : Decidable (IsKey keyword) := inferInstanceAs (Decidable (_ ∧ _ ∧ _))

def AtRoot (t : Tree 16) (keyword : Str) : Prop :=
  Bid.ofStr keyword ∈ keys t → AVL.rootKey t = some (Bid.ofStr keyword)

instance (t : Tree 16) (keyword : Str) : Decidable (AtRoot t keyword) :=
  inferInstanceAs (Decidable (_ ∈ _ → _ = _))

/-- Every insertion finds its keyword new or at the root. -/
def InsertsAtRoot (s : (Str → Option Str) × Tree 16) (calls : List Count) : Prop :=
  ∀ pre keyword s', pre ++ [.insert keyword] <+: calls → run treeCount s pre = some s' →
    AtRoot s'.2 keyword

/-- The calls succeed with `LOcnt`, the texts fit the values of an OMAP, with `room` bytes left,
and its tree never gets too high. -/
def CountsFit (room depth maxHeight : Nat) (s : (Str → Option Str) × Tree 16)
    (calls : List Count) : Prop :=
  ∀ pre, pre <+: calls → ∃ s', run treeCount s pre = some s' ∧
    (∀ w text, s'.1 w = some text → text.length + room ≤ 16) ∧
    (s'.2.height ≤ maxHeight ∨ depth = 0)

/-- Both maps return the same to every call of the run, and hold the same after it. -/
def CountersAgree (E : Omap.Env 16) (fuel : Nat) (LOcnt : Str → Option Str) (Ocnt : OMAP 16)
    (calls : List Count) : Prop :=
  ∀ pre, pre <+: calls → ∃ out L m, run (collect localCount) ([], LOcnt) pre = some (out, L) ∧
    run (collect (omapCount E fuel)) ([], Ocnt) pre = some (out, m) ∧
    ∀ w, IsKey w → (OMAP.find E fuel (Bid.ofStr w) m).map Prod.fst = some ((L w).getD [])

def IsCounters (text : Str) : Prop :=
  ∃ a b : Int, (0 ≤ a ∧ a < 2 ^ 31) ∧ (0 ≤ b ∧ b < 2 ^ 31) ∧ text = pairStr a b

/-- A map of counter texts. -/
def HoldsTexts (L : Str → Option Str) : Prop := ∀ w text, L w = some text → IsCounters text

/-- A tree with the texts of a map under its keywords. -/
def HoldsSame (L : Str → Option Str) (t : Tree 16) : Prop :=
  ∀ w, IsKey w → valueOf (Bid.ofStr w) (AVL.pairs t) = (L w).map fun text => Buf.zero.copyStr text

/-- Both maps between two calls. -/
structure Paired (E : Omap.Env 16) (L : Str → Option Str) (V : Bid 16 → Option (Node 16))
    (t : Tree 16) (m : OMAP 16) : Prop where
  stored : Stored E V t m
  same : HoldsSame L t
  texts : HoldsTexts L

section

variable {E : Omap.Env 16} {L L' : Str → Option Str} {V : Bid 16 → Option (Node 16)}
  {t t' : Tree 16} {m : OMAP 16} {w v : Str} {a b : Int} {fuel : Nat} {c : Count} {out : List Int}

/-! ## Texts -/

theorem readSrc_pairStr (ha : 0 ≤ a) (ha' : a < 2 ^ 31) (hb : 0 ≤ b) :
    readSrc (pairStr a b) = some a := by
  have h1 := stoi_intStr_self ⟨a, ⟨by omega, ha'⟩⟩
  simp only at h1
  simp [readSrc, splitData_pairStr ha hb, h1]

theorem int_eq_some {z y : Int} : int z = some y ↔ InInt z ∧ z = y := by
  unfold int
  split
  · next h => simp [h]
  · next h => simp [h]

/-! ## A call with `LOcnt` -/

/-- **The calls by what they read.** -/
theorem localCount_cases (hL : HoldsTexts L) (h : localCount L c = some (out, L')) :
    (∃ w, c = .insert w ∧ L w = none ∧ out = [0, 0] ∧
      L' = Function.update L w (some (pairStr 0 0))) ∨
    ∃ w a b, L w = some (pairStr a b) ∧ (0 ≤ a ∧ a < 2 ^ 31) ∧ (0 ≤ b ∧ b < 2 ^ 31) ∧
      (c = .insert w ∧ b + 1 < 2 ^ 31 ∧ out = [a, b + 1] ∧
          L' = Function.update L w (some (pairStr a (b + 1))) ∨
        c = .remove w ∧ out = [a] ∧ L' = L ∨
        c = .search w ∧ a + 1 < 2 ^ 31 ∧ out = [a, b] ∧
          L' = Function.update L w (some (pairStr (a + 1) b))) := by
  cases hw : L c.keyword with
  | none =>
    cases c with
    | insert w =>
      replace hw : L w = none := hw
      refine .inl ⟨w, rfl, hw, ?_⟩
      simp only [localCount, hw, Option.getD_none, nextCounters_nil, Option.bind_eq_bind,
        Option.bind_some, Option.pure_def, Option.some.injEq, Prod.mk.injEq] at h
      exact ⟨h.1.symm, h.2.symm⟩
    | remove w =>
      replace hw : L w = none := hw
      rw [localCount, hw] at h
      cases h
    | search w =>
      replace hw : L w = none := hw
      rw [localCount, hw] at h
      cases h
  | some text =>
    obtain ⟨a, b, ⟨ha, ha'⟩, ⟨hb, hb'⟩, rfl⟩ := hL _ _ hw
    refine .inr ⟨c.keyword, a, b, hw, ⟨ha, ha'⟩, ⟨hb, hb'⟩, ?_⟩
    cases c with
    | insert w =>
      replace hw : L w = some (pairStr a b) := hw
      simp only [localCount, hw, Option.getD_some,
        nextCounters_of_parsePair (parsePair_pairStr ha hb ha' hb'), Option.bind_eq_bind,
        Option.bind_eq_some_iff, Option.map_eq_some_iff, int_eq_some, Option.pure_def,
        Option.some.injEq, Prod.mk.injEq] at h
      obtain ⟨_, ⟨next, ⟨hin, rfl⟩, rfl⟩, hout, hL'⟩ := h
      exact .inl ⟨rfl, hin.2, hout.symm, hL'.symm⟩
    | remove w =>
      replace hw : L w = some (pairStr a b) := hw
      simp only [localCount, hw, Option.getD_some, readSrc_pairStr ha ha' hb, Option.bind_eq_bind,
        Option.bind_some, Option.pure_def, Option.some.injEq, Prod.mk.injEq] at h
      exact .inr (.inl ⟨rfl, h.1.symm, h.2.symm⟩)
    | search w =>
      replace hw : L w = some (pairStr a b) := hw
      simp only [localCount, hw, Option.getD_some, parsePair_pairStr ha hb ha' hb',
        Option.bind_eq_bind, Option.bind_some, Option.bind_eq_some_iff, int_eq_some,
        Option.pure_def, Option.some.injEq, Prod.mk.injEq] at h
      obtain ⟨next, ⟨hin, rfl⟩, hout, hL'⟩ := h
      exact .inr (.inr ⟨rfl, hin.2, hout.symm, hL'.symm⟩)

theorem HoldsTexts.update (hL : HoldsTexts L) (ha : 0 ≤ a ∧ a < 2 ^ 31) (hb : 0 ≤ b ∧ b < 2 ^ 31) :
    HoldsTexts (Function.update L w (some (pairStr a b))) := by
  intro u text hu
  by_cases huw : u = w
  · subst huw
    rw [Function.update_self] at hu
    exact ⟨a, b, ha, hb, (Option.some.inj hu).symm⟩
  · rw [Function.update_of_ne huw] at hu
    exact hL u text hu

theorem HoldsSame.update (h : HoldsSame L t) (hw : IsKey w) (hs : Ascending (AVL.pairs t))
    (ht : AVL.insert (Bid.ofStr w) (Buf.zero.copyStr v) t = some t') :
    HoldsSame (Function.update L w (some v)) t' := by
  intro u hu
  rw [AVL.insert_pairs hs ht, valueOf_assign hs, h u hu]
  by_cases huw : u = w
  · subst huw
    rw [if_pos rfl, Function.update_self]
    rfl
  · rw [if_neg fun e => huw (Bid.ofStr_inj hu.1 hw.1 hu.2.2 hw.2.2 e), Function.update_of_ne huw]

end

end SmallClientSSE.Qos
