import SmallClientSSE.Qos.Walk

/-!
# Positions of a keyword

`Slots` lists the ids of a keyword by position and which of them are live. A node
is `Dead` when its positions are all used and none is live. Once the siblings on
the way up from a removed position are dead, so is the node above
(`dead_of_siblings`), which is what `finalNodesColor` computes.
-/

namespace SmallClientSSE.Qos

open Lib Dyadic

structure Slots where
  n : Nat
  idAt : Nat → CInt
  live : Nat → Bool

namespace Slots

def empty : Slots := ⟨0, fun _ => cint 0, fun _ => false⟩

/-- The next position. -/
def push (g : Slots) (id : CInt) : Slots :=
  ⟨g.n + 1, Function.update g.idAt g.n id, Function.update g.live g.n true⟩

/-- Position `p` is removed. -/
def kill (g : Slots) (p : Nat) : Slots := { g with live := Function.update g.live p false }

def ids (g : Slots) : List CInt := ((List.range g.n).filter g.live).map g.idAt

/-- All positions below a node are used, and none is live. -/
def Dead (g : Slots) (m k : Nat) : Prop :=
  (k + 1) * 2 ^ m ≤ g.n ∧ ∀ p, p / 2 ^ m = k → g.live p = false

variable {g : Slots} {m k p : Nat} {id : CInt}

theorem mem_ids : id ∈ g.ids ↔ ∃ p, p < g.n ∧ g.live p = true ∧ g.idAt p = id := by
  simp only [ids, List.mem_map, List.mem_filter, List.mem_range, and_assoc]

theorem ids_push : (g.push id).ids = g.ids ++ [id] := by
  have hfilter : (List.range g.n).filter (g.push id).live = (List.range g.n).filter g.live :=
    List.filter_congr fun p hp => by
      have := (List.mem_range.mp hp).ne
      simp [push, this]
  have hmap : ((List.range g.n).filter g.live).map (g.push id).idAt = g.ids :=
    List.map_congr_left fun p hp => by
      have := (List.mem_range.mp (List.mem_filter.mp hp).1).ne
      simp [push, this]
  have hn : (g.push id).n = g.n + 1 := rfl
  have hlive : (g.push id).live g.n = true := by simp [push]
  have hid : (g.push id).idAt g.n = id := by simp [push]
  rw [ids, hn, List.range_succ, List.filter_append, List.map_append, hfilter, hmap]
  simp [hlive, hid]

theorem ids_kill (hid : g.idAt p = id)
    (hone : ∀ q, q < g.n → g.live q = true → g.idAt q = id → q = p) :
    (g.kill p).ids = g.ids.filter fun x => decide (x ≠ id) := by
  have hfilter : (List.range g.n).filter (g.kill p).live =
      ((List.range g.n).filter g.live).filter fun q => decide (g.idAt q ≠ id) := by
    rw [List.filter_filter]
    refine List.filter_congr fun q hq => ?_
    have hq := List.mem_range.mp hq
    by_cases hqp : q = p
    · subst hqp
      simp [kill, hid]
    · by_cases hl : g.live q = true
      · have : g.idAt q ≠ id := fun e => hqp (hone q hq hl e)
        simp [kill, hqp, hl, this]
      · simp [kill, hqp, hl]
  rw [ids, ids, List.filter_map]
  exact congrArg _ hfilter

theorem Dead.push (hd : g.Dead m k) : (g.push id).Dead m k := by
  refine ⟨hd.1.trans (Nat.le_succ _), fun q hq => ?_⟩
  have hlt : q < g.n := by
    have h1 := Nat.lt_mul_div_succ q (Nat.two_pow_pos m)
    rw [hq, Nat.mul_comm] at h1
    exact lt_of_lt_of_le h1 hd.1
  have := hd.2 q hq
  simp [Slots.push, hlt.ne, this]

theorem Dead.kill (hd : g.Dead m k) : (g.kill p).Dead m k := by
  refine ⟨hd.1, fun q hq => ?_⟩
  by_cases h : q = p
  · simp [Slots.kill, h]
  · simpa [Slots.kill, h] using hd.2 q hq

theorem dead_iff : g.Dead m k ↔ ∀ p, p / 2 ^ m = k → p < g.n ∧ g.live p = false := by
  have hpos := Nat.two_pow_pos m
  constructor
  · rintro ⟨h1, h2⟩ p hp
    refine ⟨?_, h2 p hp⟩
    have h3 := Nat.lt_mul_div_succ p hpos
    rw [hp, Nat.mul_comm] at h3
    exact lt_of_lt_of_le h3 h1
  · intro h
    refine ⟨?_, fun p hp => (h p hp).2⟩
    have hp : (k * 2 ^ m + (2 ^ m - 1)) / 2 ^ m = k := by
      rw [Nat.mul_comm, Nat.mul_add_div hpos, Nat.div_eq_of_lt (by omega), Nat.add_zero]
    have := (h _ hp).1
    rw [Nat.add_mul, Nat.one_mul]
    omega

/-- **A node is dead** when its position `p` is, and every sibling on the way up. -/
theorem dead_of_siblings (hp : p < g.n) (hsib : ∀ j, j < m → g.Dead j (sib (p / 2 ^ j))) :
    (g.kill p).Dead m (p / 2 ^ m) := by
  induction m with
  | zero =>
    refine dead_iff.mpr fun q hq => ?_
    obtain rfl : q = p := by simpa using hq
    exact ⟨hp, by simp [Slots.kill]⟩
  | succ m ih =>
    have h1 := dead_iff.mp (ih fun j hj => hsib j (by omega))
    have h2 := dead_iff.mp ((hsib m (Nat.lt_succ_self m)).kill (p := p))
    refine dead_iff.mpr fun q hq => ?_
    rw [div_succ, div_succ] at hq
    by_cases he : q / 2 ^ m = p / 2 ^ m
    · exact h1 q he
    · refine h2 q ?_
      generalize q / 2 ^ m = a at hq he
      generalize p / 2 ^ m = b at hq he
      unfold sib
      split <;> omega

end Slots

/-! ## Colours -/

/-- The number of a colour. -/
def color (b : Bool) : Int := if b then 2 else 0

def full (f : Nat → Bool) (m : Nat) : Bool := (List.range m).all f

theorem full_iff {f : Nat → Bool} {m : Nat} : full f m = true ↔ ∀ j, j < m → f j = true := by
  simp [full, List.all_eq_true]

theorem full_succ (f : Nat → Bool) (m : Nat) : full f (m + 1) = (full f m && f m) := by
  simp [full, List.range_succ]

/-- **`finalNodesColor`** says which siblings are all coloured. -/
theorem finalColors_eq (f : Nat → Bool) (N : Nat) :
    2 :: finalColors 2 ((List.range N).map fun m => color (f m)) =
      (List.range (N + 1)).map fun m => color (full f m) := by
  have key : ∀ N a, finalColors (color (full f a)) ((List.range' a N).map fun m => color (f m)) =
      (List.range' (a + 1) N).map fun m => color (full f m) := by
    intro N
    induction N with
    | zero => exact fun _ => rfl
    | succ N ih =>
      intro a
      have hnext : (if color (full f a) = 2 ∧ color (f a) = 2 then (2 : Int) else 0) =
          color (full f (a + 1)) := by
        rw [full_succ]
        cases full f a <;> cases f a <;> rfl
      rw [List.range'_succ, List.map_cons, finalColors, hnext, ih, List.range'_succ, List.map_cons]
  have h0 := key N 0
  rw [show color (full f 0) = 2 from rfl, ← List.range_eq_range'] at h0
  rw [h0, List.range_eq_range', List.range'_succ, List.map_cons]
  rfl

theorem changed_spec (node : Nat → Int) (f col : Nat → Bool) (N : Nat) :
    (∃ m, m < N ∧ changed (((List.range N).map node).zip
        (((List.range N).map fun m => color (col m)).zip
          ((List.range N).map fun m => color (full f m)))) = some (node m) ∧
      full f m = true ∧ col m = false ∧ ∀ j, m < j → j < N → full f j = true → col j = true) ∨
    (changed (((List.range N).map node).zip
        (((List.range N).map fun m => color (col m)).zip
          ((List.range N).map fun m => color (full f m)))) = none ∧
      ∀ m, m < N → full f m = true → col m = true) := by
  have hzip : ((List.range N).map node).zip (((List.range N).map fun m => color (col m)).zip
      ((List.range N).map fun m => color (full f m))) =
      (List.range N).map fun m => (node m, color (col m), color (full f m)) := by
    rw [List.zip_map', List.zip_map']
  rw [hzip]
  clear hzip
  have hpick : ∀ m, (color (full f m) ≠ color (col m) ∧ color (full f m) = 2) ↔
      full f m = true ∧ col m = false := by
    intro m
    cases full f m <;> cases col m <;> simp [color]
  induction N with
  | zero => exact .inr ⟨rfl, fun m hm => absurd hm (Nat.not_lt_zero m)⟩
  | succ N ih =>
    unfold changed at ih ⊢
    rw [List.range_succ, List.map_append, List.reverse_append, List.map_singleton,
      List.reverse_singleton, List.singleton_append, List.find?_cons]
    simp only [hpick] at ih ⊢
    by_cases hN : full f N = true ∧ col N = false
    · refine .inl ⟨N, Nat.lt_succ_self N, ?_, hN.1, hN.2, fun j h1 h2 => absurd h1 (by omega)⟩
      simp [hN]
    · have hdec : decide (full f N = true ∧ col N = false) = false := decide_eq_false hN
      rw [hdec]
      have htop : full f N = true → col N = true := fun h => by
        cases hc : col N with
        | true => rfl
        | false => exact absurd ⟨h, hc⟩ hN
      rcases ih with ⟨m, hm, hch, h1, h2, h3⟩ | ⟨hch, hall⟩
      · refine .inl ⟨m, by omega, hch, h1, h2, fun j hj hjN => ?_⟩
        rcases Nat.lt_succ_iff_lt_or_eq.mp hjN with h | rfl
        exacts [h3 j hj h, htop]
      · refine .inr ⟨hch, fun m hm => ?_⟩
        rcases Nat.lt_succ_iff_lt_or_eq.mp hm with h | rfl
        exacts [hall m h, htop]

end SmallClientSSE.Qos
