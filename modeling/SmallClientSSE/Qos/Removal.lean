import SmallClientSSE.Qos.Exact

/-!
# What a removal marks

A stored colour tells whether a sibling is all removed, although nodes absorbed into a
larger marked one are never coloured: dead nodes without a dead parent are always coloured
(`Settled`). So `remove` marks exactly the largest subtree that its removal empties
(`remove_marks_largest`).
-/

namespace SmallClientSSE.Qos

open Lib Dyadic

namespace Slots

/-- The last position of an id, which `LOdel` keeps. -/
def leafOf (g : Slots) (id : CInt) : Option Nat :=
  (List.range g.n).reverse.find? fun p => decide (g.idAt p = id)

/-- What a call on the keyword does to its positions. -/
def after (g : Slots) : Call → Slots
  | .insert _ id => g.push id
  | .remove _ id => match g.leafOf id with
    | some p => g.kill p
    | none => g
  | .search _ => g

/-- The pair of the id is live, at leaf `p`. -/
def LiveAt (g : Slots) (id : CInt) (p : Nat) : Prop := g.leafOf id = some p ∧ g.live p = true

instance (g : Slots) (id : CInt) (p : Nat) : Decidable (g.LiveAt id p) :=
  inferInstanceAs (Decidable (_ ∧ _))

instance (g : Slots) (id : CInt) : Decidable (∃ p, g.LiveAt id p) :=
  decidable_of_iff ((g.leafOf id).any g.live = true) (by simp [LiveAt, Option.any_eq_true])

variable {g : Slots} {id x : CInt} {m k p : Nat}

theorem leafOf_lt (h : g.leafOf id = some p) : p < g.n :=
  List.mem_range.mp (List.mem_reverse.mp (List.mem_of_find?_eq_some h))

theorem leafOf_push : (g.push id).leafOf x = if id = x then some g.n else g.leafOf x := by
  have hself : (g.push id).idAt g.n = id := by simp [push]
  have hrest : ∀ l : List Nat, (∀ p ∈ l, p < g.n) →
      l.find? (fun p => decide ((g.push id).idAt p = x)) =
        l.find? fun p => decide (g.idAt p = x) := by
    intro l
    induction l with
    | nil => exact fun _ => rfl
    | cons p l ih =>
      intro hl
      have hp : (g.push id).idAt p = g.idAt p := by simp [push, (hl p List.mem_cons_self).ne]
      rw [List.find?_cons, List.find?_cons, hp, ih fun q hq => hl q (List.mem_cons_of_mem _ hq)]
  have hn : (g.push id).n = g.n + 1 := rfl
  rw [leafOf, hn, List.range_succ, List.reverse_append, List.reverse_singleton,
    List.singleton_append, List.find?_cons, hself, hrest _ fun p hp =>
      List.mem_range.mp (List.mem_reverse.mp hp)]
  by_cases h : id = x
  · simp [h]
  · simp [h, leafOf]

theorem dead_of_push (hd : (g.push id).Dead m k) : g.Dead m k := by
  rw [dead_iff] at hd ⊢
  intro p hp
  obtain ⟨h1, h2⟩ := hd p hp
  have hne : p ≠ g.n := fun e => by simp [push, e] at h2
  have hn : (g.push id).n = g.n + 1 := rfl
  refine ⟨by omega, ?_⟩
  simpa [push, hne] using h2

/-- Dead nodes after a removal that are not above it were dead before. -/
theorem dead_of_kill (hd : (g.kill p).Dead m k) (hne : p / 2 ^ m ≠ k) : g.Dead m k := by
  rw [dead_iff] at hd ⊢
  intro q hq
  obtain ⟨h1, h2⟩ := hd q hq
  have hqp : q ≠ p := fun e => hne (e ▸ hq)
  exact ⟨h1, by simpa [kill, hqp] using h2⟩

theorem sib_half (k : Nat) : sib k / 2 = k / 2 := by
  unfold sib
  split <;> omega

theorem sib_ne (k : Nat) : sib k ≠ k := by
  unfold sib
  split <;> omega

/-- Below a node that a removal empties, the siblings of the path were dead before. -/
theorem sib_dead_of_kill {j : Nat} (hd : (g.kill p).Dead m (p / 2 ^ m)) (hj : j < m) :
    g.Dead j (sib (p / 2 ^ j)) := by
  refine dead_of_kill (p := p) ?_ fun e => sib_ne _ e.symm
  rw [dead_iff] at hd ⊢
  intro q hq
  refine hd q ?_
  have hup : ∀ x, x / 2 ^ m = x / 2 ^ j / 2 / 2 ^ (m - j - 1) := fun x => by
    rw [Nat.div_div_eq_div_mul, Nat.div_div_eq_div_mul, ← pow_succ', ← pow_add]
    congr 2
    omega
  rw [hup q, hq, sib_half, ← hup]

end Slots

def positions (calls : List Call) : Slots := calls.foldl Slots.after Slots.empty

/-- Only live pairs are removed. -/
def RemovesLive (pre : List Call) : Call → Prop
  | .remove _ id => ∃ p, (positions pre).LiveAt id p
  | .insert _ _ => True
  | .search _ => True

instance (pre : List Call) (a : Call) : Decidable (RemovesLive pre a) :=
  match a with
  | .remove _ id => inferInstanceAs (Decidable (∃ p, (positions pre).LiveAt id p))
  | .insert _ _ => inferInstanceAs (Decidable True)
  | .search _ => inferInstanceAs (Decidable True)

/-! ## Colours -/

/-- The colours of `w` and its positions: every dead node without a dead parent has a colour,
and `LOdel` keeps the last position of each id. -/
structure Settled (c : Client) (w : Str) (src : Nat) (g : Slots) : Prop where
  colours : Colours c w src g
  height : c.server.height = c.height
  small : 0 < g.n → c.height ≤ 31
  src_lt : src < 2 ^ 31
  src_zero : g.n = 0 → src = 0
  topmost : ∀ m k, InTree c.height m k → g.Dead m k →
    (m + 1 < c.height → ¬ g.Dead (m + 1) (k / 2)) → coloured c w m k = true
  recorded : ∀ id p, g.leafOf id = some p → c.LOdel (mapKey w id.val) = some (intStr p)

section

variable {E : Env} {c c' : Client} {w : Str} {src : Nat} {g : Slots} {id : CInt} {p : Nat}

theorem Slots.not_dead_above {g : Slots} (hl : g.live p = true) (m : Nat) :
    ¬ g.Dead m (p / 2 ^ m) := fun hd => by
  have := hd.2 p rfl
  rw [hl] at this
  cases this

theorem int_some {z x : Int} (h : int z = some x) : InInt z ∧ x = z := by
  unfold int at h
  split at h
  · next hz => exact ⟨hz, (Option.some.inj h).symm⟩
  · cases h

theorem height_le_of_node {h : Nat} {leaf d x : Int} (hx : getNodeOnPath h leaf d = some x) :
    h ≤ 31 := by
  unfold getNodeOnPath at hx
  obtain ⟨full, hfull, -⟩ := Option.bind_eq_some_iff.mp hx
  obtain ⟨⟨-, hlt⟩, -⟩ := int_some hfull
  by_contra hgt
  have : (2 : Int) ^ 32 ≤ 2 ^ h := pow_le_pow_right₀ (by decide) (by omega)
  omega

/-- **An insertion** adds a live position. -/
theorem Settled.insert (hs : Settled c w src g) (hroom : g.n < 2 ^ (c.height - 1))
    (hr : insert E c w id = some c') :
    Settled c' w src (g.push id) ∧ c'.height = c.height ∧ c'.server.Dstate = c.server.Dstate := by
  have hn31 : g.n < 2 ^ 31 := by
    by_cases h0 : g.n = 0
    · omega
    · have := hs.small (by omega)
      exact lt_of_lt_of_le hroom (Nat.pow_le_pow_right (by decide) (by omega))
  unfold Qos.insert at hr
  rw [hs.colours.nextCounters hs.src_zero hs.src_lt hn31] at hr
  simp only [Option.bind_eq_bind, Option.bind_some] at hr
  obtain ⟨x, hx, hr⟩ := Option.bind_eq_some_iff.mp hr
  obtain rfl := (Option.some.inj hr).symm
  refine ⟨⟨⟨hroom, ?_, fun m k ht => (hs.colours.colour m k ht).imp_right fun h =>
    ⟨h.1, h.2.push⟩⟩, hs.height, fun _ => height_le_of_node hx, hs.src_lt,
    fun h => absurd h (Nat.succ_ne_zero _), ?_, ?_⟩, rfl, rfl⟩
  · show Function.update c.LOcnt w (some (pairStr src g.n)) w = _
    rw [Function.update_self, show (g.push id).n = g.n + 1 from rfl, if_neg (Nat.succ_ne_zero _),
      show ((g.n + 1 : Nat) : Int) - 1 = g.n by omega]
  · exact fun m k ht hd hno => hs.topmost m k ht (Slots.dead_of_push hd) fun hm hd' =>
      hno hm hd'.push
  · intro x q hx
    show Function.update c.LOdel _ _ _ = _
    rw [Slots.leafOf_push] at hx
    by_cases hid : id = x
    · rw [if_pos hid] at hx
      rw [← hid, Function.update_self, Option.some.inj hx]
    · rw [if_neg hid] at hx
      rw [Function.update_of_ne fun e => hid ?_]
      · exact hs.recorded x q hx
      · have hstr := List.append_cancel_left e
        exact (Subtype.ext (intStr_inj (List.cons.inj hstr).2)).symm

/-- **The removal of a live pair** colours the highest node it empties. -/
theorem Settled.remove_eq (hs : Settled c w src g) (hpos : 0 < c.height) (hlive : g.LiveAt id p) :
    ∃ m, m < c.height ∧ (g.kill p).Dead m (p / 2 ^ m) ∧
      (∀ j, m < j → j < c.height → ¬ (g.kill p).Dead j (p / 2 ^ j)) ∧
      coloured c w m (p / 2 ^ m) = false ∧
      remove E c w id = some { c with
        LOstate := Function.update c.LOstate (mapKey w (index c.height m (p / 2 ^ m)))
          (some (intStr 2))
        server := c.server.insertInDstate (spot E c.height DKey w src m (p / 2 ^ m))
          (markValue E) } := by
  obtain ⟨hleaf, hl⟩ := hlive
  have hp := Slots.leafOf_lt hleaf
  have hh := hs.small (by omega)
  have habove := fun m hm => inTree_above (m := m) (lt_of_lt_of_le hp hs.colours.fit) hm
  have hpath : ∀ m, m < c.height → coloured c w m (p / 2 ^ m) = false := fun m hm =>
    eq_false_of_ne_true fun hcol => Slots.not_dead_above hl m (hs.colours.dead (habove m hm) hcol)
  rcases remove_choice (E := E) hh hpos hs.colours hs.src_lt hp (hs.recorded id p hleaf) with
    ⟨m, hm, hf, hno, htop, hr⟩ | ⟨hall, -⟩
  · refine ⟨m, hm, hs.colours.dead_of_full hp hm hf, fun j hj hjh hd => ?_, hno, hr⟩
    -- the siblings below are topmost dead nodes, hence coloured
    have hfull : full (fun i => coloured c w i (sib (p / 2 ^ i))) j = true := by
      refine full_iff.mpr fun i hi => hs.topmost i _ ((habove i (by omega)).sib (by omega))
        (Slots.sib_dead_of_kill hd hi) fun _ hup => ?_
      rw [Slots.sib_half, ← div_succ] at hup
      exact Slots.not_dead_above hl (i + 1) hup
    have := htop j hj hjh hfull
    rw [hpath j hjh] at this
    cases this
  · have := hall 0 hpos rfl
    rw [hpath 0 hpos] at this
    cases this

theorem Settled.remove (hs : Settled c w src g) (hlive : g.LiveAt id p) {m : Nat}
    (hm : m < c.height) (hd : (g.kill p).Dead m (p / 2 ^ m))
    (htop : ∀ j, m < j → j < c.height → ¬ (g.kill p).Dead j (p / 2 ^ j)) {server : Server}
    (hserver : server.height = c.server.height) :
    Settled { c with
      LOstate := Function.update c.LOstate (mapKey w (index c.height m (p / 2 ^ m)))
        (some (intStr 2))
      server := server } w src (g.kill p) := by
  obtain ⟨hleaf, hl⟩ := hlive
  have hp := Slots.leafOf_lt hleaf
  have hh := hs.small (by omega)
  have ht := inTree_above (lt_of_lt_of_le hp hs.colours.fit) hm
  refine ⟨⟨hs.colours.fit, hs.colours.cnt, fun j k hjk => ?_⟩, hserver.trans hs.height, hs.small,
    hs.src_lt, hs.src_zero, fun j k hjk hdead hno => ?_, hs.recorded⟩
  · show Function.update c.LOstate _ _ _ = _ ∨ Function.update c.LOstate _ _ _ = _ ∧ _
    by_cases hk : mapKey w (index c.height j k) = mapKey w (index c.height m (p / 2 ^ m))
    · obtain ⟨rfl, rfl⟩ := index_inj hjk ht (mapKey_inj index_nonneg index_nonneg hk).2
      exact .inr ⟨Function.update_self .., hd⟩
    · rw [Function.update_of_ne hk]
      exact (hs.colours.colour j k hjk).imp_right fun h => ⟨h.1, h.2.kill⟩
  · show (Function.update c.LOstate _ _ _).isSome = true
    rw [Function.update_apply]
    split
    · rfl
    · next hk =>
      by_cases hpk : p / 2 ^ j = k
      · -- a topmost dead node above the leaf is the one just coloured
        subst hpk
        rcases Nat.lt_trichotomy j m with hlt | rfl | hgt
        · exfalso
          refine hno (lt_of_le_of_lt hlt hm) ?_
          rw [← div_succ]
          have hup : p / 2 ^ m = p / 2 ^ (j + 1) / 2 ^ (m - (j + 1)) := by
            rw [Nat.div_div_eq_div_mul, ← pow_add, show j + 1 + (m - (j + 1)) = m by omega]
          rw [Slots.dead_iff] at hd ⊢
          intro q hq
          refine hd q ?_
          rw [hup, ← hq, Nat.div_div_eq_div_mul, ← pow_add,
            show j + 1 + (m - (j + 1)) = m by omega]
        · exact absurd rfl hk
        · exact absurd hdead (htop j hgt hjk.1)
      · exact hs.topmost j k hjk (Slots.dead_of_kill hdead hpk) fun hj hup =>
          hno hj hup.kill

/-- What a search does to the maps that removals use. -/
theorem search_cases {l : List CInt} (hs : search E c w = some (l, c')) :
    ∃ src a_w ciphers deletes server items, parsePair ((c.LOcnt w).getD []) = some (src, a_w) ∧
      c.server.search E.aes (bitwiseXOR IKey (getAESRandomValue E w src))
        (bitwiseXOR DKey (getAESRandomValue E w src)) a_w = some (ciphers, deletes, server) ∧
      InInt (src + 1) ∧ c' = { c with
        LOcnt := Function.update c.LOcnt w (some (pairStr (src + 1) a_w))
        server := server.insertAll items
          (deletes.map fun del => (address E DKey w (src + 1) del, markValue E)) } := by
  unfold search at hs
  obtain ⟨⟨src, a_w⟩, hcnt, hs⟩ := Option.bind_eq_some_iff.mp hs
  obtain ⟨⟨finalRes, next, after⟩, hsearch, hs⟩ := Option.bind_eq_some_iff.mp hs
  obtain ⟨⟨ciphers, deletes, server⟩, hserver, hsearch⟩ := Option.bind_eq_some_iff.mp hsearch
  obtain ⟨x, hx, hsearch⟩ := Option.bind_eq_some_iff.mp hsearch
  obtain ⟨hin, rfl⟩ := int_some hx
  obtain ⟨-, hafter⟩ := Prod.mk.inj (Option.some.inj hsearch)
  obtain ⟨rfl, rfl⟩ := Prod.mk.inj hafter
  obtain ⟨-, rfl⟩ := Prod.mk.inj (Option.some.inj hs)
  exact ⟨src, a_w, ciphers, deletes, server, _, hcnt, hserver, hin, rfl⟩

/-- What the server's part of a search does to the marks. -/
theorem Server.search_marks {A : Aes} {s s' : Server} {Ikey Dkey : Block} {n : Nat}
    {ciphers : List (Int × Block)} {deletes : List Int} (hh : s.height ≤ 31) (hpos : 0 < s.height)
    (hn : n ≤ 2 ^ (s.height - 1))
    (hs : s.search A Ikey Dkey ((n : Int) - 1) = some (ciphers, deletes, s')) :
    deletes = ((marks (markedIn A s.height Dkey s.Dstate) 0 n).map
        fun d => index s.height d.1 d.2) ∧ s'.height = s.height ∧
      s'.Dstate = without s.Dstate
        ((marks (markedIn A s.height Dkey s.Dstate) 0 n).map (addr A s.height Dkey)) := by
  have htree : ∀ d ∈ cover 0 n, InTree s.height d.1 d.2 := fun d hd =>
    inTree_of_end hpos ((cover_end (aligned_zero n) hd).trans (by omega))
  unfold Server.search at hs
  rw [findCoveringSet_eq hh hpos hn] at hs
  simp only [Option.bind_eq_bind, Option.bind_some] at hs
  rw [walks_spec hh _ _ htree (cover_disjoint (aligned_zero n))] at hs
  simp only [Option.bind_some, List.nil_append] at hs
  obtain ⟨-, hs⟩ := Prod.mk.inj (Option.some.inj hs)
  obtain ⟨rfl, rfl⟩ := Prod.mk.inj hs
  exact ⟨rfl, rfl, rfl⟩

theorem Settled.search (hs : Settled c w src g) (hpos : 0 < c.height) {l : List CInt}
    (hr : search E c w = some (l, c')) :
    0 < g.n ∧ Settled c' w (src + 1) g ∧ c'.height = c.height ∧
      ∀ a, (∀ d ∈ met E c w src g.n, a ≠ spot E c.height DKey w (src + 1) d.1 d.2) →
        c'.server.Dstate a = without c.server.Dstate
          ((met E c w src g.n).map fun d => spot E c.height DKey w src d.1 d.2) a := by
  obtain ⟨src', a_w, ciphers, deletes, server, items, hcnt, hserver, hin, rfl⟩ := search_cases hr
  have hn : 0 < g.n := by
    rcases Nat.eq_zero_or_pos g.n with h0 | h0
    · rw [hs.colours.cnt, if_pos h0] at hcnt
      cases hcnt
    · exact h0
  have hh := hs.small hn
  have hn31 : g.n < 2 ^ 31 :=
    lt_of_le_of_lt hs.colours.fit (Nat.pow_lt_pow_right (by decide) (by omega))
  have hsrc := hs.src_lt
  rw [hs.colours.cnt, if_neg (by omega), Option.getD_some,
    parsePair_pairStr (by omega) (by omega) (by omega) (by omega)] at hcnt
  obtain ⟨rfl, rfl⟩ := Prod.mk.inj (Option.some.inj hcnt)
  have hh' : c.server.height ≤ 31 := hs.height ▸ hh
  obtain ⟨rfl, hheight, hD⟩ := Server.search_marks hh' (hs.height ▸ hpos)
    (hs.height ▸ hs.colours.fit) hserver
  rw [hs.height] at hD
  refine ⟨hn, ⟨⟨hs.colours.fit, ?_, hs.colours.colour⟩, ?_, hs.small, ?_, fun h => absurd h (by omega),
    hs.topmost, hs.recorded⟩, rfl, fun a ha => ?_⟩
  · show Function.update c.LOcnt w _ w = _
    rw [Function.update_self, if_neg (by omega)]
    rfl
  · exact (insertAll_spec _ _ _).1.trans (hheight.trans hs.height)
  · have := hin.2
    omega
  · rw [hs.height]
    refine ((insertAll_spec _ _ _).2.2.2.1 a ?_).trans (congrFun hD a)
    rw [List.map_map, List.map_map]
    rintro hmem
    obtain ⟨d, hd, e⟩ := List.mem_map.mp hmem
    exact ha d hd e.symm

/-! ## Marks -/

/-- Marks stand on dead nodes, under the current `src_cnt` and no later one. -/
structure Placed (E : Env) (c : Client) (w : Str) (src : Nat) (g : Slots) : Prop where
  marked : ∀ m k, InTree c.height m k →
    (c.server.Dstate (spot E c.height DKey w src m k)).isSome → g.Dead m k
  later : ∀ s, src < s → s < 2 ^ 31 → ∀ m k, InTree c.height m k →
    c.server.Dstate (spot E c.height DKey w s m k) = none

/-- The PRF is injective in `src_cnt` on the part of its value that an address uses. -/
def PrfInjective (E : Env) (w : Str) : Prop :=
  Set.InjOn (fun s : Nat => head11 (getAESRandomValue E w s)) {s | s < 2 ^ 31}

variable (hE : PrfInjective E w)

include hE

theorem spot_inj_of_injective {h s t m k j i : Nat} (hh : h ≤ 31) (hs : s < 2 ^ 31)
    (ht : t < 2 ^ 31) (h1 : InTree h m k) (h2 : InTree h j i)
    (e : spot E h DKey w s m k = spot E h DKey w t j i) : s = t ∧ m = j ∧ k = i := by
  have hprf : Set.InjOn (fun p : Str × Nat => head11 (getAESRandomValue E p.1 p.2))
      {p | p.1 = w ∧ p.2 < 2 ^ 31} := by
    rintro ⟨_, s⟩ ⟨rfl, hs⟩ ⟨_, t⟩ ⟨rfl, ht⟩ e
    exact congrArg _ (hE hs ht e)
  exact (spot_inj_of_prf hprf hh ⟨rfl, hs⟩ ⟨rfl, ht⟩ h1 h2 e).2

theorem Placed.remove (hq : Placed E c w src g) (hh : c.height ≤ 31) (hsrc : src < 2 ^ 31) {m : Nat}
    (ht : InTree c.height m (p / 2 ^ m)) (hd : (g.kill p).Dead m (p / 2 ^ m)) {st : Str → Option Str}
    {v : Block} :
    Placed E { c with
      LOstate := st
      server := c.server.insertInDstate (spot E c.height DKey w src m (p / 2 ^ m)) v }
      w src (g.kill p) := by
  refine ⟨fun j k hjk hm => ?_, fun s h1 h2 j k hjk => ?_⟩
  · replace hm : (Function.update c.server.Dstate _ _ _).isSome = true := hm
    by_cases hk : spot E c.height DKey w src j k = spot E c.height DKey w src m (p / 2 ^ m)
    · obtain ⟨-, rfl, rfl⟩ := spot_inj_of_injective hE hh hsrc hsrc hjk ht hk
      exact hd
    · rw [Function.update_of_ne hk] at hm
      exact (hq.marked j k hjk hm).kill
  · show Function.update c.server.Dstate _ _ _ = none
    rw [Function.update_of_ne fun e => ?_]
    · exact hq.later s h1 h2 j k hjk
    · have := (spot_inj_of_injective hE hh h2 hsrc hjk ht e).1
      omega

theorem Placed.search (hq : Placed E c w src g) (hs : Settled c w src g) (hpos : 0 < c.height)
    {l : List CInt} (hr : search E c w = some (l, c')) : Placed E c' w (src + 1) g := by
  obtain ⟨hn, hs', hheight, hD⟩ := hs.search hpos hr
  have hh := hs.small hn
  have hnot : ∀ s, s < 2 ^ 31 → s ≠ src + 1 → ∀ m k, InTree c.height m k →
      ∀ d ∈ met E c w src g.n, spot E c.height DKey w s m k ≠
        spot E c.height DKey w (src + 1) d.1 d.2 := fun s hs2 hne m k ht d hd e =>
    hne (spot_inj_of_injective hE hh hs2 hs'.src_lt ht (met_inTree hd) e).1
  refine ⟨fun m k ht hm => ?_, fun s h1 h2 m k ht => ?_⟩
  · rw [hheight] at ht hm
    by_cases hmem : (m, k) ∈ met E c w src g.n
    · -- a mark that was met moves along
      have hM := marked_of_mem (j := m) (i := k) hmem
      simp only [markedIn, Bool.and_eq_true, decide_eq_true_eq] at hM
      exact hq.marked m k ht hM.2
    · exfalso
      have hfree : ∀ d ∈ met E c w src g.n, spot E c.height DKey w (src + 1) m k ≠
          spot E c.height DKey w (src + 1) d.1 d.2 := fun d hd e => by
        obtain ⟨-, e1, e2⟩ :=
          spot_inj_of_injective hE hh hs'.src_lt hs'.src_lt ht (met_inTree hd) e
        exact hmem (by rw [e1, e2]; exact hd)
      rw [hD _ hfree, without] at hm
      split at hm
      · cases hm
      · rw [hq.later (src + 1) (Nat.lt_succ_self _) hs'.src_lt m k ht] at hm
        cases hm
  · rw [hheight] at ht ⊢
    rw [hD _ (hnot s h2 (by omega) m k ht), without]
    split
    · rfl
    · exact hq.later s (by omega) h2 m k ht

end

/-! ## Runs -/

section

variable {E : Env} {c : Client} {N : CInt} {w : Str} {calls : List Call}

theorem positions_snoc (calls : List Call) (a : Call) :
    positions (calls ++ [a]) = (positions calls).after a := by
  simp [positions, List.foldl_append]

/-- Every reachable state is settled, and its marks are placed if the PRF is injective. -/
theorem reached (hw : ∀ a ∈ calls, a.keyword = w)
    (hroom : inserts calls w ≤ 2 ^ (heightOf N - 1)) (hlive : Each RemovesLive calls)
    (hrun : run (step E) (Client.init N) calls = some c) :
    c.height = heightOf N ∧ Settled c w (searches calls w) (positions calls) ∧
      (PrfInjective E w → Placed E c w (searches calls w) (positions calls)) := by
  have hn : ∀ pre, pre <+: calls → (positions pre).n = inserts pre w := by
    intro pre
    induction pre using List.reverseRecOn with
    | nil => exact fun _ => rfl
    | append_singleton pre a ih =>
      intro hpre
      have hih := ih ((List.prefix_append pre [a]).trans hpre)
      have ha := hw a (hpre.subset (by simp))
      rw [positions_snoc, inserts_snoc, ← hih]
      cases a with
      | insert v id =>
        obtain rfl : v = w := ha
        simp [Slots.after, Slots.push, Call.isInsert]
      | remove v id =>
        simp only [Slots.after, Call.isInsert, Bool.toNat_false, Nat.add_zero]
        split <;> rfl
      | search v => simp [Slots.after, Call.isInsert]
  refine run_keeps (fun pre c => c.height = heightOf N ∧
      Settled c w (searches pre w) (positions pre) ∧
      (PrfInjective E w → Placed E c w (searches pre w) (positions pre)))
    ⟨rfl, ?_, ?_⟩ hrun fun pre a c c' hpre hI ha => ?_
  · refine ⟨⟨Nat.zero_le _, rfl, fun _ _ _ => .inl rfl⟩, rfl, fun h => absurd h (Nat.lt_irrefl 0),
      Nat.two_pow_pos 31, fun _ => rfl, fun m k _ hd => ?_, fun id p hp => ?_⟩
    · have h1 := hd.1
      have h2 := Nat.mul_pos (Nat.succ_pos k) (Nat.two_pow_pos m)
      exact absurd (lt_of_lt_of_le h2 h1) (Nat.lt_irrefl 0)
    · exact absurd (Slots.leafOf_lt hp) (Nat.not_lt_zero p)
  · exact fun _ => ⟨fun m k _ hm => absurd hm Bool.false_ne_true, fun _ _ _ _ _ _ => rfl⟩
  obtain ⟨hheight, hs, hq⟩ := hI
  have hpos : 0 < c.height := hheight ▸ heightOf_pos N
  have haw := hw a (hpre.subset (by simp))
  have hcount := hn pre ((List.prefix_append pre [a]).trans hpre)
  rw [positions_snoc, searches_snoc]
  cases a with
  | insert v id =>
    obtain rfl : v = w := haw
    have hfit : inserts pre v + 1 ≤ 2 ^ (c.height - 1) := by
      have h1 := (hpre.sublist.countP_le (p := Call.isInsert v)).trans hroom
      rw [show (pre ++ [Call.insert v id]).countP (Call.isInsert v) =
        inserts (pre ++ [Call.insert v id]) v from rfl, inserts_snoc] at h1
      rw [hheight]
      simpa [Call.isInsert] using h1
    obtain ⟨hs', hh', hD⟩ := hs.insert (by omega) ha
    refine ⟨hh'.trans hheight, hs', fun hE => ⟨fun m k ht hm => ?_, fun s h1 h2 m k ht => ?_⟩⟩
    · rw [hh', hD] at hm
      exact ((hq hE).marked m k (hh' ▸ ht) hm).push
    · rw [hh', hD]
      exact (hq hE).later s h1 h2 m k (hh' ▸ ht)
  | remove v id =>
    obtain rfl : v = w := haw
    obtain ⟨p, hp⟩ := hlive.of_prefix hpre
    obtain ⟨m, hm, hd, htop, -, hr⟩ := hs.remove_eq (E := E) hpos hp
    obtain rfl := Option.some.inj (hr.symm.trans ha)
    have hlt := Slots.leafOf_lt hp.1
    have ht := inTree_above (lt_of_lt_of_le hlt hs.colours.fit) hm
    have hafter : (positions pre).after (.remove v id) = (positions pre).kill p := by
      simp only [Slots.after, hp.1]
    rw [hafter]
    exact ⟨hheight, hs.remove hp hm hd htop rfl,
      fun hE => (hq hE).remove hE (hs.small (by omega)) hs.src_lt ht hd⟩
  | search v =>
    obtain rfl : v = w := haw
    obtain ⟨⟨l, c''⟩, hr, rfl⟩ := Option.map_eq_some_iff.mp ha
    obtain ⟨-, hs', hh', -⟩ := hs.search hpos hr
    have hone : (Call.isSearch v (.search v)).toNat = 1 := by simp [Call.isSearch]
    rw [hone]
    exact ⟨hh'.trans hheight, hs', fun hE => (hq hE).search hE hs hpos hr⟩

end

/-- **A removal marks exactly the largest newly empty subtree**: one colour, one address for
the same node under the current `src_cnt`. The address is a new one if the PRF is injective. -/
theorem remove_marks_largest (E : Env) (N : CInt) (w : Str) (calls : List Call) (c : Client)
    (id : CInt) (p : Nat) (hw : ∀ a ∈ calls, a.keyword = w)
    (hroom : inserts calls w ≤ 2 ^ (heightOf N - 1)) (hlive : Each RemovesLive calls)
    (hrun : run (step E) (Client.init N) calls = some c) (hp : (positions calls).LiveAt id p) :
    ∃ m c', remove E c w id = some c' ∧ m < c.height ∧
      ((positions calls).kill p).Dead m (p / 2 ^ m) ∧
      (∀ j, m < j → j < c.height → ¬ ((positions calls).kill p).Dead j (p / 2 ^ j)) ∧
      c.LOstate (mapKey w (index c.height m (p / 2 ^ m))) = none ∧
      c'.LOstate = Function.update c.LOstate (mapKey w (index c.height m (p / 2 ^ m)))
        (some (intStr 2)) ∧
      c'.server.Dstate = Function.update c.server.Dstate
        (address E DKey w (searches calls w) (index c.height m (p / 2 ^ m)))
        (some (markValue E)) ∧
      (PrfInjective E w → c.server.Dstate
        (address E DKey w (searches calls w) (index c.height m (p / 2 ^ m))) = none) := by
  obtain ⟨hheight, hs, hq⟩ := reached hw hroom hlive hrun
  obtain ⟨m, hm, hd, htop, hno, hr⟩ := hs.remove_eq (E := E) (hheight ▸ heightOf_pos N) hp
  have ht := inTree_above (lt_of_lt_of_le (Slots.leafOf_lt hp.1) hs.colours.fit) hm
  refine ⟨m, _, hr, hm, hd, htop, ?_, rfl, rfl, fun hE => ?_⟩
  · simpa [coloured] using hno
  · by_contra hsome
    exact Slots.not_dead_above hp.2 m
      ((hq hE).marked m _ ht (Option.isSome_iff_ne_none.mpr hsome))

def pairCalls : List Call :=
  [.insert [97] (cint 5), .insert [97] (cint 6), .remove [97] (cint 5)]

/-- The removal of the other one, at leaf 1. -/
theorem remove_marks_pair : ∃ c, run (step sampleEnv) (Client.init ⟨4, by decide⟩) pairCalls =
      some c ∧ ∃ m c', remove sampleEnv c [97] ⟨6, by decide⟩ = some c' ∧ m < c.height ∧
      ((positions pairCalls).kill 1).Dead m (1 / 2 ^ m) ∧
      (∀ j, m < j → j < c.height → ¬ ((positions pairCalls).kill 1).Dead j (1 / 2 ^ j)) ∧
      c.LOstate (mapKey [97] (index c.height m (1 / 2 ^ m : Nat))) = none ∧
      c'.LOstate = Function.update c.LOstate (mapKey [97] (index c.height m (1 / 2 ^ m : Nat)))
        (some (intStr 2)) ∧
      c'.server.Dstate = Function.update c.server.Dstate
        (address sampleEnv DKey [97] (searches pairCalls [97])
          (index c.height m (1 / 2 ^ m : Nat))) (some (markValue sampleEnv)) ∧
      c.server.Dstate
        (address sampleEnv DKey [97] (searches pairCalls [97])
          (index c.height m (1 / 2 ^ m : Nat))) = none := by
  obtain ⟨c, hrun, -⟩ := run_inv (E := sampleEnv) (N := ⟨4, by decide⟩) (by decide)
    (@sampleEnv_ok _ 2 pairCalls (by decide +kernel) (by decide) (by decide))
  obtain ⟨m, c', hr, hm, hd, htop, hno, hstate, hdstate, hnew⟩ := remove_marks_largest sampleEnv
    ⟨4, by decide⟩ [97] pairCalls c ⟨6, by decide⟩ 1 (by decide) (by decide +kernel)
    (by decide +kernel) hrun (by decide)
  exact ⟨c, hrun, m, c', hr, hm, hd, htop, hno, hstate, hdstate,
    hnew fun _ hs _ ht e => sampleEnv_counter hs ht e⟩

end SmallClientSSE.Qos
