import Mathlib.Data.Set.Function
import SmallClientSSE.Qos.Slots

/-!
# One update of the QOS client

`Entry` reads the positions of a keyword off the client's maps and the server:
colours and marks stand on dead nodes only, every removed position lies below a
mark under the current `src_cnt`, and the ciphers of the live ones are stored.
Updates keep the entry of their keyword (`insert_step`, `remove_step`) and leave
those of the others alone (`Same`).
-/

namespace SmallClientSSE.Qos

open Lib Dyadic

/-- Nonempty keywords that fit in front of the node number. -/
def Keyword (w : Str) : Prop := w ≠ [] ∧ NulFree w ∧ w.length ≤ 11

instance (w : Str) : Decidable (Keyword w) := inferInstanceAs (Decidable (_ ∧ _))

/-- The address of a node under a key, a keyword and its `src_cnt`. -/
def spot (E : Env) (h : Nat) (K : Block) (w : Str) (s m k : Nat) : Block :=
  address E K w s (index h m k)

/-- What is assumed of the environment for the keywords `ks` and up to `S`
searches: the PRF is injective on the part of its value that an address uses, and
no dummy has the address of a mark. -/
structure EnvOk (E : Env) (h : Nat) (ks : List Str) (S : Nat) : Prop where
  prf : Set.InjOn (fun p : Str × Nat => head11 (getAESRandomValue E p.1 p.2))
    {p | p.1 ∈ ks ∧ p.2 ≤ S}
  dummy : ∀ r, ∀ w ∈ ks, ∀ s, s ≤ S → ∀ m k, InTree h m k →
    (E.dummy r).1 ≠ spot E h DKey w s m k

section

variable {E : Env} {h : Nat} {ks : List Str} {S : Nat} {K : Block} {w v : Str}

theorem head11_xor {a b : Block} (e : head11 (bitwiseXOR K a) = head11 (bitwiseXOR K b)) :
    head11 a = head11 b := by
  funext i
  have := congrFun e i
  simp only [head11, bitwiseXOR] at this ⊢
  rw [← xor_cancel (K ⟨i.val, by omega⟩) (a ⟨i.val, by omega⟩), this, xor_cancel]

/-- Addresses under a PRF that is injective on some inputs. -/
theorem spot_inj_of_prf {D : Set (Str × Nat)}
    (hprf : Set.InjOn (fun p : Str × Nat => head11 (getAESRandomValue E p.1 p.2)) D) (hh : h ≤ 31)
    {s t m k j i : Nat} (hs : (w, s) ∈ D) (ht : (v, t) ∈ D) (h1 : InTree h m k)
    (h2 : InTree h j i) (e : spot E h K w s m k = spot E h K v t j i) :
    w = v ∧ s = t ∧ m = j ∧ k = i := by
  obtain ⟨e1, e2⟩ := atNode_inj (h1.inInt hh) (h2.inInt hh) e
  have e3 : (w, s) = (v, t) := hprf hs ht (head11_xor e1)
  obtain ⟨e4, e5⟩ := index_inj h1 h2 e2
  exact ⟨congrArg Prod.fst e3, congrArg Prod.snd e3, e4, e5⟩

theorem spot_inj (hE : EnvOk E h ks S) (hh : h ≤ 31) (hw : w ∈ ks) (hv : v ∈ ks)
    {s t m k j i : Nat} (hs : s ≤ S) (ht : t ≤ S) (h1 : InTree h m k) (h2 : InTree h j i)
    (e : spot E h K w s m k = spot E h K v t j i) : w = v ∧ s = t ∧ m = j ∧ k = i :=
  spot_inj_of_prf hE.prf hh ⟨hw, hs⟩ ⟨hv, ht⟩ h1 h2 e

theorem mapKey_inj {x y : Int} (hx : 0 ≤ x) (hy : 0 ≤ y) (e : mapKey w x = mapKey v y) :
    w = v ∧ x = y :=
  append_intStr_inj (by decide) hx hy e

theorem decode_cipherOf (w : Str) (id : CInt) :
    (E.aes.decode (cipherOf E w id) (some secretKey)).getInt 11 = id := by
  have h1 := E.aes.head15_decode ((Buf.zero.copyStr w).putInt 11 id.val) (some secretKey)
  refine (Buf.getInt_congr fun i hi => ?_).trans
    (Buf.getInt_putInt 11 id (Buf.zero.copyStr w : Block) (by omega))
  exact head15_ext.mp h1 (11 + i) (by omega)

end

/-! ## Entries -/

/-- The positions `g` of `w` in the client and on its server. -/
structure Entry (E : Env) (S : Nat) (c : Client) (w : Str) (src : Nat) (g : Slots) : Prop where
  fit : g.n ≤ 2 ^ (c.height - 1)
  src_le : src ≤ S
  src_zero : g.n = 0 → src = 0
  cnt : c.LOcnt w = if g.n = 0 then none else some (pairStr src ((g.n : Int) - 1))
  colour : ∀ m k, InTree c.height m k → c.LOstate (mapKey w (index c.height m k)) = none ∨
    (c.LOstate (mapKey w (index c.height m k)) = some (intStr 2) ∧ g.Dead m k)
  marked : ∀ m k, InTree c.height m k →
    (c.server.Dstate (spot E c.height DKey w src m k)).isSome → g.Dead m k
  covered : ∀ p, p < g.n → g.live p = false → ∃ m, m < c.height ∧
    (c.server.Dstate (spot E c.height DKey w src m (p / 2 ^ m))).isSome
  later : ∀ s, src < s → s ≤ S → ∀ m k, InTree c.height m k →
    c.server.Dstate (spot E c.height DKey w s m k) = none
  stored : ∀ p, p < g.n → g.live p = true →
    c.server.I (spot E c.height IKey w src 0 p) = some (cipherOf E w (g.idAt p))
  last : ∀ p, p < g.n → g.live p = true → c.LOdel (mapKey w (g.idAt p).val) = some (intStr p)

/-- What a removal reads: the counters of `w`, and colours on dead nodes. -/
structure Colours (c : Client) (w : Str) (src : Nat) (g : Slots) : Prop where
  fit : g.n ≤ 2 ^ (c.height - 1)
  cnt : c.LOcnt w = if g.n = 0 then none else some (pairStr src ((g.n : Int) - 1))
  colour : ∀ m k, InTree c.height m k → c.LOstate (mapKey w (index c.height m k)) = none ∨
    (c.LOstate (mapKey w (index c.height m k)) = some (intStr 2) ∧ g.Dead m k)

theorem Entry.colours {E : Env} {S : Nat} {c : Client} {w : Str} {src : Nat} {g : Slots}
    (he : Entry E S c w src g) : Colours c w src g :=
  ⟨he.fit, he.cnt, he.colour⟩

def coloured (c : Client) (w : Str) (m k : Nat) : Bool :=
  (c.LOstate (mapKey w (index c.height m k))).isSome

structure Same (E : Env) (S : Nat) (c c' : Client) (w : Str) : Prop where
  height : c'.height = c.height
  cnt : c'.LOcnt w = c.LOcnt w
  state : ∀ m k, InTree c.height m k →
    c'.LOstate (mapKey w (index c.height m k)) = c.LOstate (mapKey w (index c.height m k))
  del : ∀ id : CInt, 0 ≤ id.val → c'.LOdel (mapKey w id.val) = c.LOdel (mapKey w id.val)
  marks : ∀ s, s ≤ S → ∀ m k, InTree c.height m k →
    c'.server.Dstate (spot E c.height DKey w s m k) = c.server.Dstate (spot E c.height DKey w s m k)
  items : ∀ s, s ≤ S → ∀ p, InTree c.height 0 p →
    c'.server.I (spot E c.height IKey w s 0 p) = c.server.I (spot E c.height IKey w s 0 p)

section

variable {E : Env} {S : Nat} {c c' : Client} {w v : Str} {src : Nat} {g : Slots} {ks : List Str}

theorem Entry.inTree (he : Entry E S c w src g) (hpos : 0 < c.height) {p : Nat} (hp : p < g.n) :
    InTree c.height 0 p :=
  ⟨hpos, by rw [Nat.sub_zero]; exact lt_of_lt_of_le hp he.fit⟩

theorem Entry.frame (he : Entry E S c w src g) (hs : Same E S c c' w) (hpos : 0 < c.height)
    (hid : ∀ p, p < g.n → 0 ≤ (g.idAt p).val) : Entry E S c' w src g := by
  obtain ⟨h1, h2, h3, h4, h5, h6, h7, h8, h9, h10⟩ := he
  refine ⟨by rw [hs.height]; exact h1, h2, h3, by rw [hs.cnt]; exact h4, ?_, ?_, ?_, ?_, ?_, ?_⟩
  all_goals try rw [hs.height]
  · intro m k ht
    rw [hs.state m k ht]
    exact h5 m k ht
  · intro m k ht
    rw [hs.marks src h2 m k ht]
    exact h6 m k ht
  · intro p hp hl
    obtain ⟨m, hm, hmk⟩ := h7 p hp hl
    exact ⟨m, hm, by rw [hs.marks src h2 _ _ (inTree_above (lt_of_lt_of_le hp h1) hm)]; exact hmk⟩
  · intro s h1 h2 m k ht
    rw [hs.marks s h2 m k ht]
    exact h8 s h1 h2 m k ht
  · intro p hp hl
    rw [hs.items src h2 p ⟨hpos, by rw [Nat.sub_zero]; exact lt_of_lt_of_le hp h1⟩]
    exact h9 p hp hl
  · intro p hp hl
    rw [hs.del _ (hid p hp)]
    exact h10 p hp hl

/-! ## Insertion -/

theorem Colours.nextCounters (hc : Colours c w src g) (hzero : g.n = 0 → src = 0)
    (hsrc : src < 2 ^ 31) (hn : g.n < 2 ^ 31) :
    nextCounters ((c.LOcnt w).getD []) = some ((src : Int), (g.n : Int)) := by
  by_cases h0 : g.n = 0
  · rw [hc.cnt, if_pos h0, hzero h0, h0]
    rfl
  · have hin : InInt ((g.n : Int) - 1 + 1) := ⟨by omega, by omega⟩
    rw [hc.cnt, if_neg h0, Option.getD_some, nextCounters_of_parsePair
      (parsePair_pairStr (by omega) (by omega) (by omega) (by omega)), int, if_pos hin]
    simp

variable (hE : EnvOk E c.height ks S) (hh : c.height ≤ 31) (hpos : 0 < c.height) (hw : w ∈ ks)
  (hS : S < 2 ^ 31)

include hE hh hpos hw hS

/-- **An insertion** adds a position. -/
theorem insert_step (he : Entry E S c w src g) {id : CInt} (hid : 0 ≤ id.val)
    (hids : ∀ p, p < g.n → 0 ≤ (g.idAt p).val) (hnew : id ∉ g.ids)
    (hn : g.n < 2 ^ (c.height - 1)) :
    ∃ c', insert E c w id = some c' ∧ Entry E S c' w src (g.push id) ∧
      (∀ v ∈ ks, v ≠ w → Same E S c c' v) ∧ c'.height = c.height ∧
      c'.server.height = c.server.height ∧
      c'.LOdel = Function.update c.LOdel (mapKey w id.val) (some (intStr g.n)) := by
  have hn31 : g.n < 2 ^ 31 := lt_of_lt_of_le hn (Nat.pow_le_pow_right (by decide) (by omega))
  have hnode := getNodeOnPath_eq hh hn hpos
  have hleaf : InTree c.height 0 g.n := ⟨hpos, by rwa [Nat.sub_zero]⟩
  rw [pow_zero, Nat.div_one, Nat.cast_zero, sub_zero] at hnode
  have hspot : ∀ v ∈ ks, ∀ s, s ≤ S → ∀ p, InTree c.height 0 p → (v ≠ w ∨ s ≠ src ∨ p ≠ g.n) →
      spot E c.height IKey v s 0 p ≠ spot E c.height IKey w src 0 g.n := by
    intro v hv s hs p hp hne e
    obtain ⟨e1, e2, -, e4⟩ := spot_inj hE hh hv hw hs he.src_le hp hleaf e
    rcases hne with h | h | h
    exacts [h e1, h e2, h e4]
  have hlive : ∀ p, p ≠ g.n → (g.push id).live p = g.live p := fun p hp => by simp [Slots.push, hp]
  have hat : ∀ p, p ≠ g.n → (g.push id).idAt p = g.idAt p := fun p hp => by simp [Slots.push, hp]
  have hidn : (g.push id).idAt g.n = id := by simp [Slots.push]
  refine ⟨{ c with
    LOcnt := Function.update c.LOcnt w (some (pairStr src g.n))
    LOdel := Function.update c.LOdel (mapKey w id.val) (some (intStr g.n))
    server := c.server.insert (spot E c.height IKey w src 0 g.n) (cipherOf E w id) }, ?_, ?_, ?_, rfl,
    rfl, rfl⟩
  · unfold insert
    rw [he.colours.nextCounters he.src_zero (lt_of_le_of_lt he.src_le hS) hn31]
    simp only [Option.bind_eq_bind, Option.bind_some]
    rw [hnode]
    rfl
  · refine ⟨hn, he.src_le, fun h => absurd h (Nat.succ_ne_zero _), ?_, ?_, ?_, ?_, he.later, ?_, ?_⟩
    · show Function.update c.LOcnt w (some (pairStr src g.n)) w = _
      rw [Function.update_self, show (g.push id).n = g.n + 1 from rfl, if_neg (Nat.succ_ne_zero _),
        show ((g.n + 1 : Nat) : Int) - 1 = g.n by omega]
    · exact fun m k ht => (he.colour m k ht).imp_right fun h => ⟨h.1, h.2.push⟩
    · exact fun m k ht hm => (he.marked m k ht hm).push
    · intro p hp hl
      have hne : p ≠ g.n := fun e => by simp [e, Slots.push] at hl
      have hlt : p < g.n := lt_of_le_of_ne (Nat.lt_succ_iff.mp hp) hne
      exact he.covered p hlt (by rwa [hlive p hne] at hl)
    · intro p hp hl
      show Function.update c.server.I _ _ _ = _
      by_cases hne : p = g.n
      · rw [hne, Function.update_self, hidn]
      · have hlt : p < g.n := lt_of_le_of_ne (Nat.lt_succ_iff.mp hp) hne
        rw [Function.update_of_ne (hspot w hw src he.src_le p (he.inTree hpos hlt)
          (.inr (.inr hne))), hat p hne]
        exact he.stored p hlt (by rwa [hlive p hne] at hl)
    · intro p hp hl
      show Function.update c.LOdel _ _ _ = _
      by_cases hne : p = g.n
      · rw [hne, hidn, Function.update_self]
      · have hlt : p < g.n := lt_of_le_of_ne (Nat.lt_succ_iff.mp hp) hne
        rw [hlive p hne] at hl
        have hidne : g.idAt p ≠ id := fun e => hnew (Slots.mem_ids.mpr ⟨p, hlt, hl, e⟩)
        rw [hat p hne, Function.update_of_ne fun e => hidne (Subtype.ext
          (mapKey_inj (hids p hlt) hid e).2)]
        exact he.last p hlt hl
  · intro v hv hvw
    refine ⟨rfl, Function.update_of_ne hvw _ _, fun _ _ _ => rfl, fun z hz => ?_, fun _ _ _ _ _ => rfl,
      fun s hs p hp => Function.update_of_ne (hspot v hv s hs p hp (.inl hvw)) _ _⟩
    exact Function.update_of_ne (fun e => hvw (mapKey_inj hz hid e).1) _ _

/-! ## Removal -/

omit hE hh hpos hw hS in
theorem colors_eq (hc : Colours c w src g) (node : Nat → Nat × Nat) : ∀ l : List Nat,
    (∀ m ∈ l, InTree c.height (node m).1 (node m).2) →
    (l.map fun m => index c.height (node m).1 (node m).2).mapM (colorOf c w) =
      some (l.map fun m => color (coloured c w (node m).1 (node m).2)) := by
  intro l
  induction l with
  | nil => exact fun _ => rfl
  | cons m l ih =>
    intro ht
    have hcol : colorOf c w (index c.height (node m).1 (node m).2) =
        some (color (coloured c w (node m).1 (node m).2)) := by
      have h2 := stoi_intStr_self ⟨2, by decide⟩
      have h0 := stoi_intStr_self ⟨0, by decide⟩
      rcases hc.colour _ _ (ht m List.mem_cons_self) with h | ⟨h, -⟩
      · have hz : stoi [48] = some ⟨0, by decide⟩ := h0
        simp [colorOf, coloured, h, hz, color]
      · simp only at h2
        simp [colorOf, coloured, h, intStr_ne_nil, h2, color]
    rw [List.map_cons, List.mapM_cons, hcol, ih fun x hx => ht x (List.mem_cons_of_mem _ hx)]
    rfl

omit hE hh hpos hw hS in
theorem Colours.dead (hc : Colours c w src g) {m k : Nat} (ht : InTree c.height m k)
    (hcol : coloured c w m k = true) : g.Dead m k := by
  refine ((hc.colour m k ht).resolve_left fun e => ?_).2
  rw [coloured, e] at hcol
  cases hcol

omit hE hw hS in
/-- **The node a removal picks**: the highest one on the path that has no colour yet and
only coloured siblings below. -/
theorem remove_choice (hc : Colours c w src g) (hsrc : src < 2 ^ 31) {id : CInt} {p : Nat}
    (hp : p < g.n) (hdel : c.LOdel (mapKey w id.val) = some (intStr p)) :
    (∃ m, m < c.height ∧ full (fun j => coloured c w j (sib (p / 2 ^ j))) m = true ∧
        coloured c w m (p / 2 ^ m) = false ∧
        (∀ j, m < j → j < c.height → full (fun j => coloured c w j (sib (p / 2 ^ j))) j = true →
          coloured c w j (p / 2 ^ j) = true) ∧
        remove E c w id = some { c with
          LOstate := Function.update c.LOstate (mapKey w (index c.height m (p / 2 ^ m)))
            (some (intStr 2))
          server := c.server.insertInDstate (spot E c.height DKey w src m (p / 2 ^ m))
            (markValue E) }) ∨
      ((∀ m, m < c.height → full (fun j => coloured c w j (sib (p / 2 ^ j))) m = true →
          coloured c w m (p / 2 ^ m) = true) ∧
        remove E c w id = some { c with
          server := c.server.insertInDstate (E.dummy c.rands).1 (E.dummy c.rands).2
          rands := c.rands + 1 }) := by
  have hph : p < 2 ^ (c.height - 1) := lt_of_lt_of_le hp hc.fit
  have hp31 : p < 2 ^ 31 := lt_of_lt_of_le hph (Nat.pow_le_pow_right (by decide) (by omega))
  have hcnt : (splitData ((c.LOcnt w).getD []) dash)[0]? >>= stoi =
      some (⟨src, by constructor <;> omega⟩ : CInt) := by
    have hn : g.n ≠ 0 := by omega
    rw [hc.cnt, if_neg hn, Option.getD_some, splitData_pairStr (by omega) (by omega)]
    exact stoi_intStr_self ⟨src, by constructor <;> omega⟩
  have hpos' : stoi ((c.LOdel (mapKey w id.val)).getD []) =
      some (⟨p, by constructor <;> omega⟩ : CInt) := by
    rw [hdel]
    exact stoi_intStr_self ⟨p, by constructor <;> omega⟩
  have habove := fun m hm => inTree_above (m := m) hph hm
  have hnodes := colors_eq hc (fun m => (m, p / 2 ^ m)) (List.range c.height)
    fun m hm => habove m (List.mem_range.mp hm)
  have hsibs := colors_eq hc (fun m => (m, sib (p / 2 ^ m))) (List.range (c.height - 1))
    fun m hm => by
      have := List.mem_range.mp hm
      exact (habove m (by omega)).sib (by omega)
  have hfinal := finalColors_eq (fun m => coloured c w m (sib (p / 2 ^ m))) (c.height - 1)
  rw [show c.height - 1 + 1 = c.height by omega] at hfinal
  have hcut : remove E c w id = (changed (((List.range c.height).map fun m =>
        index c.height m (p / 2 ^ m)).zip (((List.range c.height).map fun m =>
          color (coloured c w m (p / 2 ^ m))).zip ((List.range c.height).map fun m =>
            color (full (fun m => coloured c w m (sib (p / 2 ^ m))) m))))).elim
      (some { c with
        server := c.server.insertInDstate (E.dummy c.rands).1 (E.dummy c.rands).2
        rands := c.rands + 1 })
      fun node => some { c with
        LOstate := Function.update c.LOstate (mapKey w node) (some (intStr 2))
        server := c.server.insertInDstate (address E DKey w src node) (markValue E) } := by
    unfold remove
    simp only [hcnt, hpos', Option.bind_eq_bind, Option.bind_some, treeNodes_eq hh hph]
    rw [hnodes]
    simp only [Option.bind_some, siblings_eq hpos hph]
    rw [hsibs]
    simp only [Option.bind_some, hfinal]
    split <;> next h => rw [h]; rfl
  rcases changed_spec (fun m => index c.height m (p / 2 ^ m))
      (fun m => coloured c w m (sib (p / 2 ^ m))) (fun m => coloured c w m (p / 2 ^ m)) c.height with
    ⟨m, hm, hch, hf, hno, htop⟩ | ⟨hch, hall⟩
  · exact .inl ⟨m, hm, hf, hno, htop, by rw [hcut, hch]; rfl⟩
  · exact .inr ⟨hall, by rw [hcut, hch]; rfl⟩

omit hE hh hpos hw hS in
theorem Colours.dead_of_full (hc : Colours c w src g) {p m : Nat} (hp : p < g.n)
    (hm : m < c.height) (hf : full (fun j => coloured c w j (sib (p / 2 ^ j))) m = true) :
    (g.kill p).Dead m (p / 2 ^ m) :=
  Slots.dead_of_siblings hp fun j hj => hc.dead
    ((inTree_above (lt_of_lt_of_le hp hc.fit) (by omega)).sib (by omega)) (full_iff.mp hf j hj)

omit hE hw in
theorem remove_eq (he : Entry E S c w src g) {id : CInt} {p : Nat} (hp : p < g.n)
    (hdel : c.LOdel (mapKey w id.val) = some (intStr p)) :
    (∃ m, m < c.height ∧ (g.kill p).Dead m (p / 2 ^ m) ∧ remove E c w id = some { c with
        LOstate := Function.update c.LOstate (mapKey w (index c.height m (p / 2 ^ m)))
          (some (intStr 2))
        server := c.server.insertInDstate (spot E c.height DKey w src m (p / 2 ^ m))
          (markValue E) }) ∨
      (g.live p = false ∧ remove E c w id = some { c with
        server := c.server.insertInDstate (E.dummy c.rands).1 (E.dummy c.rands).2
        rands := c.rands + 1 }) := by
  have hsrc := he.src_le
  rcases remove_choice (E := E) hh hpos he.colours (by omega) hp hdel with
    ⟨m, hm, hf, -, -, hr⟩ | ⟨hall, hr⟩
  · exact .inl ⟨m, hm, he.colours.dead_of_full hp hm hf, hr⟩
  · -- the leaf itself has the colour already
    have hd := he.colours.dead (inTree_above (lt_of_lt_of_le hp he.fit) hpos) (hall 0 hpos rfl)
    exact .inr ⟨hd.2 p rfl, hr⟩

/-- **A removal** kills the position of its id. -/
theorem remove_step (he : Entry E S c w src g) {id : CInt} {p : Nat} (hp : p < g.n)
    (hdel : c.LOdel (mapKey w id.val) = some (intStr p)) :
    ∃ c', remove E c w id = some c' ∧ Entry E S c' w src (g.kill p) ∧
      (∀ v ∈ ks, v ≠ w → Same E S c c' v) ∧ c'.height = c.height ∧
      c'.server.height = c.server.height ∧ c'.LOdel = c.LOdel := by
  have hlive : ∀ q, (g.kill p).live q = true → g.live q = true := fun q hq => by
    by_cases h : q = p
    · simp [h, Slots.kill] at hq
    · simpa [Slots.kill, h] using hq
  rcases remove_eq hh hpos hS he hp hdel with ⟨m, hm, hd, hr⟩ | ⟨hl, hr⟩
  · have ht := inTree_above (lt_of_lt_of_le hp he.fit) hm
    refine ⟨_, hr, ⟨he.fit, he.src_le, he.src_zero, he.cnt, ?_, ?_, ?_, ?_,
      fun q hq hl => he.stored q hq (hlive q hl), fun q hq hl => he.last q hq (hlive q hl)⟩, ?_, rfl,
      rfl, rfl⟩
    · intro j k hjk
      show Function.update c.LOstate _ _ _ = _ ∨ Function.update c.LOstate _ _ _ = _ ∧ _
      by_cases hk : mapKey w (index c.height j k) = mapKey w (index c.height m (p / 2 ^ m))
      · obtain ⟨rfl, rfl⟩ := index_inj hjk ht (mapKey_inj index_nonneg index_nonneg hk).2
        exact .inr ⟨Function.update_self .., hd⟩
      · rw [Function.update_of_ne hk]
        exact (he.colour j k hjk).imp_right fun h => ⟨h.1, h.2.kill⟩
    · intro j k hjk hm'
      replace hm' : (Function.update c.server.Dstate _ _ _).isSome = true := hm'
      by_cases hk : spot E c.height DKey w src j k = spot E c.height DKey w src m (p / 2 ^ m)
      · obtain ⟨-, -, rfl, rfl⟩ := spot_inj hE hh hw hw he.src_le he.src_le hjk ht hk
        exact hd
      · rw [Function.update_of_ne hk] at hm'
        exact (he.marked j k hjk hm').kill
    · intro q hq hl
      by_cases hqp : q = p
      · refine ⟨m, hm, ?_⟩
        rw [hqp]
        show (Function.update c.server.Dstate _ _ _).isSome = true
        rw [Function.update_self]
        rfl
      · obtain ⟨j, hj, hjm⟩ := he.covered q hq (by simpa [Slots.kill, hqp] using hl)
        refine ⟨j, hj, ?_⟩
        show (Function.update c.server.Dstate _ _ _).isSome = true
        rw [Function.update_apply]
        split
        · rfl
        · exact hjm
    · intro s h1 h2 j k hjk
      show Function.update c.server.Dstate _ _ _ = none
      rw [Function.update_of_ne fun e => ?_]
      · exact he.later s h1 h2 j k hjk
      · have := (spot_inj hE hh hw hw h2 he.src_le hjk ht e).2.1
        omega
    · intro v hv hvw
      refine ⟨rfl, rfl, fun j k hjk => ?_, fun _ _ => rfl, fun s hs j k hjk => ?_,
        fun _ _ _ _ => rfl⟩
      · exact Function.update_of_ne (fun e => hvw (mapKey_inj index_nonneg index_nonneg e).1) _ _
      · exact Function.update_of_ne
          (fun e => hvw (spot_inj hE hh hv hw hs he.src_le hjk ht e).1) _ _
  · -- a dummy: the position was removed before
    have hkill : g.kill p = g := by
      have : Function.update g.live p false = g.live := by rw [← hl, Function.update_eq_self]
      simp only [Slots.kill, this]
    have hspot : ∀ v ∈ ks, ∀ s, s ≤ S → ∀ j k, InTree c.height j k →
        Function.update c.server.Dstate (E.dummy c.rands).1 (some (E.dummy c.rands).2)
          (spot E c.height DKey v s j k) = c.server.Dstate (spot E c.height DKey v s j k) :=
      fun v hv s hs j k hjk => Function.update_of_ne (Ne.symm (hE.dummy _ v hv s hs j k hjk)) _ _
    refine ⟨_, hr, ?_, fun v hv hvw => ⟨rfl, rfl, fun _ _ _ => rfl, fun _ _ => rfl,
      fun s hs j k hjk => hspot v hv s hs j k hjk, fun _ _ _ _ => rfl⟩, rfl, rfl, rfl⟩
    rw [hkill]
    refine ⟨he.fit, he.src_le, he.src_zero, he.cnt, he.colour, ?_, ?_, ?_, he.stored, he.last⟩
    · intro j k hjk hm'
      exact he.marked j k hjk ((hspot w hw src he.src_le j k hjk) ▸ hm')
    · intro q hq hql
      obtain ⟨j, hj, hjm⟩ := he.covered q hq hql
      exact ⟨j, hj, (congrArg Option.isSome (hspot w hw src he.src_le j _
        (inTree_above (lt_of_lt_of_le hq he.fit) hj))).trans hjm⟩
    · intro s h1 h2 j k hjk
      exact (hspot w hw s h2 j k hjk).trans (he.later s h1 h2 j k hjk)

end

end SmallClientSSE.Qos
