import Mathlib.Data.List.TakeWhile
import SmallClientSSE.Horus.OMAP
import SmallClientSSE.Omap.Reached

/-!
# What the OMAP of Horus returns

Keys whose first four bytes are zero count as `0` in every test, so they cannot be inserted
(`insert_find_iff`). The position updates of `finilize` go up to the height `depth + 2`; trees
within it are searched exactly (`setup_find_exact`), and eight pairs in an OMAP for eight are
already too high (`setup_find_lost`).
-/

namespace SmallClientSSE.HorusOMAP

open Lib Omap Omap.ORAM BinaryTree

variable {n : Nat}

/-! ## Free blocks -/

section

variable {E : Env n} {id key : Bid n} {pos : Int} {value : Str} {fuel : Nat} {s : Stocked n}
  {r : Bid n × Int × Stocked n}

theorem writeData_le {bid : Bid n} {node : Node n} {s' : Stocked n}
    (h : writeData bid node s = some s') : s'.emptyNodes ≤ s.emptyNodes := by
  unfold writeData at h
  split at h
  · obtain rfl := Option.some.inj h
    exact Nat.sub_le _ _
  · cases h

theorem accessWrite_le {bid : Bid n} {node : Node n} {s' : Stocked n}
    (h : accessWrite E bid node s = some s') : s'.emptyNodes ≤ s.emptyNodes := by
  unfold accessWrite at h
  split at h <;> simp only [Option.bind_eq_bind, Option.bind_eq_some_iff] at h
  · obtain ⟨o, ho, s1, hs1, h⟩ := h
    obtain rfl := Option.some.inj h
    exact (writeData_le hs1 :)
  · obtain ⟨o, -, s1, hs1, h⟩ := h
    obtain rfl := Option.some.inj h
    exact (writeData_le hs1 :)

theorem writeNode_le {bid : Bid n} {node : Node n} {w : Int × Stocked n}
    (h : writeNode E bid node s = some w) : w.2.emptyNodes ≤ s.emptyNodes := by
  unfold writeNode at h
  split at h
  · cases h
  · split at h
    · obtain ⟨s1, hs1, h⟩ := Option.bind_eq_some_iff.mp h
      obtain rfl := Option.some.inj h
      exact (accessWrite_le hs1 :)
    · obtain rfl := Option.some.inj h
      exact Nat.le_refl _

theorem insertNode_le (h : insertNode E fuel id pos key value s = some r) :
    r.2.2.emptyNodes ≤ s.emptyNodes := by
  induction fuel generalizing id pos s r with
  | zero => cases h
  | succ fuel ih =>
    unfold insertNode at h
    split at h
    · simp only [Option.bind_eq_bind, Option.bind_eq_some_iff] at h
      obtain ⟨⟨o, found⟩, -, -, -, node, -, h⟩ := h
      split_ifs at h
      · simp only [Option.bind_eq_some_iff] at h
        obtain ⟨r1, hr1, o1, -, ⟨res, resPos, o2⟩, -, h⟩ := h
        obtain rfl := Option.some.inj h
        exact (ih hr1 :)
      · simp only [Option.bind_eq_some_iff] at h
        obtain ⟨r1, hr1, o1, -, ⟨res, resPos, o2⟩, -, h⟩ := h
        obtain rfl := Option.some.inj h
        exact (ih hr1 :)
      · simp only [Option.bind_eq_some_iff] at h
        obtain ⟨o1, -, o2, -, h⟩ := h
        obtain rfl := Option.some.inj h
        exact Nat.le_refl _
    · simp only [Option.bind_eq_bind, Option.bind_eq_some_iff] at h
      obtain ⟨w, hw, h⟩ := h
      obtain rfl := Option.some.inj h
      exact (writeNode_le hw :)

theorem OMAP.insert_le {m m' : OMAP n} (h : OMAP.insert E fuel key value m = some m') :
    m'.emptyNodes ≤ m.emptyNodes := by
  simp only [OMAP.insert, Option.bind_eq_bind, Option.bind_eq_some_iff] at h
  obtain ⟨r, hr, ⟨rootPos, o⟩, -, h⟩ := h
  obtain rfl := Option.some.inj h
  exact insertNode_le hr

/-- `find` takes no block, and returns a text of a node. -/
theorem OMAP.find_bounds {m m' : OMAP n} {res : Str} (h : OMAP.find E fuel key m = some (res, m')) :
    m'.emptyNodes ≤ m.emptyNodes ∧ res.length ≤ 16 := by
  unfold OMAP.find at h
  split at h
  · obtain ⟨rfl, rfl⟩ := Prod.mk.inj (Option.some.inj h)
    exact ⟨Nat.le_refl _, Nat.zero_le _⟩
  · obtain ⟨⟨r, o⟩, -, h⟩ := Option.bind_eq_some_iff.mp h
    have hend : ∀ (x : Option Str), (x.bind fun text => (finilize E true m.map.rootKey o).bind
        fun f => some (text, (⟨⟨m.map.rootKey, f.1, f.2⟩, m.emptyNodes⟩ : OMAP n))) = some (res, m') →
        x = some res ∧ m'.emptyNodes ≤ m.emptyNodes := fun x hx => by
      simp only [Option.bind_eq_some_iff] at hx
      obtain ⟨text, rfl, _, -, hx⟩ := hx
      obtain ⟨rfl, rfl⟩ := Prod.mk.inj (Option.some.inj hx)
      exact ⟨rfl, Nat.le_refl _⟩
    cases r with
    | none =>
      obtain ⟨hres, hle⟩ := hend (some []) h
      obtain rfl := Option.some.inj hres
      exact ⟨hle, Nat.zero_le _⟩
    | some k =>
      obtain ⟨hres, hle⟩ := hend _ h
      obtain ⟨nd, -, rfl⟩ := Option.map_eq_some_iff.mp hres
      exact ⟨hle, (List.takeWhile_prefix _).length_le.trans (List.length_ofFn).le⟩

end

/-! ## Reachable states -/

section

variable (E : Env n)

/-- No stored node is higher than the position updates go. -/
def Low (m : OMAP n) : Prop :=
  ∀ nd p, real E nd.key = true → Sits m.map.oram nd p → nd.height ≤ m.map.oram.depth + 2

/-- The states of an OMAP for `maxSize`: loaded or not, after any insertions and searches that
stay within the height that the position updates cover. -/
inductive Reached (maxSize fuel : Nat) : OMAP n → Prop where
  | fresh : Reached maxSize fuel (OMAP.init maxSize)
  | setupInsert {S : PosSort (nodes E)} {l : List (Bid n × Str)} {m : OMAP n} : Ascending l →
      (∀ p ∈ l, p.1.isZero = false ∧ p.2.length ≤ 16) →
      OMAP.setupInsert E S l (OMAP.init maxSize) = some m → Low E m → Reached maxSize fuel m
  | insert {m m' : OMAP n} {key : Bid n} {value : Str} : Reached maxSize fuel m →
      value.length ≤ 16 → OMAP.insert E fuel key value m = some m' → Low E m' →
      Reached maxSize fuel m'
  | find {m m' : OMAP n} {key : Bid n} {res : Str} : Reached maxSize fuel m →
      OMAP.find E fuel key m = some (res, m') → Reached maxSize fuel m'

end

section

variable {E : Env n} {V : Bid n → Option (Node n)} {t : Tree n} {m : OMAP n} {d : Nat}

theorem Low.height_le (hlow : Low E m) (hrest : Rest E V m.map.oram) (hd : m.map.oram.depth = d)
    {k : Bid n} {nd : Node n} (hV : V k = some nd) : nd.height ≤ d + 2 := by
  obtain ⟨p, hsits, rfl⟩ := hrest.sits hV
  exact hd ▸ hlow nd p (hrest.keeps.proper hV).2 hsits

theorem Holds.low (h : Holds E V t d m) (hH : t.height ≤ d + 2) : Low E m := by
  intro nd p hreal hsits
  rw [h.depth]
  exact h.stored.node_height hH hreal hsits

theorem Holds.height_le (h : Holds E V t d m) (hlow : Low E m) : t.height ≤ d + 2 := by
  by_cases ht : t = .nil
  · subst ht
    exact Nat.zero_le _
  · obtain ⟨nd, hV, hnd⟩ := (h.stored.rooted.repr ht).root_height ht
    rw [← h.stored.ok.height_eq, ← hnd]
    exact hlow.height_le h.stored.rest h.depth hV

end

section

variable {tape : Nat → Int} {order : HashOrder} {maxSize fuel : Nat} {m : OMAP n}

theorem holds_init (maxSize : Nat) :
    Holds (plain tape order) (fun _ => none) .nil (depthOf maxSize) (OMAP.init maxSize : OMAP n) :=
  ⟨init_stored _ _ _, rfl, rfl⟩

/-- **A reachable OMAP** with a free block stores a tree within the height. -/
theorem Reached.holds (htape : ∀ i, Leaf (depthOf maxSize) (tape i))
    (hfuel : depthOf maxSize + 2 < fuel) (hm : Reached (plain tape order) maxSize fuel m)
    (hfree : 0 < m.emptyNodes) : ∃ V t, Holds (plain tape order) V t (depthOf maxSize) m ∧
      t.height ≤ depthOf maxSize + 2 := by
  have hlive : ∀ k, (plain tape order : Env n).live k = true := fun _ => rfl
  induction hm with
  | fresh => exact ⟨_, _, holds_init maxSize, Nat.zero_le _⟩
  | @setupInsert S l m hl hfit hm hlow =>
    obtain ⟨map, hmap, rfl⟩ := Option.map_eq_some_iff.mp hm
    obtain ⟨V, t, m', hm', hst, -, -, hset⟩ := OMAP.setupInsert_spec S (depthOf maxSize)
      (depthOf maxSize + 2) hl (fun p hp => by simp [real, plain, (hfit p hp).1]) htape
    obtain rfl := Option.some.inj (hm'.symm.trans hmap)
    have hh : Holds (plain tape order) V t (depthOf maxSize)
        ⟨m', (OMAP.init maxSize : OMAP n).emptyNodes⟩ := ⟨hst, hset.1, hset.2⟩
    exact ⟨V, t, hh, hh.height_le hlow⟩
  | @insert m m' key value _ hv hins hlow ih =>
    have hfree' := hfree.trans_le (OMAP.insert_le hins)
    obtain ⟨V, t, hh, hht⟩ := ih hfree'
    have hkey : key.isZero = false := by
      by_contra hz
      rw [insert_throws key value (Bool.not_eq_false _ ▸ hz) hfree' hh] at hins
      cases hins
    obtain ⟨u, hu, -⟩ := AVL.insert_ok key (Buf.zero.copyStr value) hh.stored.ok
    obtain ⟨V', m2, hm2, hrest, ⟨k, nd, hV, htop⟩, hd, hst⟩ := insert_refines hlive htape key hv
      hkey hfree' (lt_of_le_of_lt hht hfuel) hh hu
    obtain rfl := Option.some.inj (hm2.symm.trans hins)
    have hle := htop ▸ hlow.height_le hrest hd hV
    exact ⟨V', u, hst (.inl hle), hle⟩
  | @find m m' key res _ hfind ih =>
    obtain ⟨V, t, hh, hht⟩ := ih (hfree.trans_le (OMAP.find_bounds hfind).1)
    obtain ⟨V', m2, hm2, hh'⟩ := find_spec hlive htape key (lt_of_le_of_lt hht hfuel) hh (.inl hht)
    obtain rfl := (Prod.mk.inj (Option.some.inj (hm2.symm.trans hfind))).2
    exact ⟨V', t, hh', hht⟩

/-! ## Keys that count as `0` -/

/-- `insert` does not throw, and `find` returns the value. -/
def InsertFinds (E : Env n) (fuel : Nat) (key : Bid n) (value : Str) (m : OMAP n) : Prop :=
  ∃ m' m'', OMAP.insert E fuel key value m = some m' ∧
    OMAP.find E fuel key m' = some (value, m'')

theorem nulFree_of_cstr {v : Buf 16} {w : Str} (h : v.cstr = w) : NulFree w := by
  intro h0
  have := List.mem_takeWhile_imp (h ▸ h0 : (0 : Byte) ∈ v.cstr)
  simp at this

/-- **A key can be inserted and found** exactly when one of its first four bytes is not zero and
the value is a text of at most sixteen bytes. -/
theorem insert_find_iff (maxSize : Nat) (tape : Nat → Int)
    (htape : ∀ i, Leaf (depthOf maxSize) (tape i)) (order : HashOrder) (fuel : Nat)
    (hfuel : depthOf maxSize + 2 < fuel) (m : OMAP n)
    (hm : Reached (plain tape order) maxSize fuel m) (hfree : 0 < m.emptyNodes) (key : Bid n)
    (value : Str) (hlow : ∀ m', OMAP.insert (plain tape order) fuel key value m = some m' →
      Low (plain tape order) m') :
    InsertFinds (plain tape order) fuel key value m ↔
      key.isZero = false ∧ NulFree value ∧ value.length ≤ 16 := by
  have hlive : ∀ k, (plain tape order : Env n).live k = true := fun _ => rfl
  obtain ⟨V, t, hh, hht⟩ := hm.holds htape hfuel hfree
  cases hkey : key.isZero with
  | true =>
    refine ⟨fun ⟨m', _, hm', _⟩ => ?_, fun h => absurd h.1 (by decide)⟩
    rw [insert_throws key value hkey hfree hh] at hm'
    cases hm'
  | false =>
    by_cases hlen : value.length ≤ 16
    · obtain ⟨u, hu, -⟩ := AVL.insert_ok key (Buf.zero.copyStr value) hh.stored.ok
      obtain ⟨V', m1, hm1, hrest, ⟨k, nd, hV, htop⟩, hd, hst⟩ := insert_refines hlive htape key hlen
        hkey hfree (lt_of_le_of_lt hht hfuel) hh hu
      have hle : u.height ≤ depthOf maxSize + 2 := htop ▸ (hlow m1 hm1).height_le hrest hd hV
      have hh1 := hst (.inl hle)
      obtain ⟨V2, m2, hm2, -⟩ := find_spec hlive htape key (lt_of_le_of_lt hle hfuel) hh1 (.inl hle)
      have hval : (contents u).find key = (Buf.zero.copyStr value : Buf 16).cstr := by
        rw [contents_find, AVL.insert_pairs hh.stored.sorted hu, valueOf_assign hh.stored.sorted,
          if_pos rfl]
        rfl
      rw [hval] at hm2
      constructor
      · rintro ⟨m', m'', hm', hm''⟩
        obtain rfl := Option.some.inj (hm1.symm.trans hm')
        exact ⟨rfl, nulFree_of_cstr (Prod.mk.inj (Option.some.inj (hm2.symm.trans hm''))).1, hlen⟩
      · rintro ⟨-, hnul, -⟩
        rw [Buf.cstr_copyStr hnul hlen] at hm2
        exact ⟨m1, m2, hm1, hm2⟩
    · exact iff_of_false (fun ⟨_, _, _, hm''⟩ => hlen (OMAP.find_bounds hm'').2) fun h => hlen h.2.2

/-- An insertion that stays within the height leads to a reachable OMAP. -/
theorem Reached.insert_within {V : Bid n → Option (Node n)} {t u : Tree n} {key : Bid n}
    {value : Str} (htape : ∀ i, Leaf (depthOf maxSize) (tape i))
    (hm : Reached (plain tape order) maxSize fuel m)
    (hh : Holds (plain tape order) V t (depthOf maxSize) m) (hkey : key.isZero = false)
    (hv : value.length ≤ 16) (hfree : 0 < m.emptyNodes) (hfuel : t.height < fuel)
    (hu : AVL.insert key (Buf.zero.copyStr value) t = some u) (hle : u.height ≤ depthOf maxSize + 2) :
    ∃ V' m', OMAP.insert (plain tape order) fuel key value m = some m' ∧
      Reached (plain tape order) maxSize fuel m' ∧
      Holds (plain tape order) V' u (depthOf maxSize) m' := by
  obtain ⟨V', m', hm', -, -, -, hst⟩ := insert_refines (fun _ => rfl) htape key hv hkey hfree hfuel
    hh hu
  have hh' := hst (.inl hle)
  exact ⟨V', m', hm', hm.insert hv hm' (hh'.low hle), hh'⟩

def leftmost : Env 24 := plain (fun _ => 0) HashOrder.stored

theorem insert_find_second : ∃ m,
    OMAP.insert leftmost 3 (Bid.ofValue 1) [120] (OMAP.init 4) = some m ∧
      InsertFinds leftmost 3 (Bid.ofValue 2) [121] m := by
  have htape : ∀ _ : Nat, Leaf (depthOf 4) 0 := fun _ => by decide
  obtain ⟨u1, hu1, -⟩ := AVL.insert_ok (Bid.ofValue 1 : Bid 24) (Buf.zero.copyStr [120])
    (t := .nil) trivial
  have hfresh : Reached leftmost 4 3 (OMAP.init 4) := .fresh
  obtain ⟨V1, m1, hm1, hreached, hh1⟩ := hfresh.insert_within htape (holds_init 4)
    (by decide : (Bid.ofValue 1 : Bid 24).isZero = false) (by decide) (by decide) (by decide) hu1
    (by obtain rfl := Option.some.inj hu1; decide)
  replace hm1 : OMAP.insert leftmost 3 (Bid.ofValue 1) [120] (OMAP.init 4) = some m1 := hm1
  have hfree : (OMAP.insert leftmost 3 (Bid.ofValue 1) [120] (OMAP.init 4)).map
      OMAP.emptyNodes = some 3 := by decide +kernel
  rw [hm1, Option.map_some, Option.some.injEq] at hfree
  obtain ⟨u2, hu2, -⟩ := AVL.insert_ok (Bid.ofValue 2 : Bid 24) (Buf.zero.copyStr [121])
    hh1.stored.ok
  refine ⟨m1, hm1, (insert_find_iff 4 (fun _ => 0) htape HashOrder.stored 3 (by decide) m1 hreached
    (by omega) (Bid.ofValue 2) [121] fun m' hm' => ?_).mpr (by decide)⟩
  have hle : u2.height ≤ depthOf 4 + 2 := by
    obtain rfl := Option.some.inj hu1
    obtain rfl := Option.some.inj hu2
    decide
  obtain ⟨V2, m2, hm2, -, hh2⟩ := hreached.insert_within htape hh1 (by decide) (by decide)
    (by omega) (by obtain rfl := Option.some.inj hu1; decide) hu2 hle
  obtain rfl := Option.some.inj (hm2.symm.trans hm')
  exact hh2.low hle

/-- A key whose fifth byte is one. -/
def fifthByte : Bid 24 := ⟨Buf.put 4 1 Buf.zero⟩

/-- It is not the key `0`, but it counts as `0`, and its insertion throws. -/
theorem insert_fifthByte_throws : fifthByte ≠ Bid.null ∧ fifthByte.isZero = true ∧
    Reached leftmost 4 3 (OMAP.init 4) ∧ 0 < (OMAP.init 4 : OMAP 24).emptyNodes ∧
    ¬ InsertFinds leftmost 3 fifthByte [120] (OMAP.init 4) := by
  refine ⟨by decide, by decide, .fresh, by decide, fun ⟨m', _, hm', _⟩ => ?_⟩
  rw [show OMAP.insert leftmost 3 fifthByte [120] (OMAP.init 4) = none by decide +kernel] at hm'
  cases hm'

end

/-! ## Loaded maps -/

/-- A search of a sequence, with the answers so far. -/
def findNext (E : Env n) (fuel : Nat) (s : List Str × OMAP n) (key : Bid n) :
    Option (List Str × OMAP n) :=
  (OMAP.find E fuel key s.2).map fun r => (s.1 ++ [r.1], r.2)

/-- Some pairs are loaded, and every sequence of searches returns what was loaded. -/
def FindsLoaded (E : Env n) (S : PosSort (nodes E)) (maxSize fuel : Nat) (l : List (Bid n × Str)) :
    Prop :=
  ∃ m, OMAP.setupInsert E S l (OMAP.init maxSize) = some m ∧
    ∀ keys, ∃ m', run (findNext E fuel) ([], m) keys = some (keys.map (loaded l).find, m')

theorem depthOf_eq_zero {maxSize : Nat} (h : maxSize < 8) : depthOf maxSize = 0 := by
  rw [depthOf, Nat.log_eq_zero_iff]
  left
  unfold Z
  omega

/-- **A loaded map is searched exactly** when there is one leaf only, or fewer than
`2 ^ (depth + 2)` pairs, whose tree is within the height. -/
theorem setup_find_exact (maxSize : Nat) (h4 : 4 ≤ maxSize) (tape : Nat → Int)
    (htape : ∀ i, Leaf (depthOf maxSize) (tape i)) (order : HashOrder)
    (S : PosSort (nodes (plain (n := n) tape order))) (fuel : Nat)
    (hfuel : depthOf maxSize + 3 < fuel) (l : List (Bid n × Str)) (hl : Ascending l)
    (hfit : ∀ p ∈ l, Fits p.1 p.2) (hsize : l.length ≤ maxSize)
    (hlow : maxSize < 8 ∨ l.length < 2 ^ (depthOf maxSize + 2)) :
    FindsLoaded (plain tape order) S maxSize fuel l := by
  have hlive : ∀ k, (plain tape order : Env n).live k = true := fun _ => rfl
  obtain ⟨V, t, map, hmap, hst, hpairs, hheight, hset⟩ := OMAP.setupInsert_spec S
    (depthOf maxSize) (depthOf maxSize + 2) hl
    (fun p hp => by simp [real, plain, (hfit p hp).1]) htape
  have hht : t.height = Nat.size l.length := hst.ok.height_eq ▸ hheight
  have hfit' : t.height < fuel := by
    have hle : Nat.size l.length ≤ depthOf maxSize + 3 := by
      obtain ⟨-, hlt⟩ := depthOf_spec h4
      rw [Nat.size_le, pow_add]
      omega
    omega
  have hH : t.height ≤ depthOf maxSize + 2 ∨ depthOf maxSize = 0 := by
    rcases hlow with h8 | hlow
    · exact .inr (depthOf_eq_zero h8)
    · exact .inl (hht ▸ Nat.size_le.mpr hlow)
  refine ⟨⟨map, blockCount (depthOf maxSize)⟩, by simp [OMAP.setupInsert, OMAP.init, hmap],
    fun keys => ?_⟩
  obtain ⟨s, hs, -, -, hanswers⟩ := run_inv (f := findNext (plain tape order) fuel)
    (s := ([], ⟨map, blockCount (depthOf maxSize)⟩)) (l := keys)
    (fun pre s => ∃ V, Holds (plain tape order) V t (depthOf maxSize) s.2 ∧
      s.1 = pre.map (loaded l).find)
    ⟨V, ⟨hst, hset.1, hset.2⟩, rfl⟩
    fun pre key s _ _ hpre => by
      obtain ⟨V, hh, hs⟩ := hpre
      obtain ⟨V', m', hm', hh'⟩ := find_spec hlive htape key hfit' hh hH
      refine ⟨(s.1 ++ [(contents t).find key], m'), by simp [findNext, hm'], V', hh', ?_⟩
      rw [hs, contents_stored hpairs hfit, List.map_append]
      rfl
  exact ⟨s.2, by rw [hs, ← hanswers]⟩

def samplePairs (count : Nat) : List (Bid 24 × Str) :=
  (List.range count).map fun i => (Bid.ofValue (i + 1), [120])

theorem samplePairs_ascending : Ascending (samplePairs 8) := by
  have h : (samplePairs 8).Pairwise fun a b => Bid.ltLoop a.1.bytes b.1.bytes = true := by
    decide +kernel
  exact h.imp fun hab => (Bid.lt_iff_ltLoop _ _).mpr hab

theorem samplePairs_fit : ∀ p ∈ samplePairs 8, Fits p.1 p.2 := by decide +kernel

theorem setup_find_sixteen :
    FindsLoaded leftmost (.insertion (nodes leftmost)) 16 6 (samplePairs 8) :=
  setup_find_exact 16 (by decide) (fun _ => 0) (fun _ => (by decide : Leaf (depthOf 16) 0))
    HashOrder.stored (.insertion _) 6 (by decide) (samplePairs 8) samplePairs_ascending
    samplePairs_fit (by decide) (.inr (by decide))

/-- The leaves `1` go to three nodes on the right when the pairs are loaded, and to everything
later. -/
def scattered : Env 24 :=
  plain (fun i => if i ∈ [11, 12, 13] ∨ 16 ≤ i then 1 else 0) HashOrder.stored

/-- Eight pairs in an OMAP for eight: the first search moves the right child of the root to the
leaf `1`, and the root, which is too high, keeps the old leaf; the second search misses it. No
bucket ever has more candidates than places, so the order of the cache does not matter. -/
theorem setup_find_lost :
    (∀ i, Leaf (depthOf 8) (scattered.tape i)) ∧ Ascending (samplePairs 8) ∧
      (∀ p ∈ samplePairs 8, Fits p.1 p.2) ∧ (samplePairs 8).length ≤ 8 ∧
      ¬ FindsLoaded scattered (.insertion (nodes scattered)) 8 6 (samplePairs 8) := by
  refine ⟨fun i => ?_, samplePairs_ascending, samplePairs_fit, by decide, ?_⟩
  · show Leaf (depthOf 8) (if i ∈ [11, 12, 13] ∨ 16 ≤ i then 1 else 0)
    split <;> decide
  · rintro ⟨m, hm, hall⟩
    have hlost : ((OMAP.setupInsert scattered (.insertion (nodes scattered)) (samplePairs 8)
        (OMAP.init 8)).bind fun m => run (findNext scattered 6) ([], m)
          [Bid.ofValue 6, Bid.ofValue 6]).map Prod.fst = some [[120], []] := by decide +kernel
    obtain ⟨m', hm'⟩ := hall [Bid.ofValue 6, Bid.ofValue 6]
    rw [hm, Option.bind_some, hm', Option.map_some] at hlost
    have hfound : [Bid.ofValue 6, Bid.ofValue 6].map (loaded (samplePairs 8)).find ≠ [[120], []] := by
      decide +kernel
    exact hfound (Option.some.inj hlost)

end SmallClientSSE.HorusOMAP
