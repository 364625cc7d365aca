import Mathlib.Data.Set.Function
import SmallClientSSE.Lib.Table

/-!
# Tables that number the values of a key

The values of a key `k` are filed at the addresses `addr k 1`, `addr k 2` and so
on, in the order they come in. While `addr` is injective on the keys and numbers
in use, no value is overwritten, and a `scan` from `1` up to the first missing
address finds the values of the key in order.
-/

namespace Lib

variable {K A V : Type}

/-- Look up `cnt`, `cnt + 1` and so on until nothing is found. -/
def scan (look : Nat → Option V) : Nat → Nat → Option (List V)
  | 0, _ => none
  | fuel + 1, cnt =>
    match look cnt with
    | none => some []
    | some v => (scan look fuel (cnt + 1)).map (v :: ·)

theorem scan_eq (look : Nat → Option V) (start : Nat) {vs : List V}
    (h : ∀ j, j ≤ vs.length → look (start + j) = vs[j]?) :
    ∀ fuel j, j ≤ vs.length → vs.length - j < fuel →
      scan look fuel (start + j) = some (vs.drop j) := by
  intro fuel
  induction fuel with
  | zero => intro j _ h; omega
  | succ fuel ih =>
    intro j hj hfuel
    unfold scan
    rw [h j hj]
    by_cases hlt : j < vs.length
    · rw [List.getElem?_eq_getElem hlt]
      simp only
      rw [Nat.add_assoc, ih (j + 1) (by omega) (by omega), List.drop_eq_getElem_cons hlt]
      rfl
    · rw [List.getElem?_eq_none (by omega), List.drop_of_length_le (by omega)]

/-- Addresses of the keys `ks` with numbers up to `n` are distinct. -/
def AddrInj (addr : K → Nat → A) (ks : List K) (n : Nat) : Prop :=
  Set.InjOn (fun p : K × Nat => addr p.1 p.2) {p | p.1 ∈ ks ∧ p.2 ≤ n}

theorem AddrInj.eq {addr : K → Nat → A} {ks : List K} {n : Nat} (h : AddrInj addr ks n) {k k' : K}
    {i j : Nat} (hk : k ∈ ks) (hk' : k' ∈ ks) (hi : i ≤ n) (hj : j ≤ n) (e : addr k i = addr k' j) :
    k = k' ∧ i = j :=
  Prod.mk.inj (@h (k, i) ⟨hk, hi⟩ (k', j) ⟨hk', hj⟩ e)

variable [DecidableEq K] [DecidableEq A]

def valuesOf (items : List (K × V)) (k : K) : List V :=
  (items.filter fun p => p.1 = k).map Prod.snd

theorem valuesOf_snoc (items : List (K × V)) (k k' : K) (v : V) :
    valuesOf (items ++ [(k, v)]) k' = valuesOf items k' ++ if k = k' then [v] else [] := by
  by_cases h : k = k' <;> simp [valuesOf, h]

theorem length_valuesOf_le (items : List (K × V)) (k : K) :
    (valuesOf items k).length ≤ items.length := by
  rw [valuesOf, List.length_map]
  exact List.length_filter_le _ _

theorem mem_of_valuesOf_pos {items : List (K × V)} {k : K} (h : 0 < (valuesOf items k).length) :
    ∃ v, (k, v) ∈ items := by
  obtain ⟨v, hv⟩ := List.exists_mem_of_length_pos h
  obtain ⟨⟨k', v'⟩, hp, rfl⟩ := List.mem_map.mp hv
  obtain ⟨hmem, hk⟩ := List.mem_filter.mp hp
  obtain rfl : k' = k := by simpa using hk
  exact ⟨v', hmem⟩

/-- `m` files `items` in order. -/
structure Numbered (addr : K → Nat → A) (m : Table A V) (items : List (K × V)) : Prop where
  lookup : ∀ k j v, (valuesOf items k)[j]? = some v → m.lookup (addr k (j + 1)) = some v
  keys : ∀ a ∈ m, ∃ k j, j < (valuesOf items k).length ∧ a = addr k (j + 1)
  values : (m.pairs.map Prod.snd).Perm (items.map Prod.snd)

namespace Numbered

variable {addr : K → Nat → A} {m : Table A V} {items : List (K × V)} {ks : List K} {n : Nat}

theorem empty (addr : K → Nat → A) : Numbered addr (∅ : Table A V) [] where
  lookup k j v h := by simp [valuesOf] at h
  keys a h := absurd h (AList.notMem_empty a)
  values := List.Perm.refl _

theorem length (h : Numbered addr m items) : m.pairs.length = items.length := by
  simpa using h.values.length_eq

theorem eq_empty (h : Numbered addr m items) : items = [] ↔ m = ∅ := by
  constructor
  · rintro rfl
    refine Table.eq_empty fun a ha => ?_
    obtain ⟨k, j, hj, -⟩ := h.keys a ha
    simp [valuesOf] at hj
  · rintro rfl
    simpa using h.length.symm

section

variable (hinj : AddrInj addr ks n) (hks : ∀ p ∈ items, p.1 ∈ ks)

include hinj hks

/-- The addresses of a key hold its values and nothing else. -/
theorem lookup_eq (h : Numbered addr m items) (hn : items.length ≤ n) {k : K} (hk : k ∈ ks) {j : Nat}
    (hj : j < n) : m.lookup (addr k (j + 1)) = (valuesOf items k)[j]? := by
  cases hv : (valuesOf items k)[j]? with
  | some v => exact h.lookup k j v hv
  | none =>
    rw [AList.lookup_eq_none]
    intro hmem
    obtain ⟨k', i, hi, e⟩ := h.keys _ hmem
    obtain ⟨v, hp⟩ := mem_of_valuesOf_pos (Nat.lt_of_le_of_lt (Nat.zero_le i) hi)
    have hle := length_valuesOf_le items k'
    obtain ⟨rfl, hij⟩ := hinj.eq hk (hks _ hp) (by omega) (by omega) e
    obtain rfl : j = i := by omega
    rw [List.getElem?_eq_getElem hi] at hv
    cases hv

/-- **Filing one more value.** -/
theorem snoc (h : Numbered addr m items) (hn : items.length < n) {k : K} (hk : k ∈ ks) (v : V) :
    Numbered addr (m.put (addr k ((valuesOf items k).length + 1)) v) (items ++ [(k, v)]) := by
  have hle := length_valuesOf_le items k
  have hfresh : addr k ((valuesOf items k).length + 1) ∉ m := by
    rw [← AList.lookup_eq_none, h.lookup_eq hinj hks hn.le hk (by omega),
      List.getElem?_eq_none (le_refl _)]
  refine ⟨fun k' j w hw => ?_, fun a ha => ?_, ?_⟩
  · rw [valuesOf_snoc] at hw
    by_cases hkk : k = k' ∧ j = (valuesOf items k).length
    · obtain ⟨rfl, rfl⟩ := hkk
      rw [if_pos rfl, List.getElem?_append_right (le_refl _), Nat.sub_self] at hw
      obtain rfl : v = w := by simpa using hw
      exact AList.lookup_insert _
    · have hold : (valuesOf items k')[j]? = some w := by
        split at hw
        · next e =>
          subst e
          have hj : j ≠ (valuesOf items k).length := fun e => hkk ⟨rfl, e⟩
          have hlt : j < (valuesOf items k ++ [v]).length := (List.getElem?_eq_some_iff.mp hw).1
          rw [List.length_append, List.length_singleton] at hlt
          rwa [List.getElem?_append_left (by omega)] at hw
        · rwa [List.append_nil] at hw
      have hmem : addr k' (j + 1) ∈ m := by
        rw [← AList.lookup_isSome, h.lookup k' j w hold]
        rfl
      have hne : addr k' (j + 1) ≠ addr k ((valuesOf items k).length + 1) := fun e =>
        hfresh (e ▸ hmem)
      rw [AList.lookup_insert_ne hne]
      exact h.lookup k' j w hold
  · rcases (AList.mem_insert m).mp ha with rfl | ha
    · refine ⟨k, (valuesOf items k).length, ?_, rfl⟩
      rw [valuesOf_snoc, if_pos rfl, List.length_append, List.length_singleton]
      omega
    · obtain ⟨k', j, hj, rfl⟩ := h.keys a ha
      refine ⟨k', j, ?_, rfl⟩
      rw [valuesOf_snoc, List.length_append]
      omega
  · rw [Table.pairs_put hfresh, List.map_cons, List.map_append]
    exact (h.values.cons v).trans (List.perm_append_singleton v _).symm

/-- **Searching a key.** -/
theorem scan_values (h : Numbered addr m items) (hn : items.length < n) {k : K} (hk : k ∈ ks)
    {fuel : Nat} (hfuel : items.length < fuel) :
    scan (fun cnt => m.lookup (addr k cnt)) fuel 1 = some (valuesOf items k) := by
  have hle := length_valuesOf_le items k
  have hlook : ∀ j, j ≤ (valuesOf items k).length →
      m.lookup (addr k (1 + j)) = (valuesOf items k)[j]? := by
    intro j hj
    rw [Nat.add_comm, h.lookup_eq hinj hks hn.le hk (by omega)]
  have := scan_eq (fun cnt => m.lookup (addr k cnt)) 1 hlook fuel 0 (Nat.zero_le _) (by omega)
  rwa [List.drop_zero] at this

end

end Numbered

end Lib
