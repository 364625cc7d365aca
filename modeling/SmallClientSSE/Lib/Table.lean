import Mathlib.Data.List.AList

/-!
# Hash tables

A `Table` has one value for each key. Its `pairs` come in the order they happen
to be stored in; code that iterates over a table goes through a `HashOrder`, an
arbitrary reordering for each iteration of a run. `insertAll` keeps the entries
that are already there and `storeAll` overwrites them. A table of lists is
filled with `push`, and `items` lists its elements with their keys.
-/

namespace Lib

/-- Hash tables. -/
abbrev Table (K V : Type) := AList fun _ : K => V

/-- The order of every iteration of a run, by the time and the table's number. -/
structure HashOrder where
  order : Nat → Nat → {α : Type} → List α → List α
  perm : ∀ t p {α : Type} (l : List α), (order t p l).Perm l

/-- The order of insertion. -/
def HashOrder.stored : HashOrder := ⟨fun _ _ _ l => l, fun _ _ _ l => List.Perm.refl l⟩

namespace Table

variable {K V : Type}

def pairs (m : Table K V) : List (K × V) := m.entries.map fun e => (e.1, e.2)

@[simp] theorem pairs_empty : (∅ : Table K V).pairs = [] := rfl

theorem keys_pairs (m : Table K V) : m.pairs.map Prod.fst = m.keys := by
  simp [pairs, AList.keys, List.keys]

theorem nodup_pairs (m : Table K V) : (m.pairs.map Prod.fst).Nodup := by
  rw [keys_pairs]
  exact m.keys_nodup

theorem eq_empty {m : Table K V} (h : ∀ k, k ∉ m) : m = ∅ := by
  apply AList.ext
  rw [AList.empty_entries, List.eq_nil_iff_forall_not_mem]
  intro e he
  exact h e.1 (List.mem_keys_of_mem he)

/-- The elements of every list, with its key. -/
def itemsOf (l : List (K × List V)) : List (K × V) := l.flatMap fun e => e.2.map fun v => (e.1, v)

def items (m : Table K (List V)) : List (K × V) := itemsOf m.pairs

@[simp] theorem items_empty : (∅ : Table K (List V)).items = [] := rfl

@[simp] theorem itemsOf_cons (e : K × List V) (l : List (K × List V)) :
    itemsOf (e :: l) = e.2.map (fun v => (e.1, v)) ++ itemsOf l := rfl

theorem itemsOf_perm {l l' : List (K × List V)} (h : l.Perm l') : (itemsOf l).Perm (itemsOf l') :=
  h.flatMap_right _

variable [DecidableEq K]

theorem mem_pairs {m : Table K V} {k : K} {v : V} : (k, v) ∈ m.pairs ↔ m.lookup k = some v := by
  rw [← Option.mem_def, AList.mem_lookup_iff]
  simp only [pairs, List.mem_map, Prod.mk.injEq]
  constructor
  · rintro ⟨⟨_, _⟩, he, rfl, rfl⟩
    exact he
  · exact fun h => ⟨_, h, rfl, rfl⟩

abbrev put (m : Table K V) (k : K) (v : V) : Table K V := AList.insert k v m

abbrev del (m : Table K V) (k : K) : Table K V := AList.erase k m

theorem put_del (m : Table K V) (k : K) (v : V) : (m.del k).put k v = m.put k v := by
  refine AList.ext ?_
  show (⟨k, v⟩ : Sigma fun _ : K => V) :: (m.entries.kerase k).kerase k = ⟨k, v⟩ :: m.entries.kerase k
  rw [List.kerase_of_notMem_keys (a := k) (List.notMem_keys_kerase k m.nodupKeys)]

theorem pairs_put {m : Table K V} {k : K} (h : k ∉ m) (v : V) :
    (m.put k v).pairs = (k, v) :: m.pairs := by
  simp only [pairs, AList.entries_insert_of_notMem h, List.map_cons]

theorem pairs_del {m : Table K V} {k : K} {v : V} (h : m.lookup k = some v) :
    m.pairs.Perm ((k, v) :: (m.del k).pairs) := by
  obtain ⟨b, l1, l2, hk, hl, hr⟩ := List.exists_of_kerase
    (AList.mem_keys.mp (AList.lookup_isSome.mp (h ▸ rfl : (m.lookup k).isSome)))
  have hb : m.lookup k = some b := by
    rw [← Option.mem_def, AList.mem_lookup_iff, hl]
    simp
  obtain rfl : b = v := by simpa [hb] using h
  have hd : (m.del k).entries = l1 ++ l2 := hr
  simp only [pairs, hl, hd, List.map_append, List.map_cons]
  exact List.perm_middle

/-- `insert` of a range: entries already there stay. -/
def insertAll (m : Table K V) (l : List (K × V)) : Table K V :=
  l.foldl (fun m e => if e.1 ∈ m then m else m.put e.1 e.2) m

def storeAll (m : Table K V) (l : List (K × V)) : Table K V :=
  l.foldl (fun m e => m.put e.1 e.2) m

theorem pairs_storeAll {l : List (K × V)} (hl : (l.map Prod.fst).Nodup) :
    ∀ {m : Table K V}, (∀ e ∈ l, e.1 ∉ m) → (m.storeAll l).pairs.Perm (m.pairs ++ l) := by
  induction l with
  | nil => simp [storeAll]
  | cons e l ih =>
    intro m hm
    obtain ⟨he, hl⟩ := List.nodup_cons.mp hl
    have hfresh : ∀ d ∈ l, d.1 ∉ m.put e.1 e.2 := by
      intro d hd hmem
      rcases (AList.mem_insert m).mp hmem with h | h
      · exact he (h ▸ List.mem_map_of_mem hd)
      · exact hm d (List.mem_cons_of_mem _ hd) h
    refine (ih hl hfresh).trans ?_
    rw [pairs_put (hm e List.mem_cons_self)]
    exact List.perm_middle.symm

theorem insertAll_of_fresh {l : List (K × V)} (hl : (l.map Prod.fst).Nodup) :
    ∀ {m : Table K V}, (∀ e ∈ l, e.1 ∉ m) → m.insertAll l = m.storeAll l := by
  induction l with
  | nil => intro m _; rfl
  | cons e l ih =>
    intro m hm
    obtain ⟨he, hl⟩ := List.nodup_cons.mp hl
    have h : m.insertAll (e :: l) = (m.put e.1 e.2).insertAll l := by
      simp only [insertAll, List.foldl_cons, if_neg (hm e List.mem_cons_self)]
    rw [h, ih hl]
    · rfl
    · intro d hd hmem
      rcases (AList.mem_insert m).mp hmem with h | h
      · exact he (h ▸ List.mem_map_of_mem hd)
      · exact hm d (List.mem_cons_of_mem _ hd) h

/-! ## Tables of lists -/

/-- Append `vs` to the list at `k`, which starts out empty. -/
def push (m : Table K (List V)) (k : K) (vs : List V) : Table K (List V) :=
  m.put k ((m.lookup k).getD [] ++ vs)

def get (m : Table K (List V)) (k : K) : List V := (m.lookup k).getD []

@[simp] theorem mem_push {m : Table K (List V)} {k j : K} {vs : List V} :
    j ∈ m.push k vs ↔ j = k ∨ j ∈ m := AList.mem_insert m

theorem items_push (m : Table K (List V)) (k : K) (vs : List V) :
    (m.push k vs).items.Perm (m.items ++ vs.map fun v => (k, v)) := by
  have hins : ∀ ws, (m.put k ws).pairs = (k, ws) :: (m.del k).pairs := fun ws => rfl
  rw [items, push, hins, itemsOf_cons]
  cases h : m.lookup k with
  | none =>
    have hm : m.del k = m := AList.ext (List.kerase_of_notMem_keys
      (AList.lookup_eq_none.mp h))
    rw [hm]
    exact List.perm_append_comm
  | some ws =>
    refine List.Perm.trans ?_ ((itemsOf_perm (pairs_del h)).symm.append_right _)
    simp only [Option.getD_some, List.map_append, itemsOf_cons, List.append_assoc]
    exact List.Perm.append_left _ List.perm_append_comm

/-- The list at `k` is the list of its elements. -/
theorem get_eq (m : Table K (List V)) (k : K) :
    m.get k = (m.items.filter fun p => p.1 = k).map Prod.snd := by
  have key : ∀ l : List (K × List V), (l.map Prod.fst).Nodup → ∀ vs,
      ((∃ e ∈ l, e = (k, vs)) ∨ (vs = [] ∧ ∀ e ∈ l, e.1 ≠ k)) →
      vs = ((itemsOf l).filter fun p => p.1 = k).map Prod.snd := by
    intro l hl
    induction l with
    | nil => rintro vs (⟨e, he, -⟩ | ⟨rfl, -⟩); exacts [absurd he List.not_mem_nil, rfl]
    | cons d l ih =>
      intro vs h
      obtain ⟨hd, hl⟩ := List.nodup_cons.mp hl
      rw [itemsOf_cons, List.filter_append, List.map_append]
      by_cases hk : d.1 = k
      · have hrest : [] = ((itemsOf l).filter fun p => p.1 = k).map Prod.snd :=
          ih hl [] (.inr ⟨rfl, fun e he e' => hd (by
            rw [hk, ← e']; exact List.mem_map_of_mem he)⟩)
        have hvs : d = (k, vs) := by
          rcases h with ⟨e, he, rfl⟩ | ⟨-, h⟩
          · rcases List.mem_cons.mp he with h | h
            · exact h.symm
            · exact absurd (List.mem_map_of_mem (f := Prod.fst) h) (hk ▸ hd)
          · exact absurd hk (h d List.mem_cons_self)
        rw [← hrest, hvs]
        simp [List.filter_map, Function.comp_def]
      · have hd' : (d.2.map fun v => (d.1, v)).filter (fun p => p.1 = k) = [] := by
          simp [hk]
        rw [hd', List.map_nil, List.nil_append]
        refine ih hl vs (h.imp ?_ ?_)
        · rintro ⟨e, he, rfl⟩
          rcases List.mem_cons.mp he with h | h
          · exact absurd (congrArg Prod.fst h.symm) hk
          · exact ⟨_, h, rfl⟩
        · exact fun ⟨h1, h2⟩ => ⟨h1, fun e he => h2 e (List.mem_cons_of_mem _ he)⟩
  apply key _ m.nodup_pairs
  unfold get
  cases h : m.lookup k with
  | none =>
    refine .inr ⟨rfl, fun e he e' => ?_⟩
    obtain ⟨j, ws⟩ := e
    rw [mem_pairs, show j = k from e', h] at he
    cases he
  | some vs => exact .inl ⟨_, mem_pairs.mpr h, rfl⟩

theorem flatMap_get {m : Table K (List V)} {ks : List K} (hks : ks.Nodup) (hm : ∀ k ∈ m, k ∈ ks) :
    (ks.flatMap m.get).Perm (m.items.map Prod.snd) := by
  have hkeys : m.keys.flatMap m.get = m.items.map Prod.snd := by
    rw [← keys_pairs, List.flatMap_map, items, itemsOf, List.map_flatMap]
    refine List.flatMap_congr fun e he => ?_
    rw [get, mem_pairs.mp he, List.map_map]
    simp [Function.comp_def]
  have hfilter : ks.flatMap m.get = (ks.filter fun k => decide (k ∈ m)).flatMap m.get := by
    clear hks hm hkeys
    induction ks with
    | nil => rfl
    | cons k ks ih =>
      rw [List.flatMap_cons, List.filter_cons, ih]
      split
      · rw [List.flatMap_cons]
      · next h =>
        have hk : k ∉ m := by simpa using h
        rw [get, AList.lookup_eq_none.mpr hk, Option.getD_none, List.nil_append]
  have hperm : (ks.filter fun k => decide (k ∈ m)).Perm m.keys :=
    (List.perm_ext_iff_of_nodup (hks.filter _) m.keys_nodup).mpr fun k => by
      rw [List.mem_filter, ← AList.mem_keys, decide_eq_true_eq]
      exact ⟨And.right, fun h => ⟨hm k h, h⟩⟩
  rw [hfilter, ← hkeys]
  exact hperm.flatMap_right _

def pushAll (m : Table K (List V)) (l : List (K × List V)) : Table K (List V) :=
  l.foldl (fun m e => m.push e.1 e.2) m

theorem items_pushAll (l : List (K × List V)) :
    ∀ m : Table K (List V), (m.pushAll l).items.Perm (m.items ++ itemsOf l) := by
  induction l with
  | nil => intro m; simp [pushAll, itemsOf]
  | cons e l ih =>
    intro m
    refine (ih _).trans (((items_push m e.1 e.2).append_right _).trans ?_)
    rw [itemsOf_cons, List.append_assoc]

/-- Entries that are already there lose nothing when the new lists are empty. -/
theorem items_insertAll {l : List (K × List V)} (hl : (l.map Prod.fst).Nodup) :
    ∀ {m : Table K (List V)}, (∀ e ∈ l, e.1 ∈ m → e.2 = []) →
      (m.insertAll l).items.Perm (m.items ++ itemsOf l) := by
  induction l with
  | nil => intro m _; simp [insertAll, itemsOf]
  | cons e l ih =>
    intro m hm
    obtain ⟨he, hl⟩ := List.nodup_cons.mp hl
    by_cases h : e.1 ∈ m
    · have h1 : m.insertAll (e :: l) = m.insertAll l := by
        simp only [insertAll, List.foldl_cons, if_pos h]
      rw [h1, itemsOf_cons, hm e List.mem_cons_self h]
      exact ih hl fun d hd => hm d (List.mem_cons_of_mem _ hd)
    · have h1 : m.insertAll (e :: l) = (m.put e.1 e.2).insertAll l := by
        simp only [insertAll, List.foldl_cons, if_neg h]
      have hfresh : ∀ d ∈ l, d.1 ∈ m.put e.1 e.2 → d.2 = [] := by
        intro d hd hmem
        rcases (AList.mem_insert m).mp hmem with h' | h'
        · exact absurd (h' ▸ List.mem_map_of_mem hd) he
        · exact hm d (List.mem_cons_of_mem _ hd) h'
      rw [h1]
      refine (ih hl hfresh).trans ?_
      rw [items, pairs_put h, itemsOf_cons, itemsOf_cons, ← List.append_assoc]
      exact List.perm_append_comm.append_right _

end Table

end Lib
