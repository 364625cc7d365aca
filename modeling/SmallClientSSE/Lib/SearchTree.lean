import Mathlib.Data.Nat.Fib.Basic
import Mathlib.Data.Tree.Basic
import Mathlib.Order.Basic
import Mathlib.Tactic.Ring

/-!
# Search trees

`inorder` lists the entries of a binary tree from left to right, and a search
tree is one whose list is `Ascending`. `assign` is the list counterpart of an
insertion. A tree is `Balanced` when the heights of siblings differ by at most
one; with height `h` it has at least `fib (h + 2) - 1` entries, and `sparse h` has
no more.
-/

namespace Lib

open BinaryTree

section

variable {α : Type}

def inorder : BinaryTree α → List α
  | .nil => []
  | .node a l r => inorder l ++ a :: inorder r

theorem length_inorder : ∀ t : BinaryTree α, (inorder t).length = t.numNodes
  | .nil => rfl
  | .node a l r => by
    simp only [inorder, List.length_append, List.length_cons, length_inorder, numNodes]
    omega

end

/-! ## Ascending lists of entries -/

section

variable {κ ν : Type} [LinearOrder κ]

def Ascending (l : List (κ × ν)) : Prop := l.Pairwise fun a b => a.1 < b.1

theorem Ascending.nodup {l : List (κ × ν)} (h : Ascending l) : (l.map Prod.fst).Nodup :=
  List.pairwise_map.mpr (h.imp fun hlt => hlt.ne)

theorem ascending_append {l m : List (κ × ν)} {a : κ × ν} : Ascending (l ++ a :: m) ↔
    Ascending l ∧ Ascending m ∧ (∀ b ∈ l, b.1 < a.1) ∧ ∀ b ∈ m, a.1 < b.1 := by
  unfold Ascending
  rw [List.pairwise_append, List.pairwise_cons]
  constructor
  · rintro ⟨h1, ⟨h2, h3⟩, h4⟩
    exact ⟨h1, h3, fun b hb => h4 b hb a List.mem_cons_self, h2⟩
  · rintro ⟨h1, h2, h3, h4⟩
    refine ⟨h1, ⟨h4, h2⟩, fun b hb c hc => ?_⟩
    rcases List.mem_cons.mp hc with rfl | hc
    exacts [h3 b hb, (h3 b hb).trans (h4 c hc)]

/-- Set the value of `k`, in the order of the keys. -/
def assign (k : κ) (v : ν) : List (κ × ν) → List (κ × ν)
  | [] => [(k, v)]
  | e :: l =>
    if k < e.1 then (k, v) :: e :: l else if e.1 < k then e :: assign k v l else (k, v) :: l

def valueOf (k : κ) (l : List (κ × ν)) : Option ν := (l.find? fun e => decide (e.1 = k)).map Prod.snd

variable {k j : κ} {v : ν} {e : κ × ν} {l m : List (κ × ν)}

theorem assign_lt (h : k < e.1) : assign k v (l ++ e :: m) = assign k v l ++ e :: m := by
  induction l with
  | nil => simp [assign, h]
  | cons a l ih =>
    simp only [List.cons_append, assign]
    split
    · rfl
    · split
      · rw [ih, List.cons_append]
      · rfl

theorem assign_gt (hl : ∀ b ∈ l, b.1 < k) (h : e.1 < k) :
    assign k v (l ++ e :: m) = l ++ e :: assign k v m := by
  induction l with
  | nil => simp [assign, h, h.not_gt]
  | cons a l ih =>
    have ha := hl a List.mem_cons_self
    simp only [List.cons_append, assign, ha.not_gt, ha, if_true, if_false]
    rw [ih fun b hb => hl b (List.mem_cons_of_mem _ hb)]

theorem assign_eq (hl : ∀ b ∈ l, b.1 < k) : assign k v (l ++ (k, e.2) :: m) = l ++ (k, v) :: m := by
  induction l with
  | nil => simp [assign]
  | cons a l ih =>
    have ha := hl a List.mem_cons_self
    simp only [List.cons_append, assign, ha.not_gt, ha, if_true, if_false]
    rw [ih fun b hb => hl b (List.mem_cons_of_mem _ hb)]

theorem mem_assign (h : e ∈ assign k v l) : e = (k, v) ∨ e ∈ l := by
  induction l with
  | nil => exact .inl (List.mem_singleton.mp h)
  | cons a l ih =>
    unfold assign at h
    split at h
    · exact (List.mem_cons.mp h)
    · split at h
      · rcases List.mem_cons.mp h with rfl | h
        exacts [.inr List.mem_cons_self, (ih h).imp_right (List.mem_cons_of_mem _)]
      · exact (List.mem_cons.mp h).imp_right (List.mem_cons_of_mem _)

theorem mem_keys_assign : j ∈ (assign k v l).map Prod.fst ↔ j = k ∨ j ∈ l.map Prod.fst := by
  induction l with
  | nil => simp [assign]
  | cons a l ih =>
    unfold assign
    split
    · simp
    · split
      · rw [List.map_cons, List.map_cons, List.mem_cons, List.mem_cons, ih]
        tauto
      · next h1 h2 =>
        have hak : a.1 = k := le_antisymm (not_lt.mp h1) (not_lt.mp h2)
        simp [hak]

theorem Ascending.assign (hl : Ascending l) : Ascending (assign k v l) := by
  induction l with
  | nil => exact List.pairwise_singleton _ _
  | cons a l ih =>
    obtain ⟨h1, h2⟩ := List.pairwise_cons.mp hl
    unfold Lib.assign
    split
    · next hk =>
      refine List.pairwise_cons.mpr ⟨fun b hb => ?_, hl⟩
      rcases List.mem_cons.mp hb with rfl | hb
      exacts [hk, hk.trans (h1 b hb)]
    · split
      · next hk =>
        refine List.pairwise_cons.mpr ⟨fun b hb => ?_, ih h2⟩
        rcases mem_assign hb with rfl | hb
        exacts [hk, h1 b hb]
      · next h3 h4 =>
        have : a.1 = k := le_antisymm (not_lt.mp h3) (not_lt.mp h4)
        exact List.pairwise_cons.mpr ⟨fun b hb => this ▸ h1 b hb, h2⟩

/-- **Reading back** an assignment. -/
theorem valueOf_assign (hl : Ascending l) :
    valueOf j (assign k v l) = if j = k then some v else valueOf j l := by
  induction l with
  | nil => by_cases h : k = j <;> simp [assign, valueOf, h, eq_comm]
  | cons a l ih =>
    obtain ⟨h1, h2⟩ := List.pairwise_cons.mp hl
    have ih := ih h2
    unfold valueOf at ih ⊢
    unfold assign
    split
    · by_cases h : k = j
      · simp [h]
      · simp [List.find?_cons, h, Ne.symm h]
    · split
      · next h3 h4 =>
        by_cases h : a.1 = j
        · have : j ≠ k := h ▸ h4.ne
          simp [h, this]
        · simpa [List.find?_cons, h] using ih
      · next h3 h4 =>
        have hak : a.1 = k := le_antisymm (not_lt.mp h3) (not_lt.mp h4)
        by_cases h : k = j
        · simp [h]
        · simp [hak, h, Ne.symm h]

theorem valueOf_of_notMem (h : k ∉ l.map Prod.fst) : valueOf k l = none := by
  have : l.find? (fun e => decide (e.1 = k)) = none := by
    refine List.find?_eq_none.mpr fun e he => ?_
    have : e.1 ≠ k := fun hk => h (List.mem_map.mpr ⟨e, he, hk⟩)
    simpa using this
  rw [valueOf, this]
  rfl

theorem exists_valueOf (h : k ∈ l.map Prod.fst) : ∃ v, (k, v) ∈ l ∧ valueOf k l = some v := by
  have : (l.find? fun e => decide (e.1 = k)).isSome := by
    obtain ⟨e, he, hk⟩ := List.mem_map.mp h
    exact List.find?_isSome.mpr ⟨e, he, by simpa using hk⟩
  obtain ⟨e, he⟩ := Option.isSome_iff_exists.mp this
  have hk : e.1 = k := by simpa using List.find?_some he
  exact ⟨e.2, hk ▸ List.mem_of_find?_eq_some he, by rw [valueOf, he]; rfl⟩

theorem mem_of_valueOf (h : valueOf k l = some v) : (k, v) ∈ l := by
  obtain ⟨e, he, rfl⟩ := Option.map_eq_some_iff.mp h
  obtain rfl : e.1 = k := by simpa using List.find?_some he
  exact List.mem_of_find?_eq_some he

theorem valueOf_map {μ : Type} (f : ν → μ) (l : List (κ × ν)) :
    valueOf k (l.map fun e => (e.1, f e.2)) = (valueOf k l).map f := by
  simp [valueOf, List.find?_map, Function.comp_def]

theorem valueOf_left (h : j < e.1) (hm : ∀ b ∈ m, e.1 < b.1) :
    valueOf j (l ++ e :: m) = valueOf j l := by
  have hnone : (e :: m).find? (fun b => decide (b.1 = j)) = none := by
    refine List.find?_eq_none.mpr fun b hb => ?_
    rcases List.mem_cons.mp hb with rfl | hb
    · simpa using h.ne'
    · simpa using (h.trans (hm b hb)).ne'
  unfold valueOf
  rw [List.find?_append, hnone, Option.or_none]

theorem valueOf_right (hl : ∀ b ∈ l, b.1 < e.1) (h : e.1 < j) :
    valueOf j (l ++ e :: m) = valueOf j m := by
  have hnone : l.find? (fun b => decide (b.1 = j)) = none := by
    refine List.find?_eq_none.mpr fun b hb => ?_
    simpa using ((hl b hb).trans h).ne
  unfold valueOf
  rw [List.find?_append, hnone, Option.none_or, List.find?_cons, decide_eq_false h.ne]

theorem valueOf_mid (hl : ∀ b ∈ l, b.1 < e.1) : valueOf e.1 (l ++ e :: m) = some e.2 := by
  have hnone : l.find? (fun b => decide (b.1 = e.1)) = none := by
    refine List.find?_eq_none.mpr fun b hb => ?_
    simpa using (hl b hb).ne
  unfold valueOf
  rw [List.find?_append, hnone, Option.none_or, List.find?_cons, decide_eq_true rfl]
  rfl

theorem Ascending.valueOf_of_mem (hl : Ascending l) (h : (k, v) ∈ l) : valueOf k l = some v := by
  obtain ⟨l₁, l₂, rfl⟩ := List.append_of_mem h
  exact valueOf_mid (ascending_append.mp hl).2.2.1

end

/-! ## Balance -/

section

variable {α β : Type}

def Balanced : BinaryTree α → Prop
  | .nil => True
  | .node _ l r => l.height ≤ r.height + 1 ∧ r.height ≤ l.height + 1 ∧ Balanced l ∧ Balanced r

/-- **A balanced tree** of height `h` has at least `fib (h + 2) - 1` entries. -/
theorem Balanced.fib_le : ∀ {t : BinaryTree α}, Balanced t → Nat.fib (t.height + 2) ≤ t.numNodes + 1
  | .nil, _ => by simp
  | .node a l r, ⟨h1, h2, hl, hr⟩ => by
    have ihl := hl.fib_le
    have ihr := hr.fib_le
    have hfib : ∀ {a b : Nat}, a ≤ b + 1 → b ≤ a →
        Nat.fib (a + 1 + 2) ≤ Nat.fib (a + 2) + Nat.fib (b + 2) := fun {a b} hab _ => by
      rw [Nat.fib_add_two, Nat.add_comm]
      exact Nat.add_le_add_left (Nat.fib_mono (by omega)) _
    simp only [height, numNodes]
    rcases le_total l.height r.height with h | h
    · rw [max_eq_right h]
      have := hfib h2 h
      omega
    · rw [max_eq_left h]
      have := hfib h1 h
      omega

/-- A smallest balanced tree of height `h`, with entries numbered from `i`. -/
def sparse (f : Nat → α) : Nat → Nat → BinaryTree α
  | 0, _ => .nil
  | 1, i => .node (f i) .nil .nil
  | h + 2, i => .node (f (i + (Nat.fib (h + 3) - 1))) (sparse f (h + 1) i)
      (sparse f h (i + Nat.fib (h + 3)))

theorem height_sparse (f : Nat → α) : ∀ h i, (sparse f h i).height = h
  | 0, _ => rfl
  | 1, _ => rfl
  | h + 2, i => by simp [sparse, height_sparse]

theorem balanced_sparse (f : Nat → α) : ∀ h i, Balanced (sparse f h i)
  | 0, _ => trivial
  | 1, _ => ⟨Nat.zero_le _, Nat.zero_le _, trivial, trivial⟩
  | h + 2, i => by
    refine ⟨?_, ?_, balanced_sparse f _ _, balanced_sparse f _ _⟩ <;>
      simp only [height_sparse] <;> omega

theorem inorder_sparse (f : Nat → α) : ∀ h i,
    inorder (sparse f h i) = (List.range' i (Nat.fib (h + 2) - 1)).map f
  | 0, _ => rfl
  | 1, _ => rfl
  | h + 2, i => by
    have hpos : 0 < Nat.fib (h + 3) := Nat.fib_pos.mpr (by omega)
    have hpos' : 0 < Nat.fib (h + 2) := Nat.fib_pos.mpr (by omega)
    have hsum : Nat.fib (h + 2 + 2) - 1 = (Nat.fib (h + 3) - 1) + (1 + (Nat.fib (h + 2) - 1)) := by
      rw [Nat.fib_add_two, show h + 2 + 1 = h + 3 from rfl]
      omega
    rw [hsum, ← List.range'_append_1, Nat.add_comm 1, List.range'_succ, List.map_append,
      List.map_cons, sparse, inorder, inorder_sparse, inorder_sparse,
      show i + (Nat.fib (h + 3) - 1) + 1 = i + Nat.fib (h + 3) by omega]

end

end Lib
