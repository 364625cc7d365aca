import SmallClientSSE.Lib.SearchTree

/-!
# The AVL tree of an OMAP

`AVLTree.cpp` on trees: a node carries its stored height, and the child a link
reads is the subtree below it. `none` is a rotation around a missing child, which
throws. On balanced trees with right heights `insert` does not throw and keeps
them so (`insert_ok`), and it sets one value in the ascending list of the pairs
(`insert_pairs`).
-/

namespace SmallClientSSE.AVL

open Lib BinaryTree

structure Entry (κ ν : Type) where
  key : κ
  value : ν
  height : Nat
  deriving DecidableEq

/-- Trees of nodes. -/
abbrev AVLTree (κ ν : Type) := BinaryTree (Entry κ ν)

section

variable {κ ν : Type}

def height : AVLTree κ ν → Nat
  | .nil => 0
  | .node e _ _ => e.height

def update (e : Entry κ ν) (l r : AVLTree κ ν) : AVLTree κ ν :=
  .node { e with height := max (height l) (height r) + 1 } l r

def rightRotate : AVLTree κ ν → Option (AVLTree κ ν)
  | .node y (.node x a T2) r => some (update x a (update y T2 r))
  | _ => none

def leftRotate : AVLTree κ ν → Option (AVLTree κ ν)
  | .node x l (.node y T2 b) => some (update y (update x l T2) b)
  | _ => none

def rootKey : AVLTree κ ν → Option κ
  | .nil => none
  | .node e _ _ => some e.key

variable [LinearOrder κ]

/-- What `insert` does on the way back: the height, the balance and its four cases. -/
def rebalance (key : κ) (e : Entry κ ν) (l r : AVLTree κ ν) : Option (AVLTree κ ν) :=
  let balance : Int := (height l : Int) - height r
  if balance > 1 then do
    let left ← rootKey l
    if key < left then rightRotate (update e l r)
    else if left < key then do
      let l ← leftRotate l
      rightRotate (.node e l r)
    else some (update e l r)
  else if balance < -1 then do
    let right ← rootKey r
    if right < key then leftRotate (update e l r)
    else if key < right then do
      let r ← rightRotate r
      leftRotate (.node e l r)
    else some (update e l r)
  else some (update e l r)

/-- `AVLTree::insert`. -/
def insert (key : κ) (value : ν) : AVLTree κ ν → Option (AVLTree κ ν)
  | .nil => some (.node ⟨key, value, 1⟩ .nil .nil)
  | .node e l r =>
    if key < e.key then do
      let l ← insert key value l
      rebalance key e l r
    else if e.key < key then do
      let r ← insert key value r
      rebalance key e l r
    else some (.node { e with value := value } l r)

/-- `AVLTree::search`. -/
def search (key : κ) : AVLTree κ ν → Option ν
  | .nil => none
  | .node e l r => if key < e.key then search key l else if e.key < key then search key r
    else some e.value

def insertAll (pairs : List (κ × ν)) : Option (AVLTree κ ν) :=
  pairs.foldlM (fun t p => insert p.1 p.2 t) .nil

end

/-! ## The pairs of a tree -/

section

variable {κ ν : Type}

def pairs (t : AVLTree κ ν) : List (κ × ν) := (inorder t).map fun e => (e.key, e.value)

@[simp] theorem pairs_nil : pairs (.nil : AVLTree κ ν) = [] := rfl

@[simp] theorem pairs_node (e : Entry κ ν) (l r : AVLTree κ ν) :
    pairs (.node e l r) = pairs l ++ (e.key, e.value) :: pairs r := by
  simp [pairs, inorder]

@[simp] theorem pairs_update (e : Entry κ ν) (l r : AVLTree κ ν) :
    pairs (update e l r) = pairs l ++ (e.key, e.value) :: pairs r :=
  pairs_node ..

theorem pairs_rightRotate {t u : AVLTree κ ν} (h : rightRotate t = some u) : pairs u = pairs t := by
  match t with
  | .nil => cases h
  | .node y .nil r => cases h
  | .node y (.node x a T2) r =>
    obtain rfl := Option.some.inj h
    simp

theorem pairs_leftRotate {t u : AVLTree κ ν} (h : leftRotate t = some u) : pairs u = pairs t := by
  match t with
  | .nil => cases h
  | .node x l .nil => cases h
  | .node x l (.node y T2 b) =>
    obtain rfl := Option.some.inj h
    simp

variable [LinearOrder κ] {key : κ} {value : ν} {e : Entry κ ν} {l r t u : AVLTree κ ν}

theorem pairs_rebalance (h : rebalance key e l r = some u) :
    pairs u = pairs l ++ (e.key, e.value) :: pairs r := by
  unfold rebalance at h
  simp only at h
  split at h
  · obtain ⟨k, -, h⟩ := Option.bind_eq_some_iff.mp h
    split at h
    · simpa using pairs_rightRotate h
    · split at h
      · obtain ⟨l', hl, h⟩ := Option.bind_eq_some_iff.mp h
        simpa [pairs_leftRotate hl] using pairs_rightRotate h
      · obtain rfl := Option.some.inj h
        simp
  · split at h
    · obtain ⟨k, -, h⟩ := Option.bind_eq_some_iff.mp h
      split at h
      · simpa using pairs_leftRotate h
      · split at h
        · obtain ⟨r', hr, h⟩ := Option.bind_eq_some_iff.mp h
          simpa [pairs_rightRotate hr] using pairs_leftRotate h
        · obtain rfl := Option.some.inj h
          simp
    · obtain rfl := Option.some.inj h
      simp

/-- **An insertion** sets one value. -/
theorem insert_pairs (hs : Ascending (pairs t)) (h : insert key value t = some u) :
    pairs u = assign key value (pairs t) := by
  induction t generalizing u with
  | nil =>
    obtain rfl := Option.some.inj h
    rfl
  | node e l r ihl ihr =>
    rw [pairs_node] at hs ⊢
    obtain ⟨hl, hr, hle, hre⟩ := ascending_append.mp hs
    unfold insert at h
    split at h
    · next hk =>
      obtain ⟨l', hl', h⟩ := Option.bind_eq_some_iff.mp h
      rw [pairs_rebalance h, ihl hl hl', assign_lt hk]
    · split at h
      · next hk =>
        obtain ⟨r', hr', h⟩ := Option.bind_eq_some_iff.mp h
        rw [pairs_rebalance h, ihr hr hr', assign_gt (fun b hb => (hle b hb).trans hk) hk]
      · next h1 h2 =>
        obtain rfl : e.key = key := le_antisymm (not_lt.mp h1) (not_lt.mp h2)
        obtain rfl := Option.some.inj h
        rw [pairs_node]
        exact (assign_eq (e := (e.key, e.value)) hle).symm

theorem search_eq (hs : Ascending (pairs t)) : search key t = valueOf key (pairs t) := by
  induction t with
  | nil => rfl
  | node e l r ihl ihr =>
    rw [pairs_node] at hs ⊢
    obtain ⟨hl, hr, hle, hre⟩ := ascending_append.mp hs
    unfold search
    split
    · next hk => rw [valueOf_left hk hre, ihl hl]
    · split
      · next hk => rw [valueOf_right hle hk, ihr hr]
      · next h1 h2 =>
        obtain rfl : e.key = key := le_antisymm (not_lt.mp h1) (not_lt.mp h2)
        exact (valueOf_mid (e := (e.key, e.value)) hle).symm

end

/-! ## Heights -/

section

variable {κ ν : Type}

/-- Stored heights are right, and siblings differ by at most one. -/
def Ok : AVLTree κ ν → Prop
  | .nil => True
  | .node e l r => e.height = max (height l) (height r) + 1 ∧ height l ≤ height r + 1 ∧
    height r ≤ height l + 1 ∧ Ok l ∧ Ok r

theorem Ok.height_eq : ∀ {t : AVLTree κ ν}, Ok t → height t = t.height
  | .nil, _ => rfl
  | .node e l r, ⟨h, _, _, hl, hr⟩ => by
    rw [BinaryTree.height, ← hl.height_eq, ← hr.height_eq]
    exact h

theorem Ok.balanced : ∀ {t : AVLTree κ ν}, Ok t → Balanced t
  | .nil, _ => trivial
  | .node _ _ _, ⟨_, h1, h2, hl, hr⟩ =>
    ⟨hl.height_eq ▸ hr.height_eq ▸ h1, hl.height_eq ▸ hr.height_eq ▸ h2, hl.balanced, hr.balanced⟩

theorem Ok.update {e : Entry κ ν} {l r : AVLTree κ ν} (h1 : height l ≤ height r + 1)
    (h2 : height r ≤ height l + 1) (hl : Ok l) (hr : Ok r) : Ok (update e l r) :=
  ⟨rfl, h1, h2, hl, hr⟩

@[simp] theorem height_update (e : Entry κ ν) (l r : AVLTree κ ν) :
    height (update e l r) = max (height l) (height r) + 1 := rfl

theorem Ok.pos_of_node {e : Entry κ ν} {l r : AVLTree κ ν} (h : Ok (.node e l r)) :
    0 < height (.node e l r) := by
  show 0 < e.height
  have := h.1
  omega

variable [LinearOrder κ]

/-- Which side of the root a growing insertion went down. -/
def Leans (key : κ) : AVLTree κ ν → Prop
  | .nil => False
  | .node e l r => key < e.key ∧ height l = height r + 1 ∨ e.key < key ∧ height r = height l + 1

variable {key : κ} {value : ν} {e : Entry κ ν} {l r t u : AVLTree κ ν}

/-- The left subtree grew two levels higher than the right one. -/
theorem rebalance_left (hl : Ok l) (hr : Ok r) (h : height l = height r + 2)
    (hlean : Leans key l) : ∃ u, rebalance key e l r = some u ∧ Ok u ∧ height u = height r + 2 := by
  match l with
  | .nil => exact hlean.elim
  | .node x a b =>
    obtain ⟨hx, h1, h2, ha, hb⟩ := hl
    replace h : x.height = height r + 2 := h
    have hbal : (height (.node x a b) : Int) - height r > 1 := by
      show (x.height : Int) - height r > 1
      omega
    unfold rebalance
    simp only [hbal, if_true, rootKey, Option.bind_eq_bind, Option.bind_some]
    rcases hlean with ⟨hk, hab⟩ | ⟨hk, hab⟩
    · simp only [hk, if_true]
      have hin : Ok (update e b r) := Ok.update (by omega) (by omega) hb hr
      exact ⟨update x a (update e b r), rfl, Ok.update (by simp; omega) (by simp; omega) ha hin, by simp; omega⟩
    · simp only [hk, hk.not_gt, if_false, if_true]
      match b with
      | .nil =>
        have : height (.nil : AVLTree κ ν) = 0 := rfl
        omega
      | .node y T2 c =>
        obtain ⟨hy, h3, h4, hT, hc⟩ := hb
        replace hab : y.height = height a + 1 := hab
        replace hx : x.height = max (height a) y.height + 1 := hx
        have hin1 : Ok (update x a T2) := Ok.update (by omega) (by omega) ha hT
        have hin2 : Ok (update e c r) := Ok.update (by omega) (by omega) hc hr
        exact ⟨update y (update x a T2) (update e c r), rfl, Ok.update (by simp; omega) (by simp; omega) hin1 hin2, by simp; omega⟩

/-- The right subtree grew two levels higher than the left one. -/
theorem rebalance_right (hl : Ok l) (hr : Ok r) (h : height r = height l + 2)
    (hlean : Leans key r) : ∃ u, rebalance key e l r = some u ∧ Ok u ∧ height u = height l + 2 := by
  match r with
  | .nil => exact hlean.elim
  | .node x a b =>
    obtain ⟨hx, h1, h2, ha, hb⟩ := hr
    replace h : x.height = height l + 2 := h
    have hbal : ¬ (height l : Int) - height (.node x a b) > 1 := by
      show ¬ (height l : Int) - x.height > 1
      omega
    have hbal' : (height l : Int) - height (.node x a b) < -1 := by
      show (height l : Int) - x.height < -1
      omega
    unfold rebalance
    simp only [hbal, if_false, hbal', if_true, rootKey, Option.bind_eq_bind, Option.bind_some]
    rcases hlean with ⟨hk, hab⟩ | ⟨hk, hab⟩
    · simp only [hk, hk.not_gt, if_false, if_true]
      match a with
      | .nil =>
        have : height (.nil : AVLTree κ ν) = 0 := rfl
        omega
      | .node y c T2 =>
        obtain ⟨hy, h3, h4, hc, hT⟩ := ha
        replace hab : y.height = height b + 1 := hab
        replace hx : x.height = max y.height (height b) + 1 := hx
        have hin1 : Ok (update x T2 b) := Ok.update (by omega) (by omega) hT hb
        have hin2 : Ok (update e l c) := Ok.update (by omega) (by omega) hl hc
        exact ⟨update y (update e l c) (update x T2 b), rfl, Ok.update (by simp; omega) (by simp; omega) hin2 hin1, by simp; omega⟩
    · simp only [hk, if_true]
      have hin : Ok (update e l a) := Ok.update (by omega) (by omega) hl ha
      exact ⟨update x (update e l a) b, rfl, Ok.update (by simp; omega) (by simp; omega) hin hb, by simp; omega⟩

theorem rebalance_level (h1 : height l ≤ height r + 1) (h2 : height r ≤ height l + 1) :
    rebalance key e l r = some (update e l r) := by
  unfold rebalance
  simp only
  rw [if_neg (by omega), if_neg (by omega)]

/-- **An insertion keeps the tree balanced**, and grows it by at most one level. -/
theorem insert_ok (key : κ) (value : ν) (ht : Ok t) : ∃ u, insert key value t = some u ∧ Ok u ∧
    height t ≤ height u ∧ height u ≤ height t + 1 ∧
    (0 < height t → height u = height t + 1 → Leans key u) := by
  induction t with
  | nil =>
    exact ⟨_, rfl, ⟨rfl, by simp, by simp, trivial, trivial⟩, Nat.zero_le _, le_rfl,
      fun h => absurd h (lt_irrefl 0)⟩
  | node e l r ihl ihr =>
    obtain ⟨he, h1, h2, hl, hr⟩ := ht
    have hh : height (.node e l r) = e.height := rfl
    unfold insert
    split
    · next hk =>
      obtain ⟨l', hl', hok, hge, hle, hlean⟩ := ihl hl
      simp only [hl', Option.bind_eq_bind, Option.bind_some]
      by_cases hbig : height l' ≤ height r + 1
      · rw [rebalance_level hbig (by omega)]
        refine ⟨_, rfl, Ok.update hbig (by omega) hok hr, by simp; omega, by simp; omega, ?_⟩
        intro _ hgrow
        rw [height_update] at hgrow
        exact .inl ⟨hk, by omega⟩
      · obtain ⟨u, hu, hok', hhu⟩ := rebalance_left (e := e) hok hr (by omega)
          (hlean (by omega) (by omega))
        exact ⟨u, hu, hok', by omega, by omega, fun _ h => by omega⟩
    · split
      · next hk =>
        obtain ⟨r', hr', hok, hge, hle, hlean⟩ := ihr hr
        simp only [hr', Option.bind_eq_bind, Option.bind_some]
        by_cases hbig : height r' ≤ height l + 1
        · rw [rebalance_level (by omega) hbig]
          refine ⟨_, rfl, Ok.update (by omega) hbig hl hok, by simp; omega, by simp; omega, ?_⟩
          intro _ hgrow
          rw [height_update] at hgrow
          exact .inr ⟨hk, by omega⟩
        · obtain ⟨u, hu, hok', hhu⟩ := rebalance_right (e := e) hl hok (by omega)
            (hlean (by omega) (by omega))
          exact ⟨u, hu, hok', by omega, by omega, fun _ h => by omega⟩
      · exact ⟨_, rfl, ⟨he, h1, h2, hl, hr⟩, le_rfl, Nat.le_succ _,
          fun _ h => absurd h (Nat.succ_ne_self _).symm⟩

def setValue (key : κ) (value : ν) (t : AVLTree κ ν) : AVLTree κ ν :=
  t.map fun e => if e.key = key then { e with value := value } else e

@[simp] theorem setValue_nil : setValue key value .nil = .nil := rfl

@[simp] theorem setValue_node : setValue key value (.node e l r) =
    .node (if e.key = key then { e with value := value } else e) (setValue key value l)
      (setValue key value r) := rfl

@[simp] theorem height_setValue (t : AVLTree κ ν) : height (setValue key value t) = height t := by
  cases t with
  | nil => rfl
  | node e l r =>
    rw [setValue_node]
    show (if e.key = key then { e with value := value } else e).height = e.height
    split <;> rfl

theorem setValue_of_notMem (hk : key ∉ (pairs t).map Prod.fst) : setValue key value t = t := by
  induction t with
  | nil => rfl
  | node e l r ihl ihr =>
    rw [pairs_node, List.map_append, List.map_cons, List.mem_append, List.mem_cons, not_or,
      not_or] at hk
    obtain ⟨hl, he, hr⟩ := hk
    rw [setValue_node, ihl hl, ihr hr, if_neg fun e => he e.symm]

/-- Setting the value of a key that is there rotates nothing. -/
theorem insert_setValue (ht : Ok t) (hs : Ascending (pairs t))
    (hk : key ∈ (pairs t).map Prod.fst) :
    insert key value t = some (setValue key value t) := by
  induction t with
  | nil => cases hk
  | node e l r ihl ihr =>
    obtain ⟨he, h1, h2, hokl, hokr⟩ := ht
    rw [pairs_node] at hs hk
    obtain ⟨hl, hr, hle, hre⟩ := ascending_append.mp hs
    rw [List.map_append, List.map_cons, List.mem_append, List.mem_cons] at hk
    have hleft : key ∈ (pairs l).map Prod.fst → key < e.key := fun hk => by
      obtain ⟨b, hb, rfl⟩ := List.mem_map.mp hk
      exact hle b hb
    have hright : key ∈ (pairs r).map Prod.fst → e.key < key := fun hk => by
      obtain ⟨b, hb, rfl⟩ := List.mem_map.mp hk
      exact hre b hb
    have hsame : ∀ {l' r' : AVLTree κ ν}, height l' = height l → height r' = height r →
        rebalance key e l' r' = some (.node e l' r') := fun {l' r'} hl' hr' => by
      rw [rebalance_level (by omega) (by omega), update, hl', hr', ← he]
    unfold insert
    rw [setValue_node]
    split
    · next hlt =>
      have hkl : key ∈ (pairs l).map Prod.fst := by
        rcases hk with hk | rfl | hk
        exacts [hk, absurd hlt (lt_irrefl _), absurd hlt (hright hk).not_gt]
      rw [ihl hokl hl hkl, if_neg hlt.ne', setValue_of_notMem fun hkr => hlt.not_gt (hright hkr)]
      exact hsame (height_setValue l) rfl
    · split
      · next hgt =>
        have hkr : key ∈ (pairs r).map Prod.fst := by
          rcases hk with hk | rfl | hk
          exacts [absurd hgt (hleft hk).not_gt, absurd hgt (lt_irrefl _), hk]
        rw [ihr hokr hr hkr, if_neg hgt.ne, setValue_of_notMem fun hkl => hgt.not_gt (hleft hkl)]
        exact hsame rfl (height_setValue r)
      · next h1 h2 =>
        obtain rfl : e.key = key := le_antisymm (not_lt.mp h1) (not_lt.mp h2)
        rw [if_pos rfl, setValue_of_notMem fun hkl => (lt_irrefl _ (hleft hkl)),
          setValue_of_notMem fun hkr => (lt_irrefl _ (hright hkr))]

/-- Setting the value of a key that is there keeps the height. -/
theorem insert_present (ht : Ok t) (hs : Ascending (pairs t)) (hk : key ∈ (pairs t).map Prod.fst)
    (h : insert key value t = some u) : height u = height t := by
  rw [insert_setValue ht hs hk] at h
  rw [← Option.some.inj h, height_setValue]

theorem setValue_self (h : ∀ p ∈ pairs t, p.1 = key → p.2 = value) : setValue key value t = t := by
  induction t with
  | nil => rfl
  | node e l r ihl ihr =>
    simp only [pairs_node, List.mem_append, List.mem_cons] at h
    rw [setValue_node, ihl fun p hp => h p (.inl hp), ihr fun p hp => h p (.inr (.inr hp))]
    split
    · next hk => rw [← h (e.key, e.value) (.inr (.inl rfl)) hk]
    · rfl

theorem insert_again (ht : Ok t) (hs : Ascending (pairs t)) (h : insert key value t = some u) :
    insert key value u = some u := by
  obtain ⟨u', hu', hok, -⟩ := insert_ok key value ht
  obtain rfl := Option.some.inj (hu'.symm.trans h)
  have hp := insert_pairs hs h
  have hs' : Ascending (pairs u') := hp ▸ hs.assign
  have hval : valueOf key (pairs u') = some value := by rw [hp, valueOf_assign hs, if_pos rfl]
  rw [insert_setValue hok hs' (List.mem_map_of_mem (mem_of_valueOf hval)), setValue_self]
  rintro ⟨k, v⟩ hmem rfl
  exact Option.some.inj ((hs'.valueOf_of_mem hmem).symm.trans hval)

theorem insert_left (ht : Ok (.node e l r)) (hl : insert key value l = some t)
    (hu : rebalance key e t r = some u) (hgrow : height u = height (.node e l r) + 1) :
    u = update e t r ∧ height t = height l + 1 := by
  obtain ⟨he, h1, h2, hokl, hokr⟩ := ht
  obtain ⟨l', hl', hok, hge, hle, hlean⟩ := insert_ok key value hokl
  obtain rfl : l' = t := Option.some.inj (hl'.symm.trans hl)
  replace hgrow : height u = e.height + 1 := hgrow
  by_cases hbig : height l' ≤ height r + 1
  · rw [rebalance_level hbig (by omega)] at hu
    obtain rfl := Option.some.inj hu
    rw [height_update] at hgrow
    exact ⟨rfl, by omega⟩
  · obtain ⟨u', hu', -, hhu⟩ := rebalance_left (e := e) hok hokr (by omega)
      (hlean (by omega) (by omega))
    rw [Option.some.inj (hu.symm.trans hu')] at hgrow
    omega

theorem insert_right (ht : Ok (.node e l r)) (hr : insert key value r = some t)
    (hu : rebalance key e l t = some u) (hgrow : height u = height (.node e l r) + 1) :
    u = update e l t ∧ height t = height r + 1 := by
  obtain ⟨he, h1, h2, hokl, hokr⟩ := ht
  obtain ⟨r', hr', hok, hge, hle, hlean⟩ := insert_ok key value hokr
  obtain rfl : r' = t := Option.some.inj (hr'.symm.trans hr)
  replace hgrow : height u = e.height + 1 := hgrow
  by_cases hbig : height r' ≤ height l + 1
  · rw [rebalance_level (by omega) hbig] at hu
    obtain rfl := Option.some.inj hu
    rw [height_update] at hgrow
    exact ⟨rfl, by omega⟩
  · obtain ⟨u', hu', -, hhu⟩ := rebalance_right (e := e) hokl hok (by omega)
      (hlean (by omega) (by omega))
    rw [Option.some.inj (hu.symm.trans hu')] at hgrow
    omega

end

end SmallClientSSE.AVL
