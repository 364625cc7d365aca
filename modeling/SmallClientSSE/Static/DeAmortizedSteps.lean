import SmallClientSSE.Static.DeAmortizedSets

/-!
# The steps of an update of the DeAmortized scheme

What moving a record and completing a set do to the sets (`Client.setAt`) and to
the counters (`counter`) of every level.
-/

namespace SmallClientSSE.DeAmortized

open Lib Static BASClient

variable {E : Env} {c : Client} {setup : Bool} {i : Nat} {w : Str} {e : Int}

theorem assign_apply {α : Type} (v : Nat → Nat → α) (inst index : Nat) (x : α) (j i : Nat) :
    assign v inst index x j i = if j = inst ∧ i = index then x else v j i := rfl

/-! ## Counters -/

/-- The text of `k` records; none is kept for no record. -/
def countText (k : Nat) : Option Str := if k = 0 then none else some (intStr k)

/-- The counter of `w` in set `e` of level `i`. -/
def counter (c : Client) (setup : Bool) (i : Nat) (w : Str) (e : Int) : Option Str :=
  if i < localSize then c.localmap i (localKey w e)
  else if setup then c.setupOMAPS i (getBid w e) else c.omaps i (getBid w e)

def setCounter (c : Client) (setup : Bool) (i : Nat) (w : Str) (e : Int) (text : Str) : Client :=
  if i < localSize then
    { c with
      localmap := Function.update c.localmap i
        (Function.update (c.localmap i) (localKey w e) (some text)) }
  else if setup then
    { c with
      setupOMAPS := Function.update c.setupOMAPS i ((c.setupOMAPS i).insert (getBid w e) text) }
  else
    { c with omaps := Function.update c.omaps i ((c.omaps i).insert (getBid w e) text) }

theorem inInt_natCast {k : Nat} (hk : k < 2 ^ 31) : InInt k := ⟨by omega, by omega⟩

theorem succText_intStr {z : Int} (hz : InInt z) (h : InInt (z + 1)) :
    FMap.succText (intStr z) = some (intStr (z + 1)) := by
  have hstoi := stoi_intStr_self ⟨z, hz⟩
  simp only at hstoi
  simp only [FMap.succText, hstoi, Option.bind_eq_bind, Option.bind_some, h, guard_true,
    Option.pure_def]

theorem succText_natCast {k : Nat} (hk : k + 1 < 2 ^ 31) :
    FMap.succText (intStr k) = some (intStr (k + 1 : Nat)) :=
  succText_intStr (inInt_natCast (by omega)) (inInt_natCast hk)

theorem intStr_one : ([49] : Str) = intStr ((0 + 1 : Nat) : Int) := by decide

theorem nextText_countText {k : Nat} (hk : k + 1 < 2 ^ 31) :
    nextText ((countText k).getD []) = some (intStr (k + 1 : Nat)) := by
  unfold nextText countText
  by_cases hz : k = 0
  · subst hz
    rw [if_pos rfl, intStr_one]
    rfl
  · rw [if_neg hz, Option.getD_some, if_neg (intStr_ne_nil _), succText_natCast hk]

theorem incrementCnt_eq {m : FMap 16} {key : Bid 16} {k : Nat} (h : m key = countText k)
    (hk : k + 1 < 2 ^ 31) : m.incrementCnt key =
      some ((countText k).getD [], m.insert key (intStr (k + 1 : Nat))) := by
  unfold FMap.incrementCnt
  rw [h]
  unfold countText
  by_cases hz : k = 0
  · subst hz
    rw [if_pos rfl, intStr_one]
    rfl
  · simp only [if_neg hz, succText_natCast hk, Option.map_some, Option.getD_some]

/-- **A counter is counted up.** -/
theorem countUp_eq {k : Nat} (h : counter c setup i w e = countText k) (hk : k + 1 < 2 ^ 31) :
    countUp c i w e setup =
      some (intStr (k + 1 : Nat), setCounter c setup i w e (intStr (k + 1 : Nat))) := by
  unfold counter at h
  unfold countUp readCnt setCounter
  split at h
  · next hi =>
    simp only [hi, if_true, h, Option.bind_eq_bind, Option.bind_some, nextText_countText hk,
      writeCnt, Option.pure_def]
  · next hi =>
    cases setup with
    | true =>
      simp only [if_true] at h
      simp only [hi, if_false, if_true, h, Option.bind_eq_bind, Option.bind_some,
        nextText_countText hk, writeCnt, Option.pure_def]
    | false =>
      simp only [Bool.false_eq_true, if_false] at h
      simp only [hi, if_false, Bool.false_eq_true, incrementCnt_eq h hk, Option.map_some,
        Option.bind_eq_bind, Option.bind_some, nextText_countText hk, writeCnt, Option.pure_def]

theorem counter_setCounter (c : Client) (setup : Bool) (i : Nat) (w : Str) (e : Int) (text : Str) :
    counter (setCounter c setup i w e text) setup i w e = some text := by
  by_cases hi : i < localSize
  · simp [counter, setCounter, hi]
  · cases setup <;> simp [counter, setCounter, hi, FMap.insert_self]

theorem counter_setCounter_of_ne (c : Client) (setup : Bool) {i : Nat} {w : Str} {e : Int}
    (text : Str) {i' : Nat} {w' : Str} {e' : Int}
    (h : i' ≠ i ∨ (localKey w' e' ≠ localKey w e ∧ getBid w' e' ≠ getBid w e)) :
    counter (setCounter c setup i w e text) setup i' w' e' = counter c setup i' w' e' := by
  by_cases hne : i' = i
  · subst hne
    obtain ⟨h1, h2⟩ := h.resolve_left (fun hne => hne rfl)
    by_cases hi : i' < localSize
    · simp [counter, setCounter, hi, h1]
    · cases setup <;> simp [counter, setCounter, hi, FMap.insert_of_ne _ h2]
  · by_cases hi : i < localSize
    · simp [counter, setCounter, hi, hne]
    · cases setup <;> simp [counter, setCounter, hi, hne]

theorem counterKey_ne {w' : Str} {e' : Int} (hw : Keyword w) (hw' : Keyword w') (he : InInt e)
    (he' : InInt e') (h0 : 0 ≤ e) (h0' : 0 ≤ e') (h : w' ≠ w ∨ e' ≠ e) :
    localKey w' e' ≠ localKey w e ∧ getBid w' e' ≠ getBid w e := by
  constructor <;> intro heq
  · obtain ⟨rfl, rfl⟩ := append_intStr_inj (by decide) h0' h0 heq
    simp at h
  · obtain ⟨rfl, rfl⟩ := getBid_inj hw' hw he' he heq
    simp at h

theorem setCounter_fields (c : Client) (setup : Bool) (i : Nat) (w : Str) (e : Int) (text : Str) :
    ∃ localmap setupOMAPS omaps, setCounter c setup i w e text =
      { c with
        localmap := localmap
        setupOMAPS := setupOMAPS
        omaps := omaps } := by
  unfold setCounter
  split
  · exact ⟨_, _, _, rfl⟩
  · split <;> exact ⟨_, _, _, rfl⟩

theorem dropCnt_fields (c : Client) (i : Nat) (w : Str) (e : Int) (setup : Bool) :
    ∃ localmap dummies omaps, dropCnt c i w e setup =
      { c with
        localmap := localmap
        setupOMAPSDummies := dummies
        omaps := omaps } := by
  unfold dropCnt
  split
  · exact ⟨_, _, _, rfl⟩
  · split <;> exact ⟨_, _, _, rfl⟩

/-! ## Moving a record -/

/-- What a move into level `i` changes: record `k` of `w`, filed in set `e`. -/
structure Moved (E : Env) (c c' : Client) (setup : Bool) (i : Nat) (w : Str) (e : Int) (k : Nat)
    (x : Block) : Prop where
  l : c'.l = c.l
  updateCounter : c'.updateCounter = c.updateCounter
  cnt : c'.cnt = Function.update c.cnt i (c.cnt i + 1)
  new : c'.setAt 3 i = (c.setAt 3 i).add E w k x
  sets : ∀ j i', j ≠ 3 ∨ i' ≠ i → c'.setAt j i' = c.setAt j i'
  data : ∀ i', i' ≠ i → c'.data 3 i' = c.data 3 i'
  count : counter c' setup i w e = some (intStr k)
  counts : ∀ i' w' e', i' ≠ i ∨ (localKey w' e' ≠ localKey w e ∧ getBid w' e' ≠ getBid w e) →
    counter c' setup i' w' e' = counter c setup i' w' e'

theorem file_spec {k : Nat} (hk : k < 2 ^ 31) (x : Block) :
    ∃ data server, file E c i w (intStr k) x =
        some { c with
          data := data
          L := { c.L with server := server } } ∧
      Client.setAt { c with
          data := data
          L := { c.L with server := server } } 3 i = (c.setAt 3 i).add E w k x ∧
      ∀ j i', j ≠ 3 ∨ i' ≠ i → data j i' = c.data j i' ∧ server j i' = c.L.server j i' := by
  have hstoi := stoi_intStr_self ⟨(k : Int), inInt_natCast hk⟩
  simp only at hstoi
  unfold file
  by_cases hi : i < localSize
  · refine ⟨assign c.data 3 i ((c.data 3 i).put (localKey w k) x), c.L.server, ?_, ?_, ?_⟩
    · rw [if_pos hi]
      rfl
    · simp only [Client.setAt, if_pos hi, CSet.add, assign_apply, and_self, if_true]
      rfl
    · intro j i' hne
      have hne' : ¬ (j = 3 ∧ i' = i) := by omega
      simp only [assign_apply, hne', if_false, and_self]
  · refine ⟨c.data, assign c.L.server 3 i ((c.L.server 3 i).put (serverAddr E (c.keys 3 i) w k)
      (E.aes.encodeBlock x (some (c.keys 3 i)))), ?_, ?_, ?_⟩
    · rw [if_neg hi, hstoi]
      rfl
    · simp only [Client.setAt, if_neg hi, CSet.add, assign_apply, and_self, if_true]
    · intro j i' hne
      have hne' : ¬ (j = 3 ∧ i' = i) := by omega
      simp only [assign_apply, hne', if_false, and_self]

/-- **A move** files the record under the next number of its keyword. -/
theorem move_spec {k : Nat} {x : Block} (hx : nextRecord E c i = some x)
    (hcount : counter c setup i x.cstr (upCnt c i) = countText k) (hk : k + 1 < 2 ^ 31) :
    ∃ c', move E c i setup = some (x.cstr, c') ∧
      Moved E c c' setup i x.cstr (upCnt c i) (k + 1) x := by
  have hcount' : counter { c with cnt := Function.update c.cnt i (c.cnt i + 1) } setup i x.cstr
      (upCnt c i) = countText k := hcount
  simp only [move, hx, Option.bind_eq_bind, Option.bind_some, countUp_eq hcount' hk]
  have hself := counter_setCounter { c with cnt := Function.update c.cnt i (c.cnt i + 1) } setup i
    x.cstr (upCnt c i) (intStr (k + 1 : Nat))
  have hother : ∀ i' w' e', i' ≠ i ∨ (localKey w' e' ≠ localKey x.cstr (upCnt c i) ∧
      getBid w' e' ≠ getBid x.cstr (upCnt c i)) → _ := fun i' w' e' =>
    counter_setCounter_of_ne { c with cnt := Function.update c.cnt i (c.cnt i + 1) } setup
      (intStr (k + 1 : Nat))
  obtain ⟨lm, so, om, hc1⟩ := setCounter_fields
    { c with cnt := Function.update c.cnt i (c.cnt i + 1) } setup i x.cstr (upCnt c i)
    (intStr (k + 1 : Nat))
  rw [hc1] at hself hother ⊢
  generalize hc2 : ({ c with
      cnt := Function.update c.cnt i (c.cnt i + 1)
      localmap := lm
      setupOMAPS := so
      omaps := om } : Client) = c2 at *
  obtain ⟨data, server, hfile, hnew, hsets⟩ := file_spec (E := E) (c := c2) (i := i) (w := x.cstr)
    hk x
  rw [hfile]
  subst hc2
  refine ⟨_, rfl, rfl, rfl, rfl, hnew, fun j i' hne => ?_, fun i' hne => (hsets 3 i' (.inr hne)).1,
    hself, hother⟩
  simp only [Client.setAt, (hsets j i' hne).1, (hsets j i' hne).2]

/-! ## Completing a set -/

theorem newSize_eq : newSize c i = (c.setAt 3 i).size := by
  unfold newSize Client.setAt
  split <;> rfl

section

variable (L : BASClient) (inst index j k : Nat)

@[simp] theorem destry_server : (L.destry inst index).server j k =
    if j = inst ∧ k = index then ∅ else L.server j k := rfl

@[simp] theorem destry_exist : (L.destry inst index).exist j k =
    if j = inst ∧ k = index then false else L.exist j k := rfl

@[simp] theorem copy_server (fromInst fromIndex : Nat) :
    (L.copy fromInst fromIndex inst index).server j k =
      if j = inst ∧ k = index then L.server fromInst fromIndex else L.server j k := by
  by_cases h : 0 < BASClient.size
      { L with server := assign L.server inst index (L.server fromInst fromIndex) } inst index
  · simp only [BASClient.copy, if_pos h, assign_apply]
  · simp only [BASClient.copy, if_neg h, assign_apply]

@[simp] theorem copy_exist (fromInst fromIndex : Nat) :
    (L.copy fromInst fromIndex inst index).exist j k =
      if (j = inst ∧ k = index) ∧ 0 < (L.server fromInst fromIndex).pairs.length then true
      else L.exist j k := by
  simp only [BASClient.copy, BASClient.size, assign_apply, and_self, if_true]
  split
  · next h => simp only [assign_apply, h, and_true]
  · next h => simp only [h, and_false, if_false]

end

theorem setAt_dropSources (m j k : Nat) :
    (dropSources c (m + 1)).setAt j k =
      if k = m then
        if j = 0 then (c.setAt 2 k).copied
        else if j = 1 ∨ j = 2 then (c.setAt j k).clear else c.setAt j k
      else c.setAt j k := by
  unfold dropSources
  by_cases hm : m < localSize
  · have hle : m + 1 ≤ localSize := hm
    simp only [hle, if_true, Nat.add_sub_cancel, Client.setAt, assign_apply]
    by_cases hk : k = m
    · subst hk
      by_cases h0 : j = 0
      · simp [h0, hm, CSet.copied]
      · by_cases h1 : j = 1
        · simp [h1, hm, CSet.clear]
        · by_cases h2 : j = 2
          · simp [h2, hm, CSet.clear]
          · simp [h0, h1, h2, hm]
    · simp [hk]
  · have hle : ¬ m + 1 ≤ localSize := hm
    simp only [hle, if_false, Nat.add_sub_cancel, Client.setAt, assign_apply, destry_server,
      destry_exist, copy_server, copy_exist]
    by_cases hk : k = m
    · subst hk
      by_cases h0 : j = 0
      · simp [h0, hm, CSet.copied]
      · by_cases h1 : j = 1
        · simp [h1, hm, CSet.clear]
        · by_cases h2 : j = 2
          · simp [h2, hm, CSet.clear]
          · simp [h0, h1, h2, hm]
    · simp [hk]

theorem setAt_place {p : Nat} (hp : p < 3) (hfree : free c p i = true) (j k : Nat) :
    (place c i p).setAt j k =
      if k = i then
        if j = p then (c.setAt 3 i).copied else if j = 3 then (c.setAt 3 i).clear else c.setAt j i
      else c.setAt j k := by
  have hp3 : p ≠ 3 := by omega
  unfold free at hfree
  unfold place
  by_cases hi : i < localSize
  · simp only [hi, if_true, Client.setAt, assign_apply]
    by_cases hk : k = i
    · subst hk
      by_cases hj : j = p
      · simp [hj, hp3, hi, CSet.copied]
      · by_cases h3 : j = 3
        · simp [h3, Ne.symm hp3, hi, CSet.clear]
        · simp [hj, h3, hi]
    · simp [hk]
  · simp only [hi, if_false, Bool.not_eq_true'] at hfree
    simp only [hi, if_false, Client.setAt, assign_apply, destry_server, destry_exist, copy_server,
      copy_exist]
    by_cases hk : k = i
    · subst hk
      by_cases hj : j = p
      · subst hj
        simp [hp3, hi, CSet.copied, hfree]
      · by_cases h3 : j = 3
        · simp [h3, Ne.symm hp3, hi, CSet.clear]
        · simp [hj, h3, hi]
    · simp [hk]

theorem setAt_renewKey (j k : Nat) (h : j ≠ 3 ∨ k ≠ i) : (renewKey E c i).setAt j k = c.setAt j k := by
  have hne : ¬ (j = 3 ∧ k = i) := by omega
  unfold renewKey
  split
  · rfl
  · simp only [Client.setAt, assign_apply, hne, if_false]

def CSet.rekey (key : Block) : CSet → CSet
  | .client data => .client data
  | .server _ set exist => .server key set exist

theorem setAt_renewKey_self :
    (renewKey E c i).setAt 3 i = (c.setAt 3 i).rekey (E.newKey c.updateCounter i) := by
  unfold renewKey Client.setAt
  by_cases hi : i < localSize
  · simp only [hi, if_true, CSet.rekey]
  · simp only [hi, if_false, CSet.rekey, assign_apply, and_self, if_true]

theorem stored_clear_rekey (s : CSet) (key : Block) : Stored E (s.clear.rekey key) [] := by
  cases s with
  | client data => exact Numbered.empty _
  | server key set exist => exact Numbered.empty _

def CSet.isFree : CSet → Bool
  | .client data => decide (data.pairs.length = 0)
  | .server _ _ exist => !exist

theorem free_eq (c : Client) (j i : Nat) : free c j i = (c.setAt j i).isFree := by
  unfold free Client.setAt
  split <;> rfl

theorem freePlace_congr {c' : Client} (h : ∀ j, j < 3 → c'.setAt j i = c.setAt j i) :
    freePlace c' i = freePlace c i := by
  simp only [freePlace, free_eq, h 0 (by omega), h 1 (by omega), h 2 (by omega)]

theorem freePlace_some {p : Nat} (h : freePlace c i = some p) : p < 3 ∧ free c p i = true := by
  unfold freePlace at h
  split at h
  · next h0 => exact Option.some.inj h ▸ ⟨by omega, h0⟩
  · split at h
    · next h1 => exact Option.some.inj h ▸ ⟨by omega, h1⟩
    · split at h
      · next h2 => exact Option.some.inj h ▸ ⟨by omega, h2⟩
      · cases h

/-- What completing the NEW set of level `m + 1` changes, with `p` the place it takes. -/
structure Completed (E : Env) (c c' : Client) (setup : Bool) (m p : Nat) : Prop where
  l : c'.l = c.l
  updateCounter : c'.updateCounter = c.updateCounter
  cnt : c'.cnt = Function.update c.cnt (m + 1) 0
  oldest : c'.setAt 0 m = (c.setAt 2 m).copied
  older : ∀ j, j = 1 ∨ j = 2 → c'.setAt j m = (c.setAt j m).clear
  placed : c'.setAt p (m + 1) = (c.setAt 3 (m + 1)).copied
  new : Stored E (c'.setAt 3 (m + 1)) []
  newKey : ∀ l n, m + 1 < l → (∃ t : Nat, t ≤ n ∧ c.updateCounter = t) →
    (c'.setAt 3 (m + 1)).KeyOk E l n
  sets : ∀ j k, (k ≠ m ∧ k ≠ m + 1) ∨ (k = m ∧ 3 ≤ j) ∨ (k = m + 1 ∧ j < 3 ∧ j ≠ p) →
    c'.setAt j k = c.setAt j k
  data : c'.data 3 0 = c.data 3 0
  dropped : ∀ w e, counter c setup (m + 1) w e = none → counter c' setup (m + 1) w e = none
  counts : ∀ i w e, i ≠ m + 1 → counter c' setup i w e = counter c setup i w e

/-- The counters once those of a complete set are dropped. -/
theorem counter_dropCnt (c : Client) (setup : Bool) (w' : Str) (e' : Int) (i' : Nat) :
    counter (dropCnt c i w e setup) setup i' w' e' = counter c setup i' w' e' ∨
      (i' = i ∧ counter (dropCnt c i w e setup) setup i' w' e' = none) := by
  by_cases hi : i' = i
  · subst hi
    by_cases hloc : i' < localSize
    · by_cases hk : localKey w' e' = localKey w e
      · exact .inr ⟨rfl, by simp [counter, dropCnt, hloc, hk]⟩
      · exact .inl (by simp [counter, dropCnt, hloc, hk])
    · cases setup with
      | true => exact .inl (by simp [counter, dropCnt, hloc])
      | false => exact .inr ⟨rfl, by simp [counter, dropCnt, hloc, FMap.setDummy]⟩
  · left
    by_cases hloc : i < localSize
    · simp [counter, dropCnt, hloc, hi]
    · cases setup <;> simp [counter, dropCnt, hloc, hi]

theorem dropSources_fields (c : Client) (i : Nat) :
    ∃ data L keys, dropSources c i =
      { c with
        data := data
        L := L
        keys := keys } ∧ ∀ k, data 3 k = c.data 3 k := by
  unfold dropSources
  split
  · exact ⟨_, _, _, rfl, fun k => by simp [assign_apply]⟩
  · exact ⟨_, _, _, rfl, fun k => rfl⟩

theorem place_fields (c : Client) (i p : Nat) :
    ∃ data L keys, place c i p =
      { c with
        data := data
        L := L
        keys := keys } ∧ (p < 3 → 1 ≤ i → data 3 0 = c.data 3 0) := by
  unfold place
  split
  · exact ⟨_, _, _, rfl, fun hp hi => by simp [assign_apply, show 3 ≠ p by omega, show 0 ≠ i by omega]⟩
  · exact ⟨_, _, _, rfl, fun _ _ => rfl⟩

theorem renewKey_fields (c : Client) (i : Nat) :
    ∃ keys, renewKey E c i = { c with keys := keys } := by
  unfold renewKey
  split
  · exact ⟨_, rfl⟩
  · exact ⟨_, rfl⟩

theorem setAt_dropCnt (j k : Nat) : (dropCnt c i w e setup).setAt j k = c.setAt j k := by
  obtain ⟨lm, dummies, om, h⟩ := dropCnt_fields c i w e setup
  rw [h]
  rfl

/-- **Completing a set** frees its sources and fills a place that was empty. -/
theorem complete_spec {m p : Nat} (hfree : freePlace c (m + 1) = some p) :
    Completed E c (complete E c (m + 1) w e setup) setup m p := by
  generalize hc3 : ({ dropSources (dropCnt c (m + 1) w e setup) (m + 1) with
    cnt := Function.update (dropSources (dropCnt c (m + 1) w e setup) (m + 1)).cnt (m + 1) 0 } :
    Client) = c3
  have hsets : ∀ j k, c3.setAt j k = if k = m then
        if j = 0 then (c.setAt 2 k).copied
        else if j = 1 ∨ j = 2 then (c.setAt j k).clear else c.setAt j k
      else c.setAt j k := by
    intro j k
    have := setAt_dropSources (c := dropCnt c (m + 1) w e setup) m j k
    simp only [setAt_dropCnt] at this
    rw [← hc3, ← this]
    rfl
  have hfree3 : freePlace c3 (m + 1) = some p := by
    rw [freePlace_congr fun j _ => (hsets j (m + 1)).trans (if_neg (by omega)), hfree]
  have hcomplete : complete E c (m + 1) w e setup = renewKey E (place c3 (m + 1) p) (m + 1) := by
    rw [← hc3] at hfree3 ⊢
    simp only [complete, promote, hfree3]
  obtain ⟨hp, hpfree⟩ := freePlace_some hfree3
  have hplace := setAt_place hp hpfree
  have hrenew := fun j k => setAt_renewKey (E := E) (c := place c3 (m + 1) p) (i := m + 1) j k
  obtain ⟨lm, dummies, om, h1⟩ := dropCnt_fields c (m + 1) w e setup
  obtain ⟨data2, L2, keys2, h2, hd2⟩ := dropSources_fields (dropCnt c (m + 1) w e setup) (m + 1)
  obtain ⟨data4, L4, keys4, h4, hd4⟩ := place_fields c3 (m + 1) p
  obtain ⟨keys5, h5⟩ := renewKey_fields (E := E) (place c3 (m + 1) p) (m + 1)
  have hcounter : ∀ i' w' e', counter (complete E c (m + 1) w e setup) setup i' w' e' =
      counter (dropCnt c (m + 1) w e setup) setup i' w' e' := by
    intro i' w' e'
    rw [hcomplete, h5, h4, ← hc3, h2]
    rfl
  rw [hcomplete] at hcounter ⊢
  refine ⟨?_, ?_, ?_, ?_, ?_, ?_, ?_, ?_, ?_, ?_, ?_, ?_⟩
  · rw [h5, h4, ← hc3, h2, h1]
  · rw [h5, h4, ← hc3, h2, h1]
  · rw [h5, h4, ← hc3, h2, h1]
  · rw [hrenew _ _ (.inl (by omega)), hplace, if_neg (by omega), hsets, if_pos rfl, if_pos rfl]
  · intro j hj
    rw [hrenew _ _ (.inr (by omega)), hplace, if_neg (by omega), hsets, if_pos rfl,
      if_neg (by omega), if_pos hj]
  · rw [hrenew _ _ (.inl (by omega)), hplace, if_pos rfl, if_pos rfl, hsets, if_neg (by omega)]
  · rw [setAt_renewKey_self, hplace, if_pos rfl, if_neg (by omega), if_pos rfl]
    exact stored_clear_rekey _ _
  · rintro l n hl ⟨t, ht, htime⟩
    have hnow : (place c3 (m + 1) p).updateCounter = t := by rw [h4, ← hc3, h2, h1, htime]
    rw [setAt_renewKey_self, hnow]
    cases (place c3 (m + 1) p).setAt 3 (m + 1) with
    | client data => trivial
    | server key set exist => exact ⟨m + 1, hl, .inr ⟨t, ht, rfl⟩⟩
  · intro j k h
    rw [hrenew _ _ (by omega), hplace]
    rcases h with ⟨h1, h2⟩ | ⟨h1, h2⟩ | ⟨h1, h2, h3⟩
    · rw [if_neg h2, hsets, if_neg h1]
    · rw [if_neg (by omega), hsets, if_pos h1, if_neg (by omega), if_neg (by omega)]
    · rw [if_pos h1, if_neg h3, if_neg (by omega), hsets, if_neg (by omega), h1]
  · rw [h5, h4]
    refine (hd4 hp (by omega)).trans ?_
    rw [← hc3, h2]
    refine (hd2 0).trans ?_
    rw [h1]
  · intro w' e' hnone
    rw [hcounter]
    rcases counter_dropCnt c setup w' e' (m + 1) with h | ⟨-, h⟩
    · rw [h, hnone]
    · exact h
  · intro i' w' e' hne
    rw [hcounter]
    rcases counter_dropCnt c setup w' e' i' with h | ⟨h, -⟩
    · exact h
    · exact absurd h hne

end SmallClientSSE.DeAmortized
