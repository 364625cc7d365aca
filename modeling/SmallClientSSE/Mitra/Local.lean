import SmallClientSSE.Mitra.Fresh
import SmallClientSSE.Mitra.Isolation

/-!
# The counters of Mitra with and without `localStorage`

The local branch keeps `FileCnt` and `SrcCnt` under the keyword buffer, the OMAP
branch keeps both under the keyword. `localPair` and `omapPair` are the counters
the next operation on a keyword uses. The clean-up of a local search writes under
the buffer that the address derivation left behind (`Derived`), so that it counts
for no keyword: the pairs agree until a stored keyword is searched for with
`deleteFiles` (`Cleaned`).
-/

namespace SmallClientSSE.Mitra

open Lib

def updatesOn (w : Str) (calls : List Call) : Nat := calls.countP fun
  | .update _ k _ _ => k == w
  | _ => false

/-- A stored keyword is searched for. -/
def Cleaned (w : Str) (calls : List Call) : Prop :=
  ∃ pre post, calls = pre ++ .search w :: post ∧ 0 < updatesOn w pre

def localPair (c : Client) (w : Str) : Int × Int :=
  ((c.FileCnt (kw w)).getD 0, if c.deleteFiles then (c.SrcCnt (kw w)).getD 0 else 0)

def omapPair (setup : Bool) (c : Client) (w : Str) : Option (Int × Int) :=
  let fileCntStr := (mapOf setup c).find (Bid.ofStr w)
  if fileCntStr ≠ [] then parsePair fileCntStr else some (0, 0)

section

variable {w u : Str} {calls : List Call} {a : Call}

theorem updatesOn_append (w : Str) (cs ds : List Call) :
    updatesOn w (cs ++ ds) = updatesOn w cs + updatesOn w ds := by
  simp [updatesOn]

theorem updatesOn_le (w : Str) (calls : List Call) : updatesOn w calls ≤ callsOn w calls := by
  refine List.countP_mono_left fun c _ h => ?_
  cases c with
  | update _ k _ _ => exact h
  | search k => cases h
  | endSetup => cases h

theorem cleaned_snoc : Cleaned w (calls ++ [a]) ↔
    Cleaned w calls ∨ (a = .search w ∧ 0 < updatesOn w calls) := by
  constructor
  · rintro ⟨pre, post, h, hpos⟩
    rcases List.eq_nil_or_concat post with rfl | ⟨post, b, rfl⟩
    · obtain ⟨rfl, h2⟩ := List.append_inj' h rfl
      exact .inr ⟨(List.cons.inj h2).1, hpos⟩
    · rw [List.concat_eq_append, ← List.cons_append, ← List.append_assoc] at h
      exact .inl ⟨pre, post, (List.append_inj' h rfl).1, hpos⟩
  · rintro (⟨pre, post, rfl, hpos⟩ | ⟨rfl, hpos⟩)
    · exact ⟨pre, post ++ [a], by simp, hpos⟩
    · exact ⟨calls, [], rfl, hpos⟩

theorem Cleaned.mono {all : List Call} (h : Cleaned w calls) (hp : calls <+: all) :
    Cleaned w all := by
  obtain ⟨t, rfl⟩ := hp
  obtain ⟨pre, post, rfl, hpos⟩ := h
  exact ⟨pre, post ++ t, by simp, hpos⟩

theorem kw_inj (hw : Keyword w) (hu : Keyword u) (h : kw w = kw u) : w = u := by
  have hw2 := hw.2.2
  have hu2 := hu.2.2
  refine nulFree_ext hw.1 hu.1 hw.2.2 hu.2.2 fun i hi => ?_
  have := congrArg (fun b : Block => b.at' i) h
  simpa only [kw, Buf.copyStr_zero_at _ _ (show i < 16 by omega)] using this

end

/-! ## The buffer after an operation -/

/-- A buffer the address derivation went through, with a positive record number. -/
def Derived (df : Bool) (k : Block) : Prop :=
  ∃ k0 o s c, 1 ≤ c ∧ c < 2 ^ 31 ∧ k = prfInput df k0 o s c

section

variable {E : Env} {df : Bool} {w u : Str} {k : Block}

theorem Derived.ne_kw (h : Derived df k) (hw : Keyword w) : k ≠ kw w := by
  rintro rfl
  obtain ⟨k0, o, s, c, h1, h2, he⟩ := h
  have hw2 := hw.2.2
  have hc : c = 0 := by
    refine Buf.leByte_inj ⟨by omega, by omega⟩ ⟨by decide, by decide⟩ fun j hj => ?_
    have := congrArg (fun b : Block => b.at' (12 + j)) he
    simp only [kw] at this
    rw [Buf.copyStr_zero_at _ _ (by omega), prfInput_at _ _ _ _ _ _ (by omega), if_pos (by omega),
      List.getD_eq_default _ _ (by omega)] at this
    rw [show 12 + j - 12 = j by omega] at this
    rw [← this]
    simp [Buf.leByte]
  omega

theorem derived_addresses (src : Int) : ∀ (n : Nat) (i : Int) (k : Block), 1 ≤ i →
    i + n ≤ 2 ^ 31 → (0 < n ∨ Derived df k) → Derived df (addresses E df src k i n).1 := by
  intro n
  induction n with
  | zero => exact fun i k _ _ h => h.resolve_left (Nat.lt_irrefl 0)
  | succ n ih =>
    intro i k h1 h2 _
    exact ih (i + 1) _ (by omega) (by push_cast at h2; omega)
      (.inr ⟨k, 0, src, i, h1, by push_cast at h2; omega, rfl⟩)

theorem derived_decodeAll (src : Int) : ∀ (vs : List Block) (i : Int) (k : Block), 1 ≤ i →
    i + vs.length ≤ 2 ^ 31 → Derived df k → Derived df (decodeAll E df src k i vs).1 := by
  intro vs
  induction vs with
  | nil => exact fun i k _ _ h => h
  | cons v vs ih =>
    intro i k h1 h2 _
    rw [List.length_cons] at h2
    exact ih (i + 1) _ (by omega) (by push_cast at h2; omega)
      ⟨k, 1, src, i, h1, by push_cast at h2; omega, rfl⟩

/-- A clean-up changes the client's random bytes only, and ends with a derived buffer. -/
theorem derived_rewrite (src : Int) : ∀ (inds : List CInt) (c : Client) (s : Server) (k : Block)
    (cnt : Int), c.deleteFiles = df → 0 ≤ cnt → cnt + inds.length < 2 ^ 31 → Derived df k →
    ∃ n s' k', rewrite E src c s k cnt inds = ({ c with rands := n }, s', k', cnt + inds.length) ∧
      Derived df k' := by
  intro inds
  induction inds with
  | nil => exact fun c s k cnt _ _ _ hk => ⟨c.rands, s, k, by simp [rewrite], hk⟩
  | cons ind inds ih =>
    intro c s k cnt hc h0 h1 hk
    rw [List.length_cons] at h1
    push_cast at h1
    obtain ⟨n, s', k', hrw, hk'⟩ := ih (put E c s k .INS ind.val src (cnt + 1)).1
      (put E c s k .INS ind.val src (cnt + 1)).2.1 (put E c s k .INS ind.val src (cnt + 1)).2.2
      (cnt + 1) hc (by omega) (by omega)
      ⟨_, 1, src, cnt + 1, by omega, by omega, by rw [← hc]; rfl⟩
    refine ⟨n, s', k', ?_, hk'⟩
    have hstep : rewrite E src c s k cnt (ind :: inds) =
        rewrite E src (put E c s k .INS ind.val src (cnt + 1)).1
          (put E c s k .INS ind.val src (cnt + 1)).2.1
          (put E c s k .INS ind.val src (cnt + 1)).2.2 (cnt + 1) inds := rfl
    rw [hstep, hrw]
    simp only [put, List.length_cons, Prod.mk.injEq, true_and]
    push_cast
    omega

end

/-! ## The local branch -/

/-- The local maps after `calls`: the clean-ups of searches are not seen. -/
structure LocalInv (df : Bool) (calls : List Call) (c : Client) : Prop where
  mode : c.deleteFiles = df
  own : c.localStorage = true
  files : ∀ w, Keyword w →
    c.FileCnt (kw w) = if updatesOn w calls = 0 then none else some (updatesOn w calls : Int)
  srcs : ∀ w, Keyword w → (c.SrcCnt (kw w)).getD 0 = 0

section

variable {E : Env} {df : Bool} {w u : Str} {calls : List Call} {c : Client} {s : Server}

theorem LocalInv.pair (h : LocalInv df calls c) (hw : Keyword w) :
    localPair c w = ((updatesOn w calls : Int), 0) := by
  rw [localPair, h.files w hw, h.srcs w hw]
  split
  · next h0 => simp [h0]
  · simp

theorem localInv_init : LocalInv df [] (Client.init df true) :=
  ⟨rfl, rfl, fun _ _ => rfl, fun _ _ => rfl⟩

theorem LocalInv.frame {c' : Client} {a : Call} (h : LocalInv df calls c)
    (hmode : c'.deleteFiles = c.deleteFiles) (hown : c'.localStorage = c.localStorage)
    (ha : ∀ w, updatesOn w [a] = 0)
    (hf : ∀ w, Keyword w → c'.FileCnt (kw w) = c.FileCnt (kw w))
    (hs : ∀ w, Keyword w → (c'.SrcCnt (kw w)).getD 0 = (c.SrcCnt (kw w)).getD 0) :
    LocalInv df (calls ++ [a]) c' where
  mode := hmode.trans h.mode
  own := hown.trans h.own
  files w hw := by rw [hf w hw, h.files w hw, updatesOn_append, ha, Nat.add_zero]
  srcs w hw := (hs w hw).trans (h.srcs w hw)

theorem bumpLocal_fields (c : Client) (k : Block) :
    (bumpLocal c k).1.FileCnt =
        Function.update c.FileCnt k (some ((c.FileCnt k).getD 0 + 1)) ∧
      (∀ j, ((bumpLocal c k).1.SrcCnt j).getD 0 = (c.SrcCnt j).getD 0) ∧
      (bumpLocal c k).1.deleteFiles = c.deleteFiles ∧
      (bumpLocal c k).1.localStorage = c.localStorage := by
  have hsrc : ∀ j, (Function.update c.SrcCnt k (some ((c.SrcCnt k).getD 0)) j).getD 0 =
      (c.SrcCnt j).getD 0 := fun j => by
    by_cases hj : j = k
    · rw [hj, Function.update_self]
      rfl
    · rw [Function.update_of_ne hj]
  cases hf : c.FileCnt k <;> cases hd : c.deleteFiles <;> simp [bumpLocal, hf, hd, hsrc]

theorem LocalInv.update (h : LocalInv df calls c) (hu : Keyword u) (op : OP) (ind : CInt)
    (setup : Bool) : ∃ st, update E c s op u ind setup = some st ∧
      LocalInv df (calls ++ [.update op u ind setup]) st.1 := by
  obtain ⟨hfiles, hsrcs, hmode, hown⟩ := bumpLocal_fields c (kw u)
  have hfile : ∀ w, Keyword w → (bumpLocal c (kw u)).1.FileCnt (kw w) =
      if updatesOn w (calls ++ [.update op u ind setup]) = 0 then none
      else some (updatesOn w (calls ++ [.update op u ind setup]) : Int) := fun w hw => by
    have hold := h.files w hw
    rw [hfiles, updatesOn_append]
    by_cases hwu : u = w
    · subst hwu
      have hone : updatesOn u [.update op u ind setup] = 1 := by simp [updatesOn]
      rw [Function.update_self, hone, if_neg (by omega), hold]
      by_cases h0 : updatesOn u calls = 0
      · rw [if_pos h0, h0]
        rfl
      · rw [if_neg h0]
        push_cast
        rfl
    · have hzero : updatesOn w [.update op u ind setup] = 0 := by simp [updatesOn, hwu]
      rw [Function.update_of_ne fun e => hwu (kw_inj hw hu e).symm, hzero, Nat.add_zero, hold]
  refine ⟨_, by simp only [Mitra.update, h.own, if_true]; rfl, ?_⟩
  exact ⟨hmode.trans h.mode, hown.trans h.own, hfile, fun w hw => (hsrcs _).trans (h.srcs w hw)⟩

/-- The clean-up of a local search, by what writing the ids back does. -/
theorem cleanUp_own {k k' : Block} {src m : Int} {inds : List CInt} {n : Nat} {s' : Server}
    (hown : c.localStorage = true)
    (hrw : rewrite E (src + 1) { c with
          SrcCnt := Function.update c.SrcCnt k (some ((c.SrcCnt k).getD 0 + 1)) } s k 0 inds =
      ({ c with
        SrcCnt := Function.update c.SrcCnt k (some ((c.SrcCnt k).getD 0 + 1))
        rands := n }, s', k', m)) :
    cleanUp E c s k u src inds = ({ c with
        SrcCnt := Function.update c.SrcCnt k (some ((c.SrcCnt k).getD 0 + 1))
        rands := n
        FileCnt := Function.update c.FileCnt k' (some m) }, s') := by
  obtain ⟨df, ls, omap, files, srcs, setup, rands⟩ := c
  obtain rfl : ls = true := hown
  simp only [cleanUp, if_true]
  rw [hrw]
  rfl

/-- **A local search** leaves the entries of all keywords alone. -/
theorem LocalInv.search (h : LocalInv df calls c) (hu : Keyword u)
    (hfit : updatesOn u calls < 2 ^ 31) : ∃ res st, Mitra.search E c s u = some (res, st) ∧
      LocalInv df (calls ++ [.search u]) st.1 := by
  have hfile := h.files u hu
  have hnew : ∀ w, updatesOn w [.search u] = 0 := fun _ => rfl
  by_cases h0 : updatesOn u calls = 0
  · rw [if_pos h0] at hfile
    refine ⟨[], (c, s), ?_, h.frame rfl rfl hnew (fun _ _ => rfl) fun _ _ => rfl⟩
    simp [Mitra.search, searchCounters, h.own, hfile]
  rw [if_neg h0] at hfile
  -- the buffer goes through the addresses and the masks before the clean-up writes under it
  let KList := addresses E df 0 (kw u) 1 (updatesOn u calls)
  let found := (s.search KList.2).1
  let decoded := decodeAll E df 0 KList.1 1 found
  let inds := Tally.below (Tally.tally decoded.2)
  cases df with
  | false =>
    refine ⟨inds, (c, (s.search KList.2).2), ?_,
      h.frame rfl rfl hnew (fun _ _ => rfl) fun _ _ => rfl⟩
    simp [Mitra.search, searchCounters, h.own, hfile, h.mode, inds, decoded, found, KList]
  | true =>
    have hsrc := h.srcs u hu
    let c1 : Client := { c with SrcCnt := Function.update c.SrcCnt (kw u) (some 0) }
    have hlen : KList.2.length = updatesOn u calls := by
      have hk : SameKw true u (kw u) := sameKw_kw
      have := (@addresses_spec E true u 0 (updatesOn u calls) 1 _ hk).1
      rw [Nat.cast_one, Nat.cast_zero] at this
      rw [show KList.2 = _ from this, List.length_map, List.length_range']
    have hfound : found.length ≤ updatesOn u calls := by
      refine (List.length_filter_le _ _).trans ?_
      rw [List.length_map, hlen]
    have hinds : inds.length ≤ updatesOn u calls := by
      refine (Tally.length_below_tally_le _).trans ?_
      rw [show decoded.2.length = found.length from length_decodeAll _ _ _ _]
      exact hfound
    have hk1 : Derived true KList.1 :=
      derived_addresses 0 _ 1 _ (Int.le_refl 1) (by omega) (.inl (by omega))
    have hk2 : Derived true decoded.1 :=
      derived_decodeAll 0 found 1 _ (Int.le_refl 1) (by omega) hk1
    obtain ⟨n, s', k', hrw, hk'⟩ := derived_rewrite (E := E) 1 inds { c1 with
        SrcCnt := Function.update c1.SrcCnt decoded.1 (some ((c1.SrcCnt decoded.1).getD 0 + 1)) }
      (s.search KList.2).2 decoded.1 0 h.mode (Int.le_refl 0) (by omega) hk2
    let c2 : Client := { c1 with
      SrcCnt := Function.update c1.SrcCnt decoded.1 (some ((c1.SrcCnt decoded.1).getD 0 + 1))
      rands := n
      FileCnt := Function.update c1.FileCnt k' (some (0 + (inds.length : Int))) }
    have hclean : cleanUp E c1 (s.search KList.2).2 decoded.1 u 0 inds = (c2, s') :=
      cleanUp_own h.own hrw
    refine ⟨inds, (c2, s'), ?_, h.frame rfl rfl hnew (fun w hw => ?_) fun w hw => ?_⟩
    · have hcnt : searchCounters c (kw u) u =
          some (some ((updatesOn u calls : Int), 0), c1) := by
        simp [searchCounters, h.own, hfile, h.mode, hsrc, c1]
      have hmode1 : c1.deleteFiles = true := h.mode
      simp only [Mitra.search, hcnt, Option.bind_eq_bind, Option.bind_some, hmode1, if_true,
        Int.toNat_natCast]
      exact congrArg some (Prod.ext rfl hclean)
    · exact Function.update_of_ne (hk'.ne_kw hw).symm _ _
    · show (Function.update c1.SrcCnt decoded.1 _ (kw w)).getD 0 = _
      rw [Function.update_of_ne (hk2.ne_kw hw).symm]
      by_cases hwu : kw w = kw u
      · rw [hwu, hsrc]
        simp [c1]
      · simp [c1, Function.update_of_ne hwu]

end

/-! ## The OMAP branch -/

structure Counted (df : Bool) (calls : List Call) (m : FMap 16) (w : Str) (len src : Nat) :
    Prop where
  text : m (Bid.ofStr w) = cntText len src
  len_le : len ≤ callsOn w calls
  src_le : src ≤ callsOn w calls
  exact : df = false ∨ ¬ Cleaned w calls → src = 0 ∧ len = updatesOn w calls
  cleaned : df = true → Cleaned w calls → 0 < src

structure OmapInv (df : Bool) (calls : List Call) (setup : Bool) (c : Client) : Prop where
  mode : c.deleteFiles = df
  remote : c.localStorage = false
  empty : setup = true → c.omap = fun _ => none
  texts : ∀ w, Keyword w → ∃ len src, Counted df calls (mapOf setup c) w len src

section

variable {E : Env} {df : Bool} {w u : Str} {calls : List Call} {c : Client} {s : Server}

theorem omapPair_eq {setup : Bool} {len src : Nat} (h : Counted df calls (mapOf setup c) w len src)
    (hfit : callsOn w calls < 2 ^ 31) : omapPair setup c w = some ((len : Int), (src : Int)) := by
  have hl := h.len_le
  have hs := h.src_le
  unfold omapPair
  rw [cntText_find _ _ h.text]
  by_cases hz : src = 0 ∧ len = 0
  · obtain ⟨rfl, rfl⟩ := hz
    rfl
  · simp [hz, pairStr_ne_nil,
      parsePair_cnt (show len < 2 ^ 31 by omega) (show src < 2 ^ 31 by omega)]

theorem not_cleaned_nil : ¬ Cleaned w [] := by
  rintro ⟨pre, post, h, -⟩
  simp at h

theorem omapInv_init (setup : Bool) : OmapInv df [] setup (Client.init df false) :=
  ⟨rfl, rfl, fun _ => rfl, fun w _ => ⟨0, 0, by cases setup <;> rfl, Nat.le_refl _, Nat.le_refl _,
    fun _ => ⟨rfl, rfl⟩, fun _ h => absurd h not_cleaned_nil⟩⟩

/-- A call that leaves the text of `w` alone and does not count for it. -/
theorem Counted.frame {m m' : FMap 16} {a : Call} {len src : Nat}
    (h : Counted df calls m w len src) (hm : m' (Bid.ofStr w) = m (Bid.ofStr w))
    (hupd : updatesOn w [a] = 0) (hsrch : a = .search w → df = true → updatesOn w calls = 0) :
    Counted df (calls ++ [a]) m' w len src where
  text := hm.trans h.text
  len_le := h.len_le.trans (callsOn_mono (List.prefix_append _ _))
  src_le := h.src_le.trans (callsOn_mono (List.prefix_append _ _))
  exact hc := by
    rw [updatesOn_append, hupd, Nat.add_zero]
    exact h.exact (hc.imp id fun h hn => h (hn.mono (List.prefix_append _ _)))
  cleaned hdf hc := by
    rcases cleaned_snoc.mp hc with hc | ⟨ha, hpos⟩
    · exact h.cleaned hdf hc
    · exact absurd (hsrch ha hdf) hpos.ne'

theorem ofStr_ne_of_ne (hw : Keyword w) (hu : Keyword u) (h : w ≠ u) :
    (Bid.ofStr w : Bid 16) ≠ Bid.ofStr u := by
  have hw2 := hw.2.2
  have hu2 := hu.2.2
  exact fun e => h (Bid.ofStr_inj hw.1 hu.1 (by omega) (by omega) e)

theorem OmapInv.update {setup : Bool} (h : OmapInv df calls setup c) (hu : Keyword u)
    (hfit : callsOn u calls + 1 < 2 ^ 31) (op : OP) (ind : CInt) :
    ∃ st, Mitra.update E c s op u ind setup = some st ∧
      OmapInv df (calls ++ [.update op u ind setup]) setup st.1 := by
  obtain ⟨len, src, ht⟩ := h.texts u hu
  have hl := ht.len_le
  have hs := ht.src_le
  obtain ⟨c1, hbump, hmode, hrem, hom, hmap⟩ :=
    bumpOmap_spec ht.text (show len + 1 < 2 ^ 31 by omega) (show src < 2 ^ 31 by omega)
  refine ⟨_, by simp only [Mitra.update, h.remote, Bool.false_eq_true, if_false, hbump,
    Option.bind_eq_bind, Option.bind_some]; rfl, hmode.trans h.mode, hrem.trans h.remote,
    fun hset => (hom hset).trans (h.empty hset), fun w hw => ?_⟩
  show ∃ len src, Counted df _ (mapOf setup c1) w len src
  by_cases hwu : w = u
  · subst hwu
    have hone : updatesOn w [.update op w ind setup] = 1 := by simp [updatesOn]
    have hself : callsOn w (calls ++ [.update op w ind setup]) = callsOn w calls + 1 :=
      callsOn_snoc_self (by simp [Call.touches])
    have hclean : Cleaned w (calls ++ [.update op w ind setup]) ↔ Cleaned w calls := by
      simp [cleaned_snoc]
    refine ⟨len + 1, src, ?_, by omega, by omega, fun hc => ?_, fun hdf hc => ?_⟩
    · rw [hmap, FMap.insert_self, cntText, if_neg (by omega)]
    · rw [hclean] at hc
      have := ht.exact hc
      rw [updatesOn_append, hone]
      omega
    · exact ht.cleaned hdf (hclean.mp hc)
  · obtain ⟨len', src', ht'⟩ := h.texts w hw
    refine ⟨len', src', ht'.frame ?_ (by simp [updatesOn, Ne.symm hwu]) fun ha => by cases ha⟩
    rw [hmap, FMap.insert_of_ne _ (ofStr_ne_of_ne hw hu hwu)]

theorem OmapInv.search (h : OmapInv df calls false c) (hu : Keyword u)
    (hfit : callsOn u calls < 2 ^ 31) : ∃ res st, Mitra.search E c s u = some (res, st) ∧
      OmapInv df (calls ++ [.search u]) false st.1 := by
  obtain ⟨len, src, ht⟩ := h.texts u hu
  have hl := ht.len_le
  have hs := ht.src_le
  have hfind := cntText_find _ _ ht.text
  have hkeep : (df = true → updatesOn u calls = 0) →
      OmapInv df (calls ++ [.search u]) false c := fun h0 =>
    ⟨h.mode, h.remote, h.empty, fun w hw => by
      obtain ⟨len', src', ht'⟩ := h.texts w hw
      refine ⟨len', src', ht'.frame rfl rfl fun ha hdf => ?_⟩
      rw [← (Call.search.inj ha)]
      exact h0 hdf⟩
  by_cases hz : src = 0 ∧ len = 0
  · rw [if_pos hz] at hfind
    refine ⟨[], (c, s), ?_, hkeep fun hdf => ?_⟩
    · simp [Mitra.search, searchCounters, h.remote, show c.omap.find (Bid.ofStr u) = [] from hfind]
    · have hnot : ¬ Cleaned u calls := fun hc => absurd (ht.cleaned hdf hc) (by omega)
      have := ht.exact (.inr hnot)
      omega
  rw [if_neg hz] at hfind
  have hcnt : searchCounters c (kw u) u = some (some ((len : Int), (src : Int)), c) := by
    simp [searchCounters, h.remote, show c.omap.find (Bid.ofStr u) = _ from hfind,
      pairStr_ne_nil, parsePair_cnt (show len < 2 ^ 31 by omega) (show src < 2 ^ 31 by omega)]
  let KList := addresses E df src (kw u) 1 len
  let found := (s.search KList.2).1
  let decoded := decodeAll E df src KList.1 1 found
  let inds := Tally.below (Tally.tally decoded.2)
  have hrun : Mitra.search E c s u = some (inds, if df then
      cleanUp E c (s.search KList.2).2 decoded.1 u src inds else (c, (s.search KList.2).2)) := by
    simp only [Mitra.search, hcnt, Option.bind_eq_bind, Option.bind_some, h.mode,
      Int.toNat_natCast]
    cases df <;> rfl
  cases df with
  | false => exact ⟨inds, _, hrun, hkeep fun h => by cases h⟩
  | true =>
    have hk : SameKw true u (kw u) := sameKw_kw
    have ha := @addresses_spec E true u src len 1 _ hk
    rw [Nat.cast_one] at ha
    have hk2 : SameKw true u decoded.1 := sameKw_decodeAll src found _ 1 ha.2
    obtain ⟨n, hclean, -⟩ := cleanUp_eq (E := E) (s := (s.search KList.2).2) h.mode h.remote hk2 u
      src inds
    have hinds : inds.length ≤ len := by
      refine (Tally.length_below_tally_le _).trans ?_
      rw [show decoded.2.length = found.length from length_decodeAll _ _ _ _]
      refine (List.length_filter_le _ _).trans ?_
      rw [List.length_map, show KList.2 = _ from ha.1, List.length_map, List.length_range']
    rw [if_pos rfl, hclean] at hrun
    refine ⟨inds, _, hrun, h.mode, h.remote, fun h => (by cases h), fun w hw => ?_⟩
    show ∃ len src, Counted true _ (c.omap.insert (Bid.ofStr u) _) w len src
    by_cases hwu : w = u
    · subst hwu
      have hself : callsOn w (calls ++ [.search w]) = callsOn w calls + 1 :=
        callsOn_snoc_self (by simp [Call.touches])
      refine ⟨inds.length, src + 1, ?_, by omega, by omega, fun hc => ?_, fun _ _ => by omega⟩
      · rw [FMap.insert_self, cntText, if_neg (by omega)]
        rfl
      · -- a stored text without a clean-up comes from updates
        rcases hc with hc | hc
        · cases hc
        · have hnot : ¬ Cleaned w calls := fun h => hc (h.mono (List.prefix_append _ _))
          obtain ⟨h1, h2⟩ := ht.exact (.inr hnot)
          exact absurd (cleaned_snoc.mpr (.inr ⟨rfl, by omega⟩)) hc
    · obtain ⟨len', src', ht'⟩ := h.texts w hw
      refine ⟨len', src', ht'.frame ?_ rfl fun ha => absurd (Call.search.inj ha).symm hwu⟩
      exact FMap.insert_of_ne _ (ofStr_ne_of_ne hw hu hwu)

theorem OmapInv.endSetup (h : OmapInv df calls true c) :
    OmapInv df (calls ++ [.endSetup]) false (Mitra.endSetup c) := by
  rw [endSetup_eq h.remote]
  refine ⟨h.mode, h.remote, fun h => (by cases h), fun w hw => ?_⟩
  obtain ⟨len, src, ht⟩ := h.texts w hw
  refine ⟨len, src, ht.frame ?_ rfl fun h => by cases h⟩
  simp only [mapOf, Bool.false_eq_true, if_false, if_true]
  rw [testInserts_apply hw.1 hw.2.1, h.empty rfl]
  simp [FMap.setupInsert]

end

/-! ## Runs -/

section

variable {E : Env} {df : Bool} {w : Str} {calls pre rest : List Call} {a : Call}

/-- The phase of a call: setup while `endSetup` is still to come. -/
theorem Phased.phase (h : Phased calls) (he : calls = pre ++ a :: rest) :
    (∀ op u ind s, a = .update op u ind s → s = decide (Call.endSetup ∈ rest)) ∧
      ((∃ u, a = .search u) ∨ a = .endSetup → Call.endSetup ∉ rest) := by
  have honline : ∀ {cs : List Call}, (∀ c ∈ cs, c.isOnline = true) → Call.endSetup ∉ cs :=
    fun h hmem => by simpa [Call.isOnline] using h _ hmem
  have hafter : ∀ {cs : List Call}, (∀ c ∈ cs, c.isOnline = true) → a ∈ cs → rest ⊆ cs →
      (∀ op u ind s, a = .update op u ind s → s = decide (Call.endSetup ∈ rest)) ∧
        ((∃ u, a = .search u) ∨ a = .endSetup → Call.endSetup ∉ rest) := fun h ha hsub => by
    have hnot : Call.endSetup ∉ rest := fun hm => honline h (hsub hm)
    refine ⟨?_, fun _ => hnot⟩
    rintro op u ind s rfl
    simpa [Call.isOnline, hnot] using h _ ha
  cases h with
  | online h => exact hafter h (by simp [he]) (by simp [he])
  | @setup ps cs hp hc =>
    rcases List.append_eq_append_iff.mp he with ⟨as, rfl, has⟩ | ⟨bs, rfl, hbs⟩
    · cases as with
      | nil =>
        obtain ⟨rfl, rfl⟩ := List.cons.inj has
        exact ⟨fun _ _ _ _ h => (by cases h), fun _ => honline hc⟩
      | cons b as =>
        obtain ⟨-, rfl⟩ := List.cons.inj has
        exact hafter hc (by simp) (by simp)
    · cases bs with
      | nil =>
        obtain ⟨rfl, rfl⟩ := List.cons.inj hbs
        exact ⟨fun _ _ _ _ h => (by cases h), fun _ => honline hc⟩
      | cons b bs =>
        obtain ⟨rfl, rfl⟩ := List.cons.inj hbs
        have ha := hp a (by simp)
        refine ⟨?_, ?_⟩
        · rintro op u ind s rfl
          simpa [Call.isSetup] using ha
        · rintro (⟨u, rfl⟩ | rfl) <;> simp [Call.isSetup] at ha

/-- **Both branches run** and keep their counters. -/
theorem both_run (hph : Phased calls) (hkw : ∀ c ∈ calls, ∀ w ∈ c.keyword?, Keyword w)
    (hfit : ∀ w, callsOn w calls < 2 ^ 31) : ∀ {pre rest : List Call}, calls = pre ++ rest →
      ∃ l o, runCalls E df true pre = some l ∧ runCalls E df false pre = some o ∧
        LocalInv df pre l.1 ∧ OmapInv df pre (decide (Call.endSetup ∈ rest)) o.1 := by
  intro pre
  induction pre using List.reverseRecOn with
  | nil => exact fun _ => ⟨_, _, rfl, rfl, localInv_init, omapInv_init _⟩
  | append_singleton pre a ih =>
    intro rest he
    rw [List.append_assoc, List.singleton_append] at he
    obtain ⟨l, o, hl, ho, hL, hO⟩ := ih he
    obtain ⟨hupd, hfin⟩ := hph.phase he
    have hfit' : ∀ w, callsOn w pre < 2 ^ 31 := fun w =>
      lt_of_le_of_lt (callsOn_mono ⟨_, he.symm⟩) (hfit w)
    have ha : a ∈ calls := by simp [he]
    cases a with
    | update op u ind setup =>
      have hu := hkw _ ha u rfl
      obtain rfl := hupd op u ind setup rfl
      rw [show decide (Call.endSetup ∈ Call.update op u ind _ :: rest) =
        decide (Call.endSetup ∈ rest) by simp] at hO
      obtain ⟨l', hl', hL'⟩ := hL.update (E := E) (s := l.2) hu op ind _
      have hnext : callsOn u pre + 1 ≤ callsOn u calls := by
        rw [← callsOn_snoc_self (a := .update op u ind _) (by simp [Call.touches])]
        exact callsOn_mono ⟨rest, by rw [he, List.append_assoc, List.singleton_append]⟩
      obtain ⟨o', ho', hO'⟩ := hO.update (E := E) (s := o.2) hu (lt_of_le_of_lt hnext (hfit u)) op ind
      exact ⟨l', o', run_snoc hl hl', run_snoc ho ho', hL', hO'⟩
    | search u =>
      have hu := hkw _ ha u rfl
      have hno : Call.endSetup ∉ rest := hfin (.inl ⟨u, rfl⟩)
      rw [show decide (Call.endSetup ∈ Call.search u :: rest) = false by simp [hno]] at hO
      rw [show decide (Call.endSetup ∈ rest) = false by simp [hno]]
      obtain ⟨r, l', hl', hL'⟩ := hL.search (E := E) (s := l.2) hu
        (lt_of_le_of_lt (updatesOn_le u pre) (hfit' u))
      obtain ⟨r', o', ho', hO'⟩ := hO.search (E := E) (s := o.2) hu (hfit' u)
      refine ⟨l', o', run_snoc hl ?_, run_snoc ho ?_, hL', hO'⟩
      · simp [step, hl']
      · simp [step, ho']
    | endSetup =>
      have hno : Call.endSetup ∉ rest := hfin (.inr rfl)
      rw [show decide (Call.endSetup ∈ Call.endSetup :: rest) = true by simp] at hO
      rw [show decide (Call.endSetup ∈ rest) = false by simp [hno]]
      refine ⟨(endSetup l.1, l.2), (endSetup o.1, o.2), run_snoc hl rfl, run_snoc ho rfl, ?_,
        hO.endSetup⟩
      rw [show endSetup l.1 = l.1 by simp [endSetup, hL.own]]
      exact hL.frame rfl rfl (fun _ => rfl) (fun _ _ => rfl) fun _ _ => rfl

end

/-- The two branches use the same counters for `w` after every operation of a run. -/
def CountersAgree (E : Env) (deleteFiles : Bool) (calls : List Call) (w : Str) : Prop :=
  ∀ pre rest, calls = pre ++ rest → ∃ l o, runCalls E deleteFiles true pre = some l ∧
    runCalls E deleteFiles false pre = some o ∧
    omapPair (decide (Call.endSetup ∈ rest)) o.1 w = some (localPair l.1 w)

/-- **The counters agree** after every operation exactly when no search of the keyword cleans up:
`deleteFiles` is off, or the keyword is not searched for once it is stored. -/
theorem counters_agree_iff (E : Env) (deleteFiles : Bool) (calls : List Call) (hph : Phased calls)
    (hkw : ∀ c ∈ calls, ∀ w ∈ c.keyword?, Keyword w) (hfit : ∀ w, callsOn w calls < 2 ^ 31)
    (w : Str) (hw : Keyword w) :
    CountersAgree E deleteFiles calls w ↔ deleteFiles = false ∨ ¬ Cleaned w calls := by
  constructor
  · intro hagree
    by_contra hnot
    obtain ⟨hdf, hclean⟩ := not_or.mp hnot
    have hdf : deleteFiles = true := by simpa using hdf
    have hclean : Cleaned w calls := by simpa using hclean
    have he : calls = calls ++ [] := (List.append_nil calls).symm
    obtain ⟨l, o, hl, ho, hL, hO⟩ := @both_run E deleteFiles _ hph hkw hfit _ _ he
    obtain ⟨l', o', hl', ho', hp⟩ := hagree calls [] he
    obtain rfl := Option.some.inj (hl.symm.trans hl')
    obtain rfl := Option.some.inj (ho.symm.trans ho')
    obtain ⟨len, src, ht⟩ := hO.texts w hw
    rw [omapPair_eq ht (hfit w), hL.pair hw] at hp
    have hpos := ht.cleaned hdf hclean
    have hsrc := (Prod.mk.inj (Option.some.inj hp)).2
    omega
  · intro hok pre rest he
    obtain ⟨l, o, hl, ho, hL, hO⟩ := @both_run E deleteFiles _ hph hkw hfit _ _ he
    obtain ⟨len, src, ht⟩ := hO.texts w hw
    have hpre : pre <+: calls := ⟨rest, he.symm⟩
    obtain ⟨rfl, rfl⟩ := ht.exact (hok.imp id fun h hc => h (hc.mono hpre))
    refine ⟨l, o, hl, ho, ?_⟩
    rw [omapPair_eq ht (lt_of_le_of_lt (callsOn_mono hpre) (hfit w)), hL.pair hw]
    rfl

/-- Two updates and a search, without `deleteFiles`. -/
theorem counters_agree_kept : CountersAgree plainEnv false
    [.update .INS [97] ⟨5, by decide⟩ false, .update .INS [97] ⟨6, by decide⟩ false,
      .search [97]] [97] :=
  (counters_agree_iff plainEnv false _ (.online (by decide)) (by decide)
    (fun _ => lt_of_le_of_lt List.countP_le_length (by decide)) [97] (by decide)).mpr (.inl rfl)

/-- After a search with `deleteFiles` the stored pair is `(1, 1)`, the local one `(1, 0)`. -/
theorem counters_disagree : ¬ CountersAgree plainEnv true
    [.update .INS [97] ⟨5, by decide⟩ false, .search [97]] [97] := by
  intro h
  obtain ⟨l, o, hl, ho, hp⟩ := h _ [] (List.append_nil _).symm
  have hpairs : (runCalls plainEnv true true
      [.update .INS [97] ⟨5, by decide⟩ false, .search [97]]).map (fun l => localPair l.1 [97]) =
        some (1, 0) ∧
      (runCalls plainEnv true false
        [.update .INS [97] ⟨5, by decide⟩ false, .search [97]]).bind
          (fun o => omapPair false o.1 [97]) = some (1, 1) := by decide +kernel
  rw [hl, ho] at hpairs
  obtain ⟨h1, h2⟩ := hpairs
  have h2 : omapPair false o.1 [97] = some (1, 1) := h2
  have hp : omapPair false o.1 [97] = some (localPair l.1 [97]) := hp
  rw [hp] at h2
  exact absurd ((Option.some.inj h1).symm.trans (Option.some.inj h2)) (by decide)

end SmallClientSSE.Mitra
