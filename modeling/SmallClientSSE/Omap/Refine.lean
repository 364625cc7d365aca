import SmallClientSSE.Omap.Finilize
import SmallClientSSE.Omap.FiniteMap

/-!
# An OMAP is a finite map

Between operations an OMAP stores a balanced search tree whose links are right
(`Stored`); an operation starts from it, works on the tree (`Working`), and ends
with it. So `find` and `insert` act as on a finite map, in every run whose trees
stay within the height that the position updates cover (`run_refines`).
-/

namespace SmallClientSSE.Omap

open Lib ORAM BinaryTree

variable {n : Nat}

def contents (t : Tree n) : FMap n := fun k => (valueOf k (AVL.pairs t)).map Buf.cstr

/-- During an operation. -/
structure Working (E : Env n) (P : Bid n → Int) (V : Bid n → Option (Node n)) (t : Tree n)
    (m : OMAP n) : Prop where
  mid : Mid E P V m.oram
  rooted : Rooted E V m.rootKey m.rootPos t
  dom : ∀ k, V k ≠ none → k ∈ keys t
  ok : AVL.Ok t
  sorted : Ascending (AVL.pairs t)
  upward : Upward m.oram.modified t

structure Stored (E : Env n) (V : Bid n → Option (Node n)) (t : Tree n) (m : OMAP n) : Prop where
  rest : Rest E V m.oram
  rooted : Rooted E V m.rootKey m.rootPos t
  dom : ∀ k, V k ≠ none → k ∈ keys t
  ok : AVL.Ok t
  sorted : Ascending (AVL.pairs t)

/-- The positions that an operation works with: a new node goes to the next leaf. -/
def places (E : Env n) (V : Bid n → Option (Node n)) (o : ORAM n) (k : Bid n) : Int :=
  ((V k).map Node.pos).getD (E.tape o.draws)

section

variable {E : Env n} {P : Bid n → Int} {V : Bid n → Option (Node n)} {t u : Tree n} {m : OMAP n}
  {key k : Bid n} {value : Str} {fuel : Nat} {find : Bool}

theorem places_of_none (h : V k = none) : places E V m.oram k = E.tape m.oram.draws := by
  simp [places, h]

theorem upward_nil : ∀ t : Tree n, Upward [] t
  | .nil => trivial
  | .node _ l r => ⟨fun _ _ h => (nomatch h), fun _ _ h => (nomatch h), upward_nil l, upward_nil r⟩

theorem Stored.start (h : Stored E V t m) (batch : Bool) :
    Working E (places E V m.oram) V t { m with oram := ORAM.start batch m.oram } := by
  refine ⟨start_spec h.rest batch fun hV => by simp [places, hV], h.rooted, h.dom, h.ok, h.sorted, ?_⟩
  have : (ORAM.start batch m.oram).modified = [] := h.rest.modified
  rw [this]
  exact upward_nil t

theorem Rooted.repr (h : Rooted E V m.rootKey m.rootPos t) (ht : t ≠ .nil) :
    Repr V m.rootKey m.rootPos t := (h.resolve_right fun h => ht h.1).1

theorem Working.root (h : Working E P V t m) (ht : t ≠ .nil) : m.rootKey ∈ top t ∧
    V m.rootKey ≠ none ∧ m.rootPos = P m.rootKey := by
  have hr := h.rooted.repr ht
  cases t with
  | nil => exact absurd rfl ht
  | node e l r =>
    obtain ⟨nd, hV, hpos, rfl, -⟩ := hr
    exact ⟨by simp, by simp [hV], hpos ▸ h.mid.place hV⟩

theorem Repr.root_height {id : Bid n} {pos : Int} (hr : Repr V id pos t) (ht : t ≠ .nil) :
    ∃ nd, V id = some nd ∧ nd.height = AVL.height t := by
  cases t with
  | nil => exact absurd rfl ht
  | node e l r =>
    obtain ⟨nd, hV, -, rfl, -⟩ := hr
    exact ⟨nd, hV, rfl⟩

theorem Repr.holds {id : Bid n} {pos : Int} {v : Buf 16} (hr : Repr V id pos t)
    (hk : (k, v) ∈ AVL.pairs t) : ∃ nd, V k = some nd ∧ nd.value = v := by
  induction t generalizing id pos with
  | nil => cases hk
  | node e l r ihl ihr =>
    obtain ⟨nd, hV, -, rfl, hl, hrr⟩ := hr
    rw [AVL.pairs_node, List.mem_append, List.mem_cons] at hk
    rcases hk with hk | hk | hk
    · exact ihl hl hk
    · obtain ⟨rfl, rfl⟩ := Prod.mk.inj hk
      exact ⟨nd, hV, rfl⟩
    · exact ihr hrr hk

theorem Rooted.orNull {id : Bid n} {pos : Int} {o : ORAM n} (h : Rooted E V id pos t)
    (hm : Mid E P V o) : Rooted E V (if id.isZero then Bid.null else id) pos t := by
  split
  · next hz =>
    have hnr : real E id = false := by simp [real, hz]
    rcases h with ⟨hr, ht⟩ | ⟨ht, -⟩
    · cases t with
      | nil => exact absurd rfl ht
      | node e l r =>
        obtain ⟨nd, hV, -⟩ := hr
        rw [hm.real hV] at hnr
        cases hnr
    · exact .inr ⟨ht, by simp [real, isZero_null]⟩
  · exact h

/-- **An insertion** into the tree of an operation. -/
theorem insert_working (hv : value.length ≤ 16) (h : Working E P V t m) {root : Bid n}
    (hroot : Rooted E V root m.rootPos t) (hkey : real E key = true)
    (hnew : key ∉ keys t → P key = E.tape m.oram.draws ∧ Leaf m.oram.depth (P key))
    (hfuel : t.height < fuel) :
    ∃ u V' m', AVL.insert key (Buf.zero.copyStr value) t = some u ∧
      AVLTree.insert E fuel root m.rootPos key value m.oram =
        some (m'.rootKey, m'.rootPos, m'.oram) ∧ Working E P V' u m' ∧
      Does E P V' m.oram m'.oram {k | k = key ∨ k ∈ visited key t}
        (reread P m.oram.leafList key t) (insertDraws key (Buf.zero.copyStr value) t) ∧
      (∀ k ∈ top u, k ∈ m'.oram.modified) ∧ (m.oram.batchWrite = true → footprint m'.oram =
        trace E P m.oram.depth m.oram.store key t (footprint m.oram)) := by
  obtain ⟨V', o', id', u, hu, ho', hd, hi, hfoot⟩ := insert_spec hv hkey h.mid hroot h.ok h.sorted
    hfuel (fun hk => ⟨by
      by_contra hV
      exact hk (h.dom key hV), hnew hk⟩) h.upward
  obtain ⟨u', hu', hok, -⟩ := AVL.insert_ok key (Buf.zero.copyStr value) h.ok
  obtain rfl : u = u' := Option.some.inj (hu.symm.trans hu')
  refine ⟨u, V', ⟨id', P id', o'⟩, hu, ho', ⟨hd.mid, hi.repr.rooted, fun k hk => ?_, hok, ?_,
    hi.upward⟩, hd, hi.top, hfoot⟩
  · rw [mem_keys_insert h.sorted hu]
    by_cases hkk : k = key
    · exact .inl hkk
    · by_cases hkt : k ∈ keys t
      · exact .inr hkt
      · rw [hi.frame k hkk hkt] at hk
        exact .inr (h.dom k hk)
  · rw [AVL.insert_pairs h.sorted hu]
    exact h.sorted.assign

theorem insertOne_spec (hv : value.length ≤ 16) (h : Working E P V t m) (hkey : real E key = true)
    (hnew : key ∉ keys t → P key = E.tape m.oram.draws ∧ Leaf m.oram.depth (P key))
    (hfuel : t.height < fuel) :
    ∃ u V' m', AVL.insert key (Buf.zero.copyStr value) t = some u ∧
      OMAP.insertOne E fuel key value m = some m' ∧ Working E P V' u m' ∧
      Does E P V' m.oram m'.oram {k | k = key ∨ k ∈ visited key t}
        (reread P m.oram.leafList key t) (insertDraws key (Buf.zero.copyStr value) t) ∧
      (∀ k ∈ top u, k ∈ m'.oram.modified) ∧ (m.oram.batchWrite = true → footprint m'.oram =
        trace E P m.oram.depth m.oram.store key t (footprint m.oram)) := by
  obtain ⟨u, V', m', hu, hm', h'⟩ := insert_working hv h (h.rooted.orNull h.mid) hkey hnew hfuel
  refine ⟨u, V', m', hu, ?_, h'⟩
  simp only [OMAP.insertOne, hm', Option.bind_eq_bind, Option.bind_some, Option.pure_def]

/-- **The end of an operation** that is not a batch. -/
theorem finish_spec (find : Bool) (h : Working E P V t m) (hb : m.oram.batchWrite = false)
    (hw : m.oram.writeviewmap = []) (htape : ∀ i, Leaf m.oram.depth (E.tape i)) (ht : t ≠ .nil)
    (htop : ∀ k ∈ top t, k ∈ m.oram.modified) :
    ∃ V' m', OMAP.finish E find m = some m' ∧ Rest E V' m'.oram ∧
      (t.height ≤ m.oram.maxHeightOfAVLTree ∨ m.oram.depth = 0 → Stored E V' t m') ∧ Same V V' ∧
      m'.oram.depth = m.oram.depth ∧
      m'.oram.maxHeightOfAVLTree = m.oram.maxHeightOfAVLTree ∧
      m'.oram.readCnt = max (padTo find m.oram.depth) m.oram.readCnt := by
  obtain ⟨hroot, hV, hpos⟩ := h.root ht
  obtain ⟨V', pos', o', ho', hrest, hr, hsame, hd, hmh, hc⟩ := finilize_spec find h.mid hb
    hw htape (hpos ▸ h.rooted.repr ht) (htop _ hroot) hV h.upward h.ok
  refine ⟨V', ⟨m.rootKey, pos', o'⟩, ?_, hrest, fun hH => ⟨hrest, (hr (h.ok.height_eq ▸ hH)).rooted,
    fun k hk => h.dom k fun hV => ?_, h.ok, h.sorted⟩, hsame, hd, hmh, hc⟩
  · simp only [OMAP.finish, ho', Option.bind_eq_bind, Option.bind_some, Option.pure_def]
  · exact hk ((hsame k).1 hV)

/-! ## The operations -/

def Settings (o o' : ORAM n) : Prop :=
  o'.depth = o.depth ∧ o'.maxHeightOfAVLTree = o.maxHeightOfAVLTree

theorem contents_find (t : Tree n) (key : Bid n) :
    (contents t).find key = ((valueOf key (AVL.pairs t)).map Buf.cstr).getD [] := rfl

theorem search_value (key : Bid n) (h : Working E P V t m) (hfuel : t.height < fuel) :
    ∃ o', AVLTree.search E fuel m.rootKey m.rootPos key m.oram =
        some (if key ∈ keys t then some key else none, o') ∧
      Working E P V t { m with oram := o' } ∧ Next E P V m.oram o' {k | k ∈ searched key t} ∧
      (∀ k ∈ top t, k ∈ o'.modified) ∧
      (if key ∈ keys t then o'.cache.lookup key else none).map (fun nd => nd.value) =
        valueOf key (AVL.pairs t) := by
  obtain ⟨o', ho', hn, hup⟩ := search_spec key h.mid h.rooted h.sorted hfuel h.upward
  refine ⟨o', ho', ⟨hn.mid, h.rooted, h.dom, h.ok, h.sorted, hup⟩, hn,
    fun k hk => hn.mem (mem_searched_of_top hk), ?_⟩
  by_cases hk : key ∈ keys t
  · obtain ⟨v, hv, hval⟩ := exists_valueOf hk
    have ht : t ≠ .nil := by
      rintro rfl
      cases hk
    obtain ⟨nd, hV, rfl⟩ := (h.rooted.repr ht).holds hv
    rw [if_pos hk, hval, lookup_cached hn.mid hV (hn.mem (mem_searched_self h.sorted hk))]
    rfl
  · rw [if_neg hk, valueOf_of_notMem hk]
    rfl

theorem search_text (key : Bid n) (h : Working E P V t m) (hfuel : t.height < fuel) :
    ∃ r o', AVLTree.search E fuel m.rootKey m.rootPos key m.oram = some (r, o') ∧
      Working E P V t { m with oram := o' } ∧ Next E P V m.oram o' {k | k ∈ searched key t} ∧
      (∀ k ∈ top t, k ∈ o'.modified) ∧
      r.elim (some []) (fun k => (o'.cache.lookup k).map fun node => node.value.cstr) =
        some ((contents t).find key) := by
  obtain ⟨o', ho', hw, hn, htop, hval⟩ := search_value key h hfuel
  refine ⟨_, o', ho', hw, hn, htop, ?_⟩
  by_cases hk : key ∈ keys t
  · obtain ⟨v, -, hv⟩ := exists_valueOf hk
    rw [hv, if_pos hk] at hval
    obtain ⟨nd, hnd, rfl⟩ := Option.map_eq_some_iff.mp hval
    rw [if_pos hk, Option.elim_some, contents_find, hnd, hv]
    rfl
  · rw [if_neg hk, Option.elim_none, contents_find, valueOf_of_notMem hk]
    rfl

theorem Working.root_kept {V' : Bid n → Option (Node n)} (h : Working E P V t m) (ht : t ≠ .nil)
    (hsame : Same V V') : ∃ k nd, V' k = some nd ∧ nd.height = t.height := by
  obtain ⟨nd, hV, hht⟩ := (h.rooted.repr ht).root_height ht
  obtain ⟨p, lp, rp, hV'⟩ := (hsame m.rootKey).2 nd hV
  exact ⟨_, _, hV', hht.trans h.ok.height_eq⟩

/-- The leaves of some nodes. -/
def leafCount (P : Bid n → Int) (ks : List (Bid n)) : Nat := (ks.map P).dedup.length

theorem Does.readCnt_eq {o o' : ORAM n} {ks : List (Bid n)} {c d : Nat}
    (h : Does E P V o o' {k | k ∈ ks} c d) (hb : o.batchWrite = false) (hl : o.leafList = [])
    (hc : o.readCnt = 0) : o'.readCnt = leafCount P ks + c := by
  have hcount := h.count hb
  rw [hl, hc, List.length_nil] at hcount
  have hperm : o'.leafList.Perm (ks.map P).dedup := by
    refine (List.perm_ext_iff_of_nodup h.mid.nodup (List.nodup_dedup _)).mpr fun l => ?_
    rw [List.mem_dedup, List.mem_map]
    constructor
    · intro hl'
      exact (h.only l hl').resolve_left (by simp [hl])
    · rintro ⟨k, hk, rfl⟩
      exact h.mid.seen k (h.mem hk)
  have := hperm.length_eq
  unfold leafCount
  omega

section

variable (hlive : ∀ k, E.live k = true) (htape : ∀ i, Leaf m.oram.depth (E.tape i))

include hlive htape

/-- **`find`** returns what the tree maps the key to. -/
theorem find_spec (key : Bid n) (hfuel : t.height < fuel) (h : Stored E V t m)
    (hH : t.height ≤ m.oram.maxHeightOfAVLTree ∨ m.oram.depth = 0) :
    ∃ V' m', OMAP.find E fuel key m = some ((contents t).find key, m') ∧ Stored E V' t m' ∧
      Same V V' ∧ Settings m.oram m'.oram ∧
      (t ≠ .nil → m'.oram.readCnt =
        max (padTo true m.oram.depth) (leafCount (places E V m.oram) (searched key t))) := by
  by_cases ht : t = .nil
  · subst ht
    obtain ⟨-, hnr⟩ := h.rooted.resolve_left fun h => h.2 rfl
    have hz : m.rootKey.isZero = true := by simpa [real, hlive] using hnr
    exact ⟨V, m, by simp [OMAP.find, hz]; rfl, h, Same.refl V, ⟨rfl, rfl⟩, fun ht => absurd rfl ht⟩
  · have hw := h.start false
    obtain ⟨hroot, hV, -⟩ := hw.root ht
    obtain ⟨nd, hV⟩ := Option.ne_none_iff_exists'.mp hV
    have hz := isZero_of_real (hw.mid.real hV)
    obtain ⟨r, o1, ho1, hw1, hn1, htop, hres⟩ := search_text key hw hfuel
    have hb1 : o1.batchWrite = false := hn1.grows.batch
    obtain ⟨V', m', hm', -, hs, hsame, hd, hmh, hc⟩ := finish_spec true hw1 hb1
      hn1.grows.written (hn1.grows.depth ▸ htape) ht htop
    replace hs := hs (by rw [hn1.grows.maxHeight, hn1.grows.depth]; exact hH)
    obtain ⟨⟨pos', o2⟩, hfin, hm''⟩ := Option.bind_eq_some_iff.mp hm'
    refine ⟨V', m', ?_, hs, hsame, ⟨hd.trans hn1.grows.depth, hmh.trans hn1.grows.maxHeight⟩,
      fun _ => ?_⟩
    · rw [Option.pure_def] at hm''
      rw [← Option.some.inj hm'']
      simp only [OMAP.find, hz, Bool.false_eq_true, if_false, ho1, Option.bind_eq_bind,
        Option.bind_some, Option.pure_def]
      cases r with
      | none =>
        rw [← Option.some.inj hres]
        simp only [Option.bind_some, hfin]
      | some k =>
        rw [Option.elim_some] at hres
        simp only [hres, Option.bind_some, hfin]
    · rw [hc, hn1.grows.depth, hn1.readCnt_eq rfl h.rest.leafs rfl]
      rfl

/-- **`insert`** does to the tree what `AVL.insert` does. -/
theorem insert_refines (key : Bid n) (hv : value.length ≤ 16) (hkey : key.isZero = false)
    (hfuel : t.height < fuel) (h : Stored E V t m)
    (hu : AVL.insert key (Buf.zero.copyStr value) t = some u) :
    ∃ V' m', OMAP.insert E fuel key value m = some m' ∧ Rest E V' m'.oram ∧
      (∃ k nd, V' k = some nd ∧ nd.height = u.height) ∧
      (u.height ≤ m.oram.maxHeightOfAVLTree ∨ m.oram.depth = 0 → Stored E V' u m') ∧
      Settings m.oram m'.oram ∧ m'.oram.readCnt = max (padTo false m.oram.depth)
        (leafCount (places E V m.oram) (key :: visited key t) +
          reread (places E V m.oram) [] key t) := by
  have hw := h.start false
  have hreal : real E key = true := by simp [real, hkey, hlive]
  have hnew : key ∉ keys t → places E V m.oram key = E.tape m.oram.draws ∧
      Leaf m.oram.depth (places E V m.oram key) := fun hk => by
    have hV : V key = none := by
      by_contra hV
      exact hk (h.dom key hV)
    rw [places_of_none hV]
    exact ⟨rfl, htape _⟩
  obtain ⟨u', V1, m1, hu', hm1, hw1, hd1, htop, -⟩ := insertOne_spec hv hw hreal hnew hfuel
  obtain rfl : u' = u := Option.some.inj (hu'.symm.trans hu)
  have hune : u' ≠ .nil := by
    rintro rfl
    exact absurd ((mem_keys_insert h.sorted hu (k := key)).mpr (.inl rfl)) (by simp)
  obtain ⟨V', m', hm', hrest, hs, hsame, hd, hmh, hc⟩ := finish_spec false hw1 hd1.grows.batch
    hd1.grows.written (hd1.grows.depth ▸ htape) hune htop
  rw [hd1.grows.maxHeight, hd1.grows.depth] at hs
  refine ⟨V', m', ?_, hrest, ?_, hs, ⟨hd.trans hd1.grows.depth, hmh.trans hd1.grows.maxHeight⟩, ?_⟩
  · simp only [OMAP.insert, hm1, Option.bind_eq_bind, Option.bind_some, hm']
  · exact hw1.root_kept hune hsame
  · have hd1' : Does E (places E V m.oram) V1 (ORAM.start false m.oram) m1.oram
        {k | k ∈ key :: visited key t} (reread (places E V m.oram) [] key t)
        (insertDraws key (Buf.zero.copyStr value) t) := by
      have hl : (ORAM.start false m.oram).leafList = [] := h.rest.leafs
      have := hd1.of_eq (show {k | k = key ∨ k ∈ visited key t} = {k | k ∈ key :: visited key t} by
        ext k
        simp)
      rwa [hl] at this
    rw [hc, hd1.grows.depth, hd1'.readCnt_eq rfl h.rest.leafs rfl]
    rfl

end

end

end SmallClientSSE.Omap
