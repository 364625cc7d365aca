import SmallClientSSE.Horus.Absent
import SmallClientSSE.Qos.Exact
import SmallClientSSE.Qos.Remote

/-!
# Operations on absent data

Removing a Horus pair that is not live is harmless exactly when the pair was inserted
before. Searching a keyword that was never inserted fails, in Horus on the empty text of
`UpdtCnt` and in QOS, with or without local storage, on the empty counter text, which
splits into no parts.
-/

namespace SmallClientSSE

open Lib

namespace Qos

section

variable {E : Env} {c c' : Client} {w v : Str} {id : CInt}

theorem insert_cnt (hr : insert E c v id = some c') (hv : v ≠ w) : c'.LOcnt w = c.LOcnt w := by
  simp only [insert, Option.bind_eq_bind, Option.bind_eq_some_iff] at hr
  obtain ⟨⟨s, a⟩, -, node, -, hr⟩ := hr
  obtain rfl := Option.some.inj hr
  exact Function.update_of_ne (Ne.symm hv) _ _

theorem remove_cnt (hr : remove E c v id = some c') : c'.LOcnt = c.LOcnt := by
  simp only [remove, Option.bind_eq_bind, Option.bind_eq_some_iff] at hr
  obtain ⟨src, -, pos, -, nodes, -, colors, -, sibs, -, hr⟩ := hr
  split at hr
  all_goals
    obtain rfl := Option.some.inj hr
    rfl

theorem search_cnt {res : List CInt} (hr : search E c v = some (res, c')) (hv : v ≠ w) :
    c'.LOcnt w = c.LOcnt w := by
  simp only [search, Option.bind_eq_bind, Option.bind_eq_some_iff] at hr
  obtain ⟨⟨s, a⟩, -, ⟨finalRes, next, server⟩, -, hr⟩ := hr
  obtain ⟨-, rfl⟩ := Prod.mk.inj (Option.some.inj hr)
  exact Function.update_of_ne (Ne.symm hv) _ _

theorem search_of_none (hc : c.LOcnt w = none) : search E c w = none := by
  have : parsePair [] = none := by decide
  simp [search, hc, this]

/-- **A search of an absent keyword** fails. -/
theorem search_unknown {N : CInt} {calls : List Call}
    (hr : run (step E) (Client.init N) calls = some c) (hw : inserts calls w = 0) :
    search E c w = none := by
  refine search_of_none (run_keeps (fun pre c => inserts pre w = 0 → c.LOcnt w = none)
    (fun _ => rfl) hr (fun pre a c c' _ hI ha h0 => ?_) hw)
  rw [inserts_snoc] at h0
  have hnone := hI (by omega)
  cases a with
  | insert v id =>
    have hv : v ≠ w := fun e => by simp [Call.isInsert, e] at h0
    exact (insert_cnt ha hv).trans hnone
  | remove v id => exact (congrFun (remove_cnt ha) w).trans hnone
  | search v =>
    obtain ⟨⟨res, c''⟩, hs, rfl⟩ := Option.map_eq_some_iff.mp ha
    have hv : v ≠ w := fun e => by
      rw [e, search_of_none hnone] at hs
      cases hs
    exact (search_cnt hs hv).trans hnone

end

end Qos

/-- **Absent data**: a removal of a pair that is not live is harmless if and only if the pair was
inserted before, and no search of a keyword that was never inserted succeeds. -/
theorem absent_harmless_iff (pre post : List Horus.Call) (h : Horus.Client)
    (hr : Horus.Reached pre post h) (E : Qos.Env) (N : CInt) (calls : List Qos.Call)
    (c : Qos.Client) (hc : run (Qos.step E) (Qos.Client.init N) calls = some c) (O : Qos.Omaps)
    (keywordSize : CInt) (updates : List Qos.SetupCall) (online : List Qos.Call)
    (d : Qos.RemoteClient) (hd : Qos.RemoteReached E O N keywordSize updates online d) :
    (∀ w z, Horus.live (pre ++ post) w z = false →
      (Horus.Harmless h w z ↔ Horus.Call.insert w z ∈ pre ++ post)) ∧
    (∀ w, Horus.inserted (pre ++ post) w = false → Horus.search w h = .error .stoi h) ∧
    (∀ w, Qos.inserts calls w = 0 → Qos.search E c w = none) ∧
    ∀ w, NulFree w → w ≠ [] → ¬ Qos.Inserted updates online w →
      (∀ key res m, Qos.getBid w = some key →
        Omap.OMAP.incrementSrcCnt O.cnt O.fuel key d.Ocnt = some (res, m) → res = []) ∧
        d.search E O w = none :=
  ⟨fun _ _ hz => hr.remove_dead hz, fun _ hw => hr.search_unknown hw,
    fun _ hw => Qos.search_unknown hc hw, fun _ hw hne hnot => hd.search_unknown hw hne hnot⟩

namespace Qos

/-- OMAPs with one leaf. -/
def oneLeaf : Omaps :=
  ⟨Omap.plain (fun _ => 0) HashOrder.stored, Omap.plain (fun _ => 0) HashOrder.stored,
    Omap.plain (fun _ => 0) HashOrder.stored, fun _ => .insertion _, 5⟩

theorem remote_sample : ∃ d, RemoteReached sampleEnv oneLeaf ⟨4, by decide⟩ ⟨4, by decide⟩ []
    [.insert [97] Horus.one] d := by
  obtain ⟨d, hd⟩ := Option.isSome_iff_exists.mp
    (show ((RemoteClient.init ⟨4, by decide⟩ ⟨4, by decide⟩).bind fun c =>
      run (RemoteClient.step sampleEnv oneLeaf) c [.insert [97] Horus.one]).isSome = true by
      decide +kernel)
  obtain ⟨c, hc, hd⟩ := Option.bind_eq_some_iff.mp hd
  refine ⟨d, fun _ => rfl, fun _ => (by decide : Omap.Leaf (Omap.depthOf 4) 0), ?_, c, .fresh hc, hd⟩
  rintro v ⟨id, hid | hid⟩
  · cases hid
  · obtain ⟨rfl, -⟩ := Call.insert.inj (List.mem_singleton.mp hid)
    decide

end Qos

/-- One pair inserted, searched for and removed: removing it again is harmless. -/
theorem absent_harmless_removed :
    ∃ h d, run Horus.step Horus.Client.init [.insert Horus.kwA Horus.one, .search Horus.kwA,
        .remove Horus.kwA Horus.one] = some h ∧
      Horus.Harmless h Horus.kwA Horus.one ∧ ¬ Horus.Harmless h Horus.kwB Horus.one ∧
      Horus.search Horus.kwB h = .error .stoi h ∧
      Qos.RemoteReached Qos.sampleEnv Qos.oneLeaf ⟨4, by decide⟩ ⟨4, by decide⟩ []
        [.insert [97] Horus.one] d ∧ d.search Qos.sampleEnv Qos.oneLeaf [98] = none := by
  let calls : List Horus.Call := [.insert Horus.kwA Horus.one, .search Horus.kwA,
    .remove Horus.kwA Horus.one]
  obtain ⟨h, hr⟩ := Option.isSome_iff_exists.mp
    (show (run Horus.step Horus.Client.init calls).isSome = true by decide +kernel)
  obtain ⟨d, hd⟩ := Qos.remote_sample
  obtain ⟨h1, h2, -, h4⟩ := absent_harmless_iff [] calls h ⟨by decide, .inr ⟨rfl, hr⟩⟩
    Qos.sampleEnv ⟨4, by decide⟩ [] _ rfl Qos.oneLeaf ⟨4, by decide⟩ [] _ d hd
  refine ⟨h, d, hr, (h1 Horus.kwA Horus.one (by decide)).mpr (by decide),
    fun hh => absurd ((h1 Horus.kwB Horus.one (by decide)).mp hh) (by decide),
    h2 Horus.kwB (by decide), hd, (h4 [98] (by decide) (by decide) ?_).2⟩
  rintro ⟨id, hid | hid⟩
  · cases hid
  · obtain ⟨hw, -⟩ := Qos.Call.insert.inj (List.mem_singleton.mp hid)
    exact absurd hw (by decide)

/-- **Nothing absent is harmless on a fresh index**: the removal throws, and so does either
search. -/
theorem absent_throws :
    Horus.Reached [] [] Horus.Client.init ∧ Horus.live [] Horus.kwA Horus.one = false ∧
      ¬ Horus.Harmless Horus.Client.init Horus.kwA Horus.one ∧
      Horus.search Horus.kwA Horus.Client.init = .error .stoi Horus.Client.init ∧
      (∀ E N, Qos.search E (Qos.Client.init N) [97] = none) ∧
      ∃ d, Qos.RemoteClient.init ⟨4, by decide⟩ ⟨4, by decide⟩ = some d ∧
        (Omap.OMAP.incrementSrcCnt Qos.oneLeaf.cnt 5 (Bid.ofStr [97]) d.Ocnt).map Prod.fst =
          some [] ∧ d.search Qos.sampleEnv Qos.oneLeaf [97] = none := by
  refine ⟨⟨by decide, .inr ⟨rfl, rfl⟩⟩, rfl, ?_, rfl, fun E N => Qos.search_of_none rfl, ?_⟩
  · rintro ⟨h', hok, -⟩
    rw [Horus.remove_absent rfl] at hok
    cases hok
  · have hcnt : ((Qos.RemoteClient.init ⟨4, by decide⟩ ⟨4, by decide⟩).bind fun d =>
        (Omap.OMAP.incrementSrcCnt Qos.oneLeaf.cnt 5 (Bid.ofStr [97]) d.Ocnt).map Prod.fst) =
          some [] := by decide +kernel
    obtain ⟨d, hd, hcnt⟩ := Option.bind_eq_some_iff.mp hcnt
    refine ⟨d, hd, hcnt, ?_⟩
    obtain ⟨r, hr, hres⟩ := Option.map_eq_some_iff.mp hcnt
    unfold Qos.RemoteClient.search
    rw [show Qos.getBid [97] = some (Bid.ofStr [97]) from rfl]
    simp only [Option.bind_eq_bind, Option.bind_some]
    rw [show Qos.oneLeaf.fuel = 5 from rfl, hr]
    obtain ⟨res, m⟩ := r
    obtain rfl : res = [] := hres
    rfl

end SmallClientSSE
