import Barelog.Proofs.AppendRun
import Barelog.Proofs.ExtendCrash

/-! Appends whose return code is ignored. An extension that stops after the end-of-chain marker
has a new cluster that `last_clus` does not know of; the next extension takes another one, and
links past it. -/

namespace Barelog

open Prog Links

/-- Calls one after the other, each made in a state with `ok`. Any request may fail in any of
them. -/
inductive Calls (ok : Machine → Prop) (s : Machine) : Machine → Prop
  | start : Calls ok s s
  | call {s1 t s' : Machine} {r : Except Stop Unit} (env : Env) (c : AppendCall)
      (hrun : Calls ok s s1) (hidle : Idle s1 t) (hok : ok t)
      (hcall : c.code.run (fwStep env) t = (r, s')) : Calls ok s s'

/-- No extension has stopped behind the end-of-chain marker of its cluster: when the append
extends the file, the entry of `last_clus` is an end-of-chain marker or points to a free cluster.
The card is not full, and the sector of the append is not in the FAT. -/
structure NotHalfway (s : Machine) : Prop where
  cursor : s.ram.vol.dataLba ≤ s.ram.logfile.curLba
  free : s.ram.logfile.endLba ≤ s.ram.logfile.curLba → freeClus s.ram.vol s.card ≠ []
  last : s.ram.logfile.endLba ≤ s.ram.logfile.curLba →
    0x0FFFFFF8 ≤ fatTable s.ram.vol s.card s.ram.logfile.lastClus ∨
      fatTable s.ram.vol s.card (fatTable s.ram.vol s.card s.ram.logfile.lastClus) = 0

/-- Every cluster that was free in `s` and no longer is in `s'` is in the chain of the file. -/
def NoLeak (s s' : Machine) : Prop :=
  ∀ x, fatTable s.ram.vol s.card x = 0 → fatTable s.ram.vol s'.card x ≠ 0 →
    Reach (fatTable s.ram.vol s'.card) IsLink s'.ram.logfile.firstClus x

/-- The file has the clusters `l`. What is no longer free is among them, or what the entry of the
last one points to. -/
structure Owned (v : Vol) (fat0 fat : ℕ → ℕ) (first last : ℕ) (l : List ℕ) : Prop where
  chain : ChainOf v fat first last l
  used : fat last ≠ 0
  grown : ∀ x, fat0 x = 0 → fat x ≠ 0 → x ∈ l ∨ x = fat last ∧ IsDataClus v x

/-- The file owns its clusters in `s`; `s0` is where the calls started. -/
structure Owning (s0 s : Machine) : Prop where
  vol : s.ram.vol = s0.ram.vol
  owned : ∃ l, Owned s0.ram.vol (fatTable s0.ram.vol s0.card) (fatTable s0.ram.vol s.card)
    s.ram.logfile.firstClus s.ram.logfile.lastClus l

variable {env : Env} {s s' s0 t : Machine} {v : Vol} {fat fat' fat0 : ℕ → ℕ} {l : List ℕ}
  {c k first last fuel : ℕ} {r : Except Stop Unit}

theorem Owned.reach (hv : Geometry v) (h : Owned v fat0 fat first last l) {x : ℕ}
    (hfree : fat0 x = 0) (hx : fat x ≠ 0) : Reach fat IsLink first x := by
  rcases h.grown x hfree hx with hmem | ⟨rfl, hdata⟩
  · exact h.chain.reach hv hmem
  · exact (h.chain.reach hv h.chain.last_mem).step (hdata.isLink hv)

section Settled

variable (hv : Geometry v) (h : Owned v fat0 fat first last l)
  (hlast : 0x0FFFFFF8 ≤ fat last ∨ fat (fat last) = 0)

include hv h hlast

/-- The entry of the last cluster does not point to a cluster in use. -/
theorem Owned.not_back : fat last ∉ l := by
  rcases hlast with hends | hzero
  · exact h.chain.not_back hv hends
  · exact fun hmem => h.chain.ne_zero h.used hmem hzero

/-- All that is no longer free is in the file. -/
theorem Owned.settled {x : ℕ} (hfree : fat0 x = 0) (hx : fat x ≠ 0) : x ∈ l := by
  rcases h.grown x hfree hx with hmem | ⟨rfl, hdata⟩
  · exact hmem
  · rcases hlast with hends | hzero
    · exact absurd (hdata.isLink hv).2 (by omega)
    · exact absurd hzero hx

/-- The new entry of the last cluster takes nothing out of the file. -/
theorem Owned.settled_link {x y : ℕ} (hfree : fat0 x = 0) (hx : Function.update fat last y x ≠ 0) :
    x ∈ l := by
  by_cases hxl : x = last
  · rw [hxl]
    exact h.chain.last_mem
  · rw [Function.update_of_ne hxl] at hx
    exact h.settled hv hlast hfree hx

theorem Owned.stopped (hc : IsDataClus v c) (hzero : fat c = 0)
    (hk : Linking v fat last c k fat') : Owned v fat0 fat' first last l := by
  have hback := h.not_back hv hlast
  have hne : c ≠ last := fun he => h.used (he ▸ hzero)
  have hc0 : c ≠ 0 := by
    have := hc.1
    omega
  cases hk with
  | before => exact h
  | linked hpos hle =>
    refine ⟨h.chain.congr (fun x _ => ?_) hback, ?_, fun x hfree hx => .inl ?_⟩
    · by_cases hxl : x = last
      · exact .inl hxl
      · exact .inr (Function.update_of_ne hxl _ _)
    · rw [Function.update_self]
      exact hc0
    · exact h.settled_link hv hlast hfree hx
  | ended hlt =>
    have hentry : Function.update (Function.update fat last c) c eoc last = c := by
      rw [Function.update_of_ne hne.symm, Function.update_self]
    refine ⟨h.chain.congr (fun x hx => ?_) hback, ?_, fun x hfree hx => ?_⟩
    · by_cases hxl : x = last
      · exact .inl hxl
      · have hxc : x ≠ c := fun he => h.chain.ne_zero h.used hx (he ▸ hzero)
        exact .inr (by rw [Function.update_of_ne hxc, Function.update_of_ne hxl])
    · rw [hentry]
      exact hc0
    · rw [hentry]
      by_cases hxc : x = c
      · exact .inr ⟨hxc, hxc ▸ hc⟩
      · rw [Function.update_of_ne hxc] at hx
        exact .inl (h.settled_link hv hlast hfree hx)

theorem Owned.extended (hc : IsDataClus v c) (hzero : fat c = 0) :
    Owned v fat0 (Function.update (Function.update fat last c) c eoc) first c (l ++ [c]) := by
  refine ⟨h.chain.extend (h.not_back hv hlast) h.used hc hzero, ?_, fun x hfree hx => .inl ?_⟩
  · rw [Function.update_self]
    decide
  · by_cases hxc : x = c
    · rw [hxc]
      exact List.mem_append_right _ (List.mem_singleton_self c)
    · rw [Function.update_of_ne hxc] at hx
      exact List.mem_append_left _ (h.settled_link hv hlast hfree hx)

end Settled

/-! The calls. -/

theorem Owning.start (hchain : WellChained s) : Owning s s := by
  obtain ⟨⟨l, hl⟩, hends⟩ := hchain
  exact ⟨rfl, l, hl, by omega, fun x hfree hx => absurd hfree hx⟩

theorem Owning.sameClus (h : Owning s0 t) (hs : SameClus s0.ram.vol t s') : Owning s0 s' := by
  obtain ⟨hvol, l, hl⟩ := h
  refine ⟨hs.vol.trans hvol, l, ?_⟩
  rwa [hs.table, hs.first, hs.last]

theorem Idle.sameClus (h : Idle s t) : SameClus v s t := by
  obtain ⟨_, _, _, _, _, _, rfl⟩ := h
  exact ⟨rfl, rfl, rfl, rfl, [], (List.append_nil _).symm⟩

theorem Owning.extend (hv : Geometry s0.ram.vol) (h : Owning s0 s) (hok : NotHalfway s)
    (hfull : s.ram.logfile.endLba ≤ s.ram.logfile.curLba)
    (hrun : (extendLog fuel).run (fwStep env) s = (r, s')) : Owning s0 s' := by
  obtain ⟨hvol, l, hl⟩ := h
  have hlast := hok.last hfull
  have hfree := hok.free hfull
  have hdata := hl.chain.data _ hl.chain.last_mem
  rw [← hvol] at hv hl hdata
  rcases extendLog_cases hv hdata hfree hrun with ⟨c, rfl, hext⟩ | ⟨e, rfl, _, hram, _⟩
  · obtain ⟨hc, hzero, -⟩ := hext.free
    have hown := hl.extended hv hlast hc hzero
    have hfirst : s'.ram.logfile.firstClus = s.ram.logfile.firstClus := by simp only [hext.ram]
    have hlast' : s'.ram.logfile.lastClus = c := by simp only [hext.ram]
    have hvol' : s'.ram.vol = s.ram.vol := by simp only [hext.ram]
    refine ⟨hvol'.trans hvol, l ++ [c], ?_⟩
    rwa [← hvol, hext.table, hfirst, hlast']
  · obtain ⟨c, k, ⟨hc, hzero, -⟩, hlinking, -, -⟩ := extendLog_stages hv hdata hfree hrun
    have hown := hl.stopped hv hlast hc hzero hlinking
    refine ⟨?_, l, ?_⟩
    · rw [hram]
      exact hvol
    · rw [← hvol, hram]
      exact hown

theorem Owning.append (hv : Geometry s0.ram.vol) (h : Owning s0 s) (hok : NotHalfway s)
    (call : AppendCall) (hrun : call.code.run (fwStep env) s = (r, s')) : Owning s0 s' := by
  have hcursor := hok.cursor
  rw [h.vol] at hcursor
  obtain ⟨r1, t, hmake, hrest⟩ := append_parts hv hcursor hrun
  have ht : Owning s0 t := by
    rcases makeRoom_cases hmake with ⟨_, _, rfl⟩ | ⟨hfull, hext⟩
    · exact h
    · exact h.extend hv hok hfull hext
  rcases hrest with ⟨_, hsame⟩ | ⟨_, rfl⟩
  · exact ht.sameClus hsame
  · exact ht

theorem Calls.owning (hv : Geometry s0.ram.vol) (hchain : WellChained s0)
    (h : Calls NotHalfway s0 s) : Owning s0 s := by
  induction h with
  | start => exact .start hchain
  | call env c _ hidle hok hcall ih => exact (ih.sameClus hidle.sameClus).append hv hok c hcall

/-- While no call is made behind an extension that has stopped halfway, no cluster leaks: every
cluster that the calls have taken is in the chain of the file, whatever requests have failed. -/
theorem retry_no_leak (s0 s : Machine) (hv : Geometry s0.ram.vol) (hchain : WellChained s0)
    (hrun : Calls NotHalfway s0 s) : NoLeak s0 s := by
  obtain ⟨-, l, hl⟩ := hrun.owning hv hchain
  exact fun x hfree hx => hl.reach hv hfree hx

/-- Behind a stopped extension, the next one that returns 0 loses the cluster that the entry of
`last_clus` points to. -/
theorem halfway_leaks {call : AppendCall} (hv : Geometry s.ram.vol)
    (hl : ChainOf s.ram.vol (fatTable s.ram.vol s.card) s.ram.logfile.firstClus
      s.ram.logfile.lastClus l)
    (hcursor : s.ram.vol.dataLba ≤ s.ram.logfile.curLba)
    (hfull : s.ram.logfile.endLba ≤ s.ram.logfile.curLba) (hfree : freeClus s.ram.vol s.card ≠ [])
    (hlast : fatTable s.ram.vol s.card s.ram.logfile.lastClus = c) (hc : 2 ≤ c) (hout : c ∉ l)
    (hused : fatTable s.ram.vol s.card c ≠ 0)
    (hcall : call.code.run (fwStep env) s = (.ok (), s')) :
    fatTable s.ram.vol s'.card c ≠ 0 ∧
      ¬ Reach (fatTable s.ram.vol s'.card) IsLink s'.ram.logfile.firstClus c := by
  obtain ⟨r1, t, hmake, ⟨rfl, hsame⟩ | ⟨⟨_, hbad⟩, _⟩⟩ := append_parts hv hcursor hcall
  swap
  · cases hbad
  rcases makeRoom_cases hmake with ⟨hlt, _⟩ | ⟨_, hext⟩
  · exact absurd hlt (by omega)
  rcases extendLog_cases hv (hl.data _ hl.last_mem) hfree hext with ⟨d, _, hd⟩ | ⟨_, hbad, _⟩
  swap
  · cases hbad
  obtain ⟨hdata, hzero, -⟩ := hd.free
  have hcd : c ≠ d := fun he => hused (he ▸ hzero)
  have hclast : c ≠ s.ram.logfile.lastClus := fun he => hout (he ▸ hl.last_mem)
  have hback : fatTable s.ram.vol s.card s.ram.logfile.lastClus ∉ l := hlast ▸ hout
  have hne : fatTable s.ram.vol s.card s.ram.logfile.lastClus ≠ 0 := by omega
  have hchain := hl.extend hback hne hdata hzero
  have hends : 0x0FFFFFF8 ≤ fatTable s.ram.vol t.card d := by
    rw [hd.table, Function.update_self]
    decide
  have hfirst : t.ram.logfile.firstClus = s.ram.logfile.firstClus := by simp only [hd.ram]
  rw [← hd.table] at hchain
  rw [hsame.table, hsame.first, hfirst]
  constructor
  · rwa [hd.table, Function.update_of_ne hcd, Function.update_of_ne hclast]
  · intro hreach
    rcases List.mem_append.mp (hchain.of_reach hends hreach) with hmem | hmem
    · exact hout hmem
    · exact hcd (List.mem_singleton.mp hmem)

/-- The card refuses request 10, the first zero-fill of an extension of `fullLog`. -/
def refusesOnce : Env := ⟨fun n => if n = 10 then .refuse else .good, fun _ _ _ _ => 0⟩

def fullCall : AppendCall := ⟨8, 512, 512, none, 0⟩

/-- What the first call leaves: it fails with the end-of-chain marker of cluster 4 written. -/
def stoppedLog : Machine := (fullCall.code.run (fwStep refusesOnce) fullLog).2

theorem stoppedLog_eq : (fullCall.code.run (fwStep refusesOnce) fullLog).1 = .error (.code (-4)) ∧
    stoppedLog.ram.logfile.firstClus = 3 ∧ stoppedLog.ram.logfile.lastClus = 3 ∧
    stoppedLog.ram.logfile.curLba = 13 ∧ stoppedLog.ram.logfile.endLba = 13 ∧
    fatTable fiveVol stoppedLog.card 3 = 4 ∧ fatTable fiveVol stoppedLog.card 4 = eoc ∧
    fatTable fiveVol stoppedLog.card 5 = 0 := by
  decide +kernel

theorem stoppedLog_run : fullCall.code.run (fwStep refusesOnce) fullLog =
    (.error (.code (-4)), stoppedLog) := run_of_fst stoppedLog_eq.1

theorem fullLog_notHalfway : NotHalfway fullLog :=
  ⟨by decide, fun _ => fullLog_free, fun _ => .inl fullLog_ends⟩

theorem stoppedLog_owning : Owning fullLog stoppedLog :=
  (Owning.start fullLog_chained).append fiveVol_geometry fullLog_notHalfway fullCall stoppedLog_run

theorem idle_refl (s : Machine) : Idle s s := ⟨_, _, _, _, _, _, rfl⟩

/-- After the first call nothing is lost. -/
theorem retry_no_leak_stopped : NoLeak fullLog stoppedLog :=
  retry_no_leak fullLog _ fiveVol_geometry fullLog_chained
    (.call refusesOnce fullCall .start (idle_refl _) fullLog_notHalfway stoppedLog_run)

theorem stoppedLog_vol : stoppedLog.ram.vol = fiveVol := stoppedLog_owning.vol

theorem stoppedLog_free : freeClus stoppedLog.ram.vol stoppedLog.card ≠ [] := by
  have h5 : IsDataClus fiveVol 5 := by decide
  obtain ⟨-, -, -, -, -, -, -, hzero⟩ := stoppedLog_eq
  rw [h5.fatTable fiveVol_geometry] at hzero
  rw [stoppedLog_vol]
  exact List.ne_nil_of_mem ((mem_freeClus fiveVol_geometry).mpr ⟨h5, hzero⟩)

theorem stoppedLog_chain : ChainOf stoppedLog.ram.vol (fatTable stoppedLog.ram.vol stoppedLog.card)
    stoppedLog.ram.logfile.firstClus stoppedLog.ram.logfile.lastClus [3] := by
  obtain ⟨-, hfirst, hlast, -⟩ := stoppedLog_eq
  rw [stoppedLog_vol, hfirst, hlast]
  exact ⟨rfl, rfl, fullLog_chain.data, linked_singleton _ 3⟩

theorem stoppedLog_again : ∃ s, fullCall.code.run (fwStep Env.ideal) stoppedLog = (.ok (), s) := by
  obtain ⟨-, -, -, hcur, hend, -⟩ := stoppedLog_eq
  have hgood : Env.ideal.Good := fun _ => rfl
  have hv : Geometry stoppedLog.ram.vol := stoppedLog_vol ▸ fiveVol_geometry
  have hdata := stoppedLog_chain.data _ stoppedLog_chain.last_mem
  obtain ⟨r, t, hmake⟩ : ∃ r t,
      (makeRoom 8 stoppedLog.ram.logfile).run (fwStep Env.ideal) stoppedLog = (r, t) :=
    ⟨_, _, Prod.mk.eta.symm⟩
  rcases makeRoom_cases hmake with ⟨hlt, _⟩ | ⟨_, hext⟩
  · exact absurd hlt (by omega)
  rcases extendLog_cases hv hdata stoppedLog_free hext with ⟨_, rfl, _⟩ | ⟨e, rfl, he, _⟩
  · exact append_succeeds hgood fullCall hmake
  · rcases he with hcode | ⟨_, hfuel⟩
    · exact (extendLog_noCode hgood _ _ _ _ hext hcode).elim
    · rw [stoppedLog_vol] at hfuel
      exact absurd hfuel (by decide)

/-- The second call takes cluster 5, and cluster 4 is lost. -/
theorem retry_leaks : WellChained fullLog ∧ ∃ s, Calls (fun _ => True) fullLog s ∧
    fullCall.code.run (fwStep refusesOnce) fullLog = (.error (.code (-4)), stoppedLog) ∧
    fullCall.code.run (fwStep Env.ideal) stoppedLog = (.ok (), s) ∧ ¬ NoLeak fullLog s := by
  obtain ⟨s, hagain⟩ := stoppedLog_again
  have hstopped : Calls (fun _ => True) fullLog stoppedLog :=
    .call refusesOnce fullCall .start (idle_refl _) trivial stoppedLog_run
  refine ⟨fullLog_chained, s, .call Env.ideal fullCall hstopped (idle_refl _) trivial hagain,
    stoppedLog_run, hagain, fun h => ?_⟩
  obtain ⟨-, -, hlast, hcur, hend, h3, h4, -⟩ := stoppedLog_eq
  have hv : Geometry stoppedLog.ram.vol := stoppedLog_vol ▸ fiveVol_geometry
  rw [← stoppedLog_vol] at h3 h4
  rw [← hlast] at h3
  obtain ⟨hused, hlost⟩ := halfway_leaks hv stoppedLog_chain
    (by rw [stoppedLog_vol, hcur]; decide) (by omega) stoppedLog_free h3 (by decide) (by decide)
    (by rw [h4]; decide) hagain
  rw [stoppedLog_vol] at hused hlost
  exact hlost (h 4 (by decide +kernel) hused)

end Barelog
