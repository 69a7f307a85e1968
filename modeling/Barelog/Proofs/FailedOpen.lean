import Barelog.Proofs.CreateCrash

/-! A creation that fails. What has been linked by then stays in the FAT: no path of the code puts
an entry back. But only entries of free data clusters have changed, in every copy. -/

namespace Barelog

open Prog

def IsFreeClus (v : Vol) (disk : ℕ → Sector) (c : ℕ) : Prop := IsDataClus v c ∧ fatEntry v disk c = 0

/-- Only entries of free data clusters of `disk` have changed, in any copy of the FAT. -/
def ChangesFree (v : Vol) (disk card : ℕ → Sector) : Prop :=
  ∀ f, f < v.numFats → ∀ c, c < 128 * v.fatSz32 → ¬ IsFreeClus v disk c →
    copyEntry v card f c = copyEntry v disk f c

variable {env : Env} {s0 s s' : Machine} {v : Vol} {disk card card' : ℕ → Sector} {c val m : ℕ}
  {p : Slot} {name : Name} {fuel preallocSz nSectors nClus : ℕ} {r : Except Stop Unit}

theorem ChangesFree.congr (hv : Geometry v) (h : ChangesFree v disk card)
    (hbelow : ∀ lba, lba < v.dataLba → card' lba = card lba) : ChangesFree v disk card' :=
  fun f hf c hc hused => (copyEntry_congr hv hf hc hbelow).trans (h f hf c hc hused)

theorem ChangesFree.putFat (hv : Geometry v) (h : ChangesFree v disk card)
    (hfree : IsFreeClus v disk c) (hval : val < 2 ^ 28) (hm : m ≤ v.numFats) :
    ChangesFree v disk (putFat v card c val m) := by
  intro f hf x hx hused
  rw [copyEntry_putFat hv.apart (hv.lt_entries hfree.1) hval hm hf hx, if_neg]
  · exact h f hf x hx hused
  · rintro ⟨-, rfl⟩
    exact hused hfree

theorem changesFree_carried (hv : Geometry s0.ram.vol) : Carried env s0
    (fun t => ChangesFree s0.ram.vol s0.card t.card)
    fun t => ChangesFree s0.ram.vol s0.card t.card where
  read h hs := hs.card.symm ▸ h
  write := by
    intro c val r t t' h hram hc hzero hval hrun
    have hput : ∀ m, PutFat t c val m t' → ChangesFree s0.ram.vol s0.card t'.card := by
      rintro m ⟨⟨evs, -, -, hscratch⟩, hm⟩
      rw [hram] at hscratch hm
      rw [hscratch.card]
      exact h.putFat hv ⟨hc, hc.fatTable hv ▸ hzero⟩ hval hm
    rcases fatWriteEntry_cases hrun with ⟨rfl, hs⟩ | ⟨e, rfl, -, m, hs⟩
    · exact ⟨fun _ => hput _ hs, hput _ hs⟩
    · exact ⟨nofun, hput _ hs⟩
  stop h := h

theorem createLog_changesFree (hv : Geometry s0.ram.vol)
    (hroom : nClus ≤ (freeClus s0.ram.vol s0.card).length) (hn : 0 < nClus) (hsec : 0 < nSectors)
    (hsec32 : nSectors < 2 ^ 32) (hp : s0.ram.vol.dataLba ≤ p.1) (hoff : p.2 + 32 ≤ 512)
    (hrun : (createLog fuel preallocSz nSectors nClus name p.1 p.2).run (fwStep env) s0 = (r, s')) :
    ChangesFree s0.ram.vol s0.card s'.card := by
  have hstart : ChangesFree s0.ram.vol s0.card s0.card := fun _ _ _ _ _ => rfl
  have hcarry : Carried env s0 _ _ := changesFree_carried hv
  rw [createLog_eq] at hrun
  rcases bind_ended hrun with ⟨a, s1, halloc, hrest⟩ | ⟨e, halloc, rfl⟩
  · rcases allocChain_cases hv hcarry hstart hroom hn halloc with
      ⟨_, fat, ha, hedit, -, hfirst, -, hchanged⟩ | ⟨_, _, hbad, _⟩
    swap
    · cases hbad
    cases ha
    have hlba := hv.dataLba_le (mem_taken (headD_mem (taken_ne_nil hroom hn))).1
    rw [← hfirst] at hlba
    refine hchanged.congr hv fun x hx => ?_
    rw [← hedit.ram] at hlba hp hx
    exact afterChain_below hlba hsec hsec32 hp hoff hrest hx
  · rcases allocChain_cases hv hcarry hstart hroom hn halloc with
      ⟨_, _, hbad, _⟩ | ⟨_, _, _, _, _, hchanged, _⟩
    · cases hbad
    · exact hchanged

/-- However `fat32_open_log` ends, in particular when it returns an error, every entry of a cluster
that was in use has its value in every copy of the FAT. -/
theorem failed_open_keeps (env : Env) (fuel : ℕ) (s s' : Machine) (r : Except Stop Unit)
    (hv : Geometry s.ram.vol) (hroot : RootOk s.ram.vol s.card)
    (hroom : NeedsClus s → clusWanted s ≤ (freeClus s.ram.vol s.card).length)
    (hrun : (fat32OpenLog fuel).run (fwStep env) s = (r, s')) :
    ChangesFree s.ram.vol s.card s'.card := by
  rcases openLog_parts hv.secPerClus hrun with
    hcard | ⟨name, sc, t, r', t', hunnamed, hlba, hvol, hcard, hcreate, hcard', _⟩
  · rw [hcard]
    exact fun _ _ _ _ _ => rfl
  obtain ⟨hdata, hoff⟩ := hunnamed.slot hv hroot hlba
  have hwant := clusNeeded_pos hv.secPerClus (preallocSectors_pos s)
  rw [← hvol] at hv hdata
  have henough := hroom ⟨name, sc, hunnamed, hlba⟩
  rw [← hvol, ← hcard] at henough
  rw [hcard', ← hvol, ← hcard]
  exact createLog_changesFree hv henough hwant (preallocSectors_pos s) (preallocSectors_lt s) hdata
    hoff hcreate

/-- The card refuses request 7, the read after the first link of an allocation on `freshDisk`. -/
def refusesLink : Env := ⟨fun n => if n = 7 then .refuse else .good, fun _ _ d => d⟩

def failedDisk : Machine := ((fat32OpenLog 64).run (fwStep refusesLink) freshDisk).2

theorem failedDisk_eq :
    ((fat32OpenLog 64).run (fwStep refusesLink) freshDisk).1 = .error (.code (-5)) ∧
      fatEntry smallVol freshDisk.card 3 = 0 ∧ fatEntry smallVol failedDisk.card 3 = 4 := by
  decide +kernel

/-- The call returns -5, and the entry of cluster 3, which was free, points to cluster 4. -/
theorem failed_open_links : ∃ s',
    (fat32OpenLog 64).run (fwStep refusesLink) freshDisk = (.error (.code (-5)), s') ∧
      fatEntry smallVol s'.card 3 ≠ fatEntry smallVol freshDisk.card 3 := by
  obtain ⟨hret, hfree, hlinked⟩ := failedDisk_eq
  refine ⟨failedDisk, run_of_fst hret, ?_⟩
  rw [hfree, hlinked]
  decide

theorem failed_open_keeps_root : ∃ s',
    (fat32OpenLog 64).run (fwStep refusesLink) freshDisk = (.error (.code (-5)), s') ∧
      ChangesFree smallVol freshDisk.card s'.card := by
  have hrun := run_of_fst failedDisk_eq.1
  exact ⟨_, hrun, failed_open_keeps refusesLink 64 freshDisk _ _ smallVol_geometry freshDisk_root
    (fun _ => by decide +kernel) hrun⟩

end Barelog
