import Barelog.Proofs.Crash
import Barelog.Proofs.FatCopies
import Barelog.Proofs.NewFile

/-! A power loss while a log file is created: the entries in use stay in every copy of the FAT, and
the directory entry is not on the card before the chain is, in every copy. -/

namespace Barelog

open Prog Links

/-- `first` starts a chain of `n` clusters, the last with an end-of-chain marker. -/
def WholeChain (next : ℕ → ℕ) (first n : ℕ) : Prop :=
  ∃ l : List ℕ, l.length = n ∧ l.headD 0 = first ∧ Linked next l ∧ next (l.getLastD 0) = eoc

def WholeInCopies (v : Vol) (card : ℕ → Sector) (first n : ℕ) : Prop :=
  ∀ f, f < v.numFats → WholeChain (copyEntry v card f) first n

def HoldsEntry (card : ℕ → Sector) (p : Slot) (entry : ℕ → Byte) : Prop :=
  ∀ i, i < 32 → slotByte card p i = entry i

variable {env : Env} {s0 s s' s1 : Machine} {v : Vol} {card disk : ℕ → Sector} {fat0 fat : ℕ → ℕ}
  {l : List ℕ} {name : Name} {p : Slot} {fuel preallocSz nSectors nClus : ℕ}
  {r : Except Stop Unit}

theorem copies_carried (hv : Geometry s0.ram.vol) (hsame : SameCopies s0.ram.vol s0.card) :
    Carried env s0 (Copies s0) fun t => KeepsUsed s0.ram.vol s0.card t.card where
  read h hs := ⟨hs.card.symm ▸ h.same, hs.card.symm ▸ h.kept⟩
  write h hram hc hfree hval hrun := h.write hv hsame hram hc hfree hval hrun
  stop h := h.kept

theorem NewChain.whole (h : NewChain fat0 fat l) (hne : l ≠ []) {next : ℕ → ℕ}
    (hcopy : ∀ x ∈ l, next x = fat x) : WholeChain next (l.headD 0) l.length :=
  ⟨l, rfl, rfl, h.linked.congr fun x hx => hcopy x (List.mem_of_mem_dropLast hx),
    (hcopy _ (getLastD_mem hne)).trans h.ends⟩

/-- Behind the allocation only sectors of the data are written. -/
theorem afterChain_below {a : Alloc} (hfirst : s.ram.vol.dataLba ≤ clusToLba s.ram.vol a.firstClus)
    (hsec : 0 < nSectors) (hsec32 : nSectors < 2 ^ 32) (hp : s.ram.vol.dataLba ≤ p.1)
    (hoff : p.2 + 32 ≤ 512)
    (hrun : (clearLog preallocSz nSectors p a >>= fun _ => enterLog preallocSz name p a).run
      (fwStep env) s = (r, s')) {x : ℕ} (hx : x < s.ram.vol.dataLba) : s'.card x = s.card x := by
  have hclear : ∀ {r t}, (clearLog preallocSz nSectors p a).run (fwStep env) s = (r, t) →
      t.card x = s.card x := by
    intro r t hrun
    rw [clearLog_run] at hrun
    rcases clearSectors_cases (clusToLba_lt _ _) hsec hsec32 hrun with ⟨_, h⟩ | ⟨_, _, _, k, _, h⟩
    · exact h.outside (.inl (by omega))
    · exact h.outside (.inl (by omega))
  rcases bind_ended hrun with ⟨_, s1, hrun1, henter⟩ | ⟨e, hrun1, _⟩
  · have h1 := hclear hrun1
    have hne : x ≠ p.1 := by omega
    rcases enterLog_cases hoff henter with ⟨_, h⟩ | ⟨_, _, h | h⟩
    · rw [h.card]
      exact (Function.update_of_ne hne _ _).trans h1
    · rw [h.card, h1]
    · rw [h.card]
      exact (Function.update_of_ne hne _ _).trans h1
  · exact hclear hrun1

/-- However the creation ends, it keeps what was in use, and it has either not touched the sector
of the slot or made the chain. When it returns 0 the copies are identical. -/
theorem createLog_outcome (hv : Geometry s0.ram.vol) (hsame : SameCopies s0.ram.vol s0.card)
    (hroom : nClus ≤ (freeClus s0.ram.vol s0.card).length) (hn : 0 < nClus) (hsec : 0 < nSectors)
    (hsec32 : nSectors < 2 ^ 32) (hp : s0.ram.vol.dataLba ≤ p.1) (hoff : p.2 + 32 ≤ 512)
    (hrun : (createLog fuel preallocSz nSectors nClus name p.1 p.2).run (fwStep env) s0 = (r, s')) :
    KeepsUsed s0.ram.vol s0.card s'.card ∧ (s'.card p.1 = s0.card p.1 ∨
      WholeInCopies s0.ram.vol s'.card ((taken s0 nClus).headD 0) nClus) ∧
      (r = .ok () → SameCopies s0.ram.vol s'.card) := by
  have hne := taken_ne_nil hroom hn
  have hdata : ∀ x ∈ taken s0 nClus, IsDataClus s0.ram.vol x := fun x hx => (mem_taken hx).1
  have hstart : Copies s0 s0 := ⟨hsame, .refl _ _⟩
  have hcarry : Carried env s0 _ _ := copies_carried hv hsame
  rw [createLog_eq] at hrun
  rcases bind_ended hrun with ⟨a, s1, halloc, hrest⟩ | ⟨e, halloc, rfl⟩
  · rcases allocChain_cases hv hcarry hstart hroom hn halloc with
      ⟨_, fat, ha, hedit, hchain, hfirst, _, hcopies⟩ | ⟨_, _, hbad, _⟩
    swap
    · cases hbad
    cases ha
    have hlba := hv.dataLba_le (hdata _ (headD_mem hne))
    have hbelow : ∀ x, x < s0.ram.vol.dataLba → s'.card x = s1.card x := by
      intro x hx
      rw [← hedit.ram] at hlba hp hx
      rw [← hfirst] at hlba
      exact afterChain_below hlba hsec hsec32 hp hoff hrest hx
    refine ⟨hcopies.kept.congr hv hbelow, .inr fun f hf => ?_,
      fun _ => hcopies.same.congr hv hbelow⟩
    have hcopy : ∀ x ∈ taken s0 nClus, copyEntry s0.ram.vol s'.card f x = fat x := by
      intro x hx
      have hlt := hv.lt_entries (hdata x hx)
      rw [copyEntry_congr hv hf hlt hbelow, hcopies.same f hf x hlt, ← (hdata x hx).fatTable hv,
        hedit.table]
    have hwhole := hchain.whole hne hcopy
    rwa [taken_length hroom] at hwhole
  · rcases allocChain_cases hv hcarry hstart hroom hn halloc with
      ⟨_, _, hbad, _⟩ | ⟨_, fat, _, hedit, _, hkept, _⟩
    · cases hbad
    · exact ⟨hkept, .inl (hedit.rest fun h => absurd h.2 (by omega)), nofun⟩

theorem openLog_outcome (hv : Geometry s.ram.vol) (hroot : RootOk s.ram.vol s.card)
    (hsame : SameCopies s.ram.vol s.card) (hroom : clusWanted s ≤ (freeClus s.ram.vol s.card).length)
    {sc : Scan} (hunnamed : Unnamed s name sc) (hlba : sc.emptyLba ≠ 0)
    (hrun : (fat32OpenLog fuel).run (fwStep env) s = (r, s')) :
    KeepsUsed s.ram.vol s.card s'.card ∧ (s'.card sc.emptyLba = s.card sc.emptyLba ∨
      WholeInCopies s.ram.vol s'.card (firstFree s) (clusWanted s)) ∧
      (r = .ok () → SameCopies s.ram.vol s'.card) := by
  rcases openLog_parts hv.secPerClus hrun with
    hcard | ⟨name', sc', t, r', t', hunnamed', _, hvol, hcard, hcreate, hcard', hr⟩
  · rw [hcard]
    exact ⟨.refl _ _, .inl rfl, fun _ => hsame⟩
  obtain rfl := hunnamed.unique hunnamed'
  obtain ⟨hdata, hoff⟩ := hunnamed.slot hv hroot hlba
  have hwant := clusNeeded_pos hv.secPerClus (preallocSectors_pos s)
  have htaken : taken t (clusWanted s) = taken s (clusWanted s) := by
    rw [taken, taken, hvol, hcard]
  have hhead := taken_head hroom hwant
  rw [← hvol] at hv hdata hsame
  rw [← hvol, ← hcard] at hroom
  rw [← hcard] at hsame
  have hout := createLog_outcome hv hsame hroom hwant (preallocSectors_pos s)
    (preallocSectors_lt s) hdata hoff hcreate
  rw [hvol, hcard] at hout
  change _ ∧ (_ ∨ WholeInCopies _ _ ((taken t (clusWanted s)).headD 0) (clusWanted s)) ∧ _ at hout
  rw [htaken, hhead] at hout
  rw [hcard']
  exact hout.imp_right fun h => h.imp_right fun hcopies hok => hcopies (hr hok)

theorem makeLogname_first (n : ℕ) : makeLogname n 0 = 0x4C := by
  simp [makeLogname]

/-- The slot that the search returns is free: the entry is not in it. -/
theorem Unnamed.not_holds {sc : Scan} (h : Unnamed s name sc) (hlba : sc.emptyLba ≠ 0)
    (first size : ℕ) : ¬ HoldsEntry s.card sc.slot (entryByte name first size) := by
  obtain ⟨b, n, hscan, rfl⟩ : ∃ b n, ScansTo s.ram.vol s.card name b sc ∧ name = makeLogname n := by
    rcases h with ⟨m, _, _, _, hname, hscan⟩ | ⟨_, _, hname, hscan⟩
    · exact ⟨_, _, hscan, hname⟩
    · exact ⟨_, _, hscan, hname⟩
  intro hholds
  have hfirst : slotByte s.card sc.slot 0 = 0x4C := (hholds 0 (by decide)).trans (makeLogname_first n)
  obtain ⟨_, hfree⟩ := hscan.sound.2.resolve_left hlba
  rcases hfree with hfree | hfree
  · exact absurd (hfirst.symm.trans hfree) (by decide)
  · exact absurd (hfirst.symm.trans hfree) (by decide)

/-- When the power goes during a call that creates a file, every entry in use has its value in
every copy of the FAT, and if the new directory entry is on the card, then so is its whole chain, in
every copy. -/
theorem create_crash_safe (env : Env) (fuel : ℕ) (s : Machine) (card : ℕ → Sector)
    (hv : Geometry s.ram.vol) (hroot : RootOk s.ram.vol s.card)
    (hsame : SameCopies s.ram.vol s.card) (hneeds : NeedsClus s)
    (hroom : clusWanted s ≤ (freeClus s.ram.vol s.card).length)
    (hcrash : CrashCard env (fat32OpenLog fuel) s card) :
    KeepsUsed s.ram.vol s.card card ∧ ∀ name sc, Unnamed s name sc →
      HoldsEntry card sc.slot (entryByte name (firstFree s) (preallocSize s)) →
        WholeInCopies s.ram.vol card (firstFree s) (clusWanted s) := by
  obtain ⟨env', r, s', hrun, rfl⟩ := hcrash.run
  obtain ⟨name0, sc0, hunnamed0, hlba⟩ := hneeds
  obtain ⟨hkept, hout, -⟩ := openLog_outcome hv hroot hsame hroom hunnamed0 hlba hrun
  refine ⟨hkept, fun name sc hunnamed hholds => ?_⟩
  obtain rfl := hunnamed0.unique hunnamed
  refine hout.resolve_left fun hslot => ?_
  refine hunnamed.not_holds hlba (firstFree s) (preallocSize s) fun i hi => ?_
  rw [← hholds i hi, slotByte, slotByte]
  exact congrArg (fun d => Sector.byte d _) hslot.symm

theorem freshDisk_same : SameCopies freshDisk.ram.vol freshDisk.card := by
  intro f hf c hc
  have h0 : f = 0 := Nat.lt_one_iff.mp hf
  subst h0
  exact copyEntry_first _ _ _

/-- The power goes when the call has returned. -/
theorem create_crash_end : ∃ s', (fat32OpenLog 64).run (fwStep Env.ideal) freshDisk = (.ok (), s') ∧
    KeepsUsed freshDisk.ram.vol freshDisk.card s'.card ∧ ∀ name sc, Unnamed freshDisk name sc →
      HoldsEntry s'.card sc.slot (entryByte name (firstFree freshDisk) (preallocSize freshDisk)) →
        WholeInCopies freshDisk.ram.vol s'.card (firstFree freshDisk) (clusWanted freshDisk) := by
  have hroom : clusWanted freshDisk ≤ (freeClus freshDisk.ram.vol freshDisk.card).length := by
    decide +kernel
  obtain ⟨hneeds, s', hrun⟩ := openLog_succeeds 64 (fun _ => rfl : Env.ideal.Good)
    smallVol_geometry freshDisk_root hroom (by decide) (by decide +kernel)
  exact ⟨s', hrun, create_crash_safe Env.ideal 64 freshDisk s'.card smallVol_geometry freshDisk_root
    freshDisk_same hneeds hroom ⟨_, s', steps_run _ hrun, rfl⟩⟩

end Barelog
