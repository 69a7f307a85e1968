import Barelog.Proofs.CreateCrash
import Barelog.Proofs.SearchTotal

/-! The chain of a new log file. It is built while the FAT is searched: each cluster is linked when
the next one is found, and the last is ended behind the loop. -/

namespace Barelog

open Prog Links

/-- The log file of `s'` has the lowest free clusters of `s` for its chain, as many as it needs,
and in no copy of the FAT has any other entry changed. -/
def HasLowestClus (s s' : Machine) : Prop :=
  ∃ own : List ℕ, own.length = clusWanted s ∧ own.Pairwise (· < ·) ∧
    (∀ c ∈ own, IsDataClus s.ram.vol c ∧ fatEntry s.ram.vol s.card c = 0) ∧
    (∀ c, IsDataClus s.ram.vol c → fatEntry s.ram.vol s.card c = 0 → c ∉ own →
      ∀ x ∈ own, x < c) ∧
    (∀ n, chainClus s.ram.vol s'.card n s'.ram.logfile.firstClus = own.take n) ∧
    own.getLast? = some s'.ram.logfile.lastClus ∧
    fatEntry s.ram.vol s'.card s'.ram.logfile.lastClus = eoc ∧
    preallocSectors s ≤ clusWanted s * s.ram.vol.secPerClus ∧
    ∀ f, f < s.ram.vol.numFats → ∀ c, c < 128 * s.ram.vol.fatSz32 → c ∉ own →
      copyEntry s.ram.vol s'.card f c = copyEntry s.ram.vol s.card f c

variable {env : Env} {s s' : Machine} {v : Vol} {fat : ℕ → ℕ} {l : List ℕ} {fuel c n m : ℕ}

theorem freeBelow_sorted (fat : ℕ → ℕ) (c : ℕ) : (freeBelow fat c).Pairwise (· < ·) :=
  List.pairwise_lt_range.filter _

theorem lt_of_not_taken (hc : IsDataClus s.ram.vol c)
    (hfree : fatTable s.ram.vol s.card c = 0) (hnot : c ∉ taken s n) {x : ℕ} (hx : x ∈ taken s n) :
    x < c := by
  have hmem : c ∈ freeClus s.ram.vol s.card :=
    mem_freeBelow.mpr ⟨Nat.lt_succ_of_le hc.2, hc.1, hfree⟩
  have hsorted : (freeClus s.ram.vol s.card).Pairwise (· < ·) := freeBelow_sorted _ _
  rw [← List.take_append_drop n (freeClus s.ram.vol s.card)] at hmem hsorted
  have hdrop := (List.mem_append.mp hmem).resolve_left hnot
  exact (List.pairwise_append.mp hsorted).2.2 x hx c hdrop

theorem le_clusNeeded_mul (hspc : 1 ≤ v.secPerClus) (n : ℕ) : n ≤ clusNeeded v n * v.secPerClus := by
  have hdiv := Nat.lt_div_mul_add (a := n + v.secPerClus - 1) hspc
  rw [clusNeeded]
  omega

theorem Created.lowest (hv : Geometry s.ram.vol) (hsame : SameCopies s.ram.vol s.card)
    (hroom : clusWanted s ≤ (freeClus s.ram.vol s.card).length) {name : Name} {p : Slot}
    (h : Created (s.withLogNum m) (preallocSize s) (preallocSectors s) (taken s (clusWanted s)) name
      p s') (hsame' : SameCopies s.ram.vol s'.card) : HasLowestClus s s'.counted := by
  have hwant : 0 < clusWanted s := clusNeeded_pos hv.secPerClus (preallocSectors_pos s)
  have hne := taken_ne_nil hroom hwant
  have hdata : ∀ x ∈ taken s (clusWanted s), IsDataClus s.ram.vol x := fun x hx => (mem_taken hx).1
  have hchain : NewChain (fatTable s.ram.vol s.card) (fatTable s.ram.vol s'.card)
      (taken s (clusWanted s)) := h.chain
  have hfirst : s'.counted.ram.logfile.firstClus = (taken s (clusWanted s)).headD 0 := by
    rw [Machine.counted, h.ram]
    rfl
  have hlast : s'.counted.ram.logfile.lastClus = (taken s (clusWanted s)).getLastD 0 := by
    rw [Machine.counted, h.ram]
    rfl
  refine ⟨taken s (clusWanted s), taken_length hroom, (freeBelow_sorted _ _).sublist
    (List.take_sublist _ _), ?_, ?_, ?_, ?_, ?_, le_clusNeeded_mul hv.secPerClus _, ?_⟩
  · intro c hc
    exact ⟨hdata c hc, (hdata c hc).fatTable hv ▸ (mem_taken hc).2⟩
  · intro c hc hfree hnot x hx
    exact lt_of_not_taken hc ((hc.fatTable hv).trans hfree) hnot hx
  · intro n
    rw [hfirst]
    exact hchain.chainClus hv hdata hne n
  · rw [hlast, List.getLastD_eq_getLast?, List.getLast?_eq_some_getLast hne]
    rfl
  · rw [hlast, ← (hdata _ (getLastD_mem hne)).fatTable hv]
    exact hchain.ends
  · intro f hf c hc hnot
    have hrest := hchain.rest c hnot
    rw [fatTable, fatTable, if_pos hc, if_pos hc] at hrest
    exact (hsame' f hf c hc).trans (hrest.trans (hsame f hf c hc).symm)

/-- A call that needs clusters, with a card that answers and fuel enough, creates a file with the
lowest free clusters for its chain. -/
theorem create_takes_lowest (env : Env) (hgood : env.Good) (fuel : ℕ) (s : Machine) (l : List ℕ)
    (hv : Geometry s.ram.vol) (hsame : SameCopies s.ram.vol s.card)
    (hroot : RootOk s.ram.vol s.card) (hl : RootChain s.ram.vol s.card l) (hfuel : l.length < fuel)
    (hclus : clusCount s.ram.vol < fuel) (hneeds : NeedsClus s)
    (hroom : clusWanted s ≤ (freeClus s.ram.vol s.card).length) :
    ∃ s', (fat32OpenLog fuel).run (fwStep env) s = (.ok (), s') ∧ HasLowestClus s s' := by
  obtain ⟨s', hrun⟩ := openLog_returns hgood hv hroot hl hfuel hroom hclus hneeds
  refine ⟨s', hrun, ?_⟩
  obtain ⟨name, sc, m, s2, hunnamed, hlba, -, -, -, hcreated, rfl⟩ :=
    openLog_new hv hroot hneeds hroom hrun
  obtain ⟨-, -, hsame'⟩ := openLog_outcome hv hroot hsame hroom hunnamed hlba hrun
  exact hcreated.lowest hv hsame hroom (hsame' rfl)

/-- The clusters of the first file on a fresh disk. -/
theorem create_takes_lowest_fresh :
    ∃ s', (fat32OpenLog 64).run (fwStep Env.ideal) freshDisk = (.ok (), s') ∧
      HasLowestClus freshDisk s' := by
  have hroom : clusWanted freshDisk ≤ (freeClus freshDisk.ram.vol freshDisk.card).length := by
    decide +kernel
  have hneeds : NeedsClus freshDisk := (openLog_succeeds 64 (fun _ => rfl : Env.ideal.Good)
    smallVol_geometry freshDisk_root hroom (by decide) (by decide +kernel)).1
  exact create_takes_lowest Env.ideal (fun _ => rfl) 64 freshDisk [2] smallVol_geometry
    freshDisk_same freshDisk_root freshDisk_chain (by decide) (by decide) hneeds hroom

end Barelog
