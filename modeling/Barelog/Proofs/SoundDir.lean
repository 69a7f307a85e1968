import Barelog.Lib.Owners
import Barelog.Proofs.OtherFiles

/-! A sound root directory: the chain of each file ends and is in clusters in use, and no cluster is
in two files. A card keeps it whatever is done to it, since no more than one file is added at a time,
and its clusters were free. -/

namespace Barelog

open Prog Labelled

variable {env : Env} {s s' s0 t t' : Machine} {v : Vol} {l ls : List ℕ} {card disk : ℕ → Sector}
  {p q : Slot} {fuel : ℕ} {name : Name} {lg : CommitLog.Log Sector}

/-- The slot has a file or a directory, not a label or a part of a long name. -/
def IsEntry (card : ℕ → Sector) (p : Slot) : Prop :=
  ¬ IsFree card p ∧ slotByte card p deAttr &&& 0x08 = 0

def HasClus (v : Vol) (card : ℕ → Sector) (p : Slot) (ls : List ℕ) : Prop :=
  ∀ n, chainClus v card n (firstClusOf card p) = ls.take n

/-- The files of the root directory, which is in the clusters `l`, as owners of clusters. -/
def dirOwners (v : Vol) (l : List ℕ) (card : ℕ → Sector) : Owners Slot ℕ where
  live p := p ∈ slotsOf v l ∧ IsEntry card p
  own p c := ∃ n, c ∈ chainClus v card n (firstClusOf card p)
  used c := IsDataClus v c ∧ fatEntry v card c ≠ 0 ∧ c ∉ l

structure SoundDir (v : Vol) (l : List ℕ) (card : ℕ → Sector) : Prop where
  owners : (dirOwners v l card).Sound
  ends : ∀ p ∈ slotsOf v l, IsEntry card p → ∃ ls, HasClus v card p ls

/-- The files are kept and at most one is new, with a chain in clusters that were free. -/
structure AddsFile (v : Vol) (l : List ℕ) (disk card : ℕ → Sector) : Prop where
  keeps : KeepsFiles v l disk card
  added : ∀ q ∈ slotsOf v l, IsFree disk q → ¬ IsFree card q → ∃ ls, HasClus v card q ls ∧
    ∀ c ∈ ls, IsFreeClus v disk c ∧ fatEntry v card c ≠ 0
  once : ∃ p, ∀ q ∈ slotsOf v l, IsFree disk q → ¬ IsFree card q → q = p

/-! What is added. -/

theorem AddsFile.refl (v : Vol) (l : List ℕ) (card : ℕ → Sector) : AddsFile v l card card :=
  ⟨.refl v l card, fun _ _ hfree hlive => (hlive hfree).elim,
    ⟨(0, 0), fun _ _ hfree hlive => (hlive hfree).elim⟩⟩

theorem SoundDir.otherFile (h : SoundDir v l card) (hp : p ∈ slotsOf v l) (hentry : IsEntry card p) :
    OtherFile v l card p :=
  ⟨hp, hentry.1, fun n _ hc => h.owners.used p _ ⟨hp, hentry⟩ ⟨n, hc⟩⟩

/-- An entry is there already, or its slot was free. -/
theorem KeepsFiles.entry (h : KeepsFiles v l disk card) (hq : q ∈ slotsOf v l)
    (hentry : IsEntry card q) : IsEntry disk q ∨ IsFree disk q := by
  by_cases hfree : IsFree disk q
  · exact .inr hfree
  · have hslot := h.slots q hq hfree
    refine .inl ⟨hfree, ?_⟩
    rw [← hslot deAttr (by decide)]
    exact hentry.2

theorem AddsFile.new_clus (h : AddsFile v l disk card) (hl : RootChain v disk l) (hq : q ∈ slotsOf v l)
    (hfree : IsFree disk q) (hlive : ¬ IsFree card q) {n c : ℕ}
    (hc : c ∈ chainClus v card n (firstClusOf card q)) :
    IsFreeClus v disk c ∧ IsDataClus v c ∧ fatEntry v card c ≠ 0 ∧ c ∉ l := by
  obtain ⟨ls, hclus, hls⟩ := h.added q hq hfree hlive
  rw [hclus n] at hc
  obtain ⟨hwas, hused⟩ := hls c (List.mem_of_mem_take hc)
  exact ⟨hwas, hwas.1, hused, fun hmem => hl.used hmem hwas.2⟩

theorem AddsFile.otherFile (h : AddsFile v l disk card) (hl : RootChain v disk l)
    (hq : q ∈ slotsOf v l) (hfree : IsFree disk q) (hlive : ¬ IsFree card q) :
    OtherFile v l card q :=
  ⟨hq, hlive, fun _ _ hc => (h.new_clus hl hq hfree hlive hc).2⟩

theorem AddsFile.adds (h : AddsFile v l disk card) (hl : RootChain v disk l)
    (hsound : SoundDir v l disk) : Owners.Adds (dirOwners v l disk) (dirOwners v l card) := by
  have hnew : ∀ q, (dirOwners v l card).live q → ¬ (dirOwners v l disk).live q →
      q ∈ slotsOf v l ∧ IsFree disk q ∧ ¬ IsFree card q := by
    rintro q ⟨hq, hentry⟩ hold
    exact ⟨hq, (h.keeps.entry hq hentry).resolve_left fun hwas => hold ⟨hq, hwas⟩, hentry.1⟩
  constructor
  · rintro p c ⟨hp, hentry⟩
    have hfile := hsound.otherFile hp hentry
    simp only [dirOwners, hfile.chain_kept h.keeps]
  · rintro c ⟨hdata, hused, hc⟩
    exact ⟨hdata, (h.keeps.entries c hdata hused).symm ▸ hused, hc⟩
  · rintro q c hlive hold ⟨n, hc⟩
    obtain ⟨hq, hfree, hlive'⟩ := hnew q hlive hold
    obtain ⟨hwas, hused⟩ := h.new_clus hl hq hfree hlive' hc
    exact ⟨fun hbefore => hbefore.2.1 hwas.2, hused⟩
  · intro p q hp hp' hq hq'
    obtain ⟨p0, honce⟩ := h.once
    obtain ⟨hp, hpfree, hplive⟩ := hnew p hp hp'
    obtain ⟨hq, hqfree, hqlive⟩ := hnew q hq hq'
    rw [honce p hp hpfree hplive, honce q hq hqfree hqlive]

theorem SoundDir.adds (hsound : SoundDir v l disk) (hl : RootChain v disk l)
    (h : AddsFile v l disk card) : SoundDir v l card := by
  refine ⟨hsound.owners.adds (h.adds hl hsound), fun p hp hentry => ?_⟩
  rcases h.keeps.entry hp hentry with hwas | hfree
  · obtain ⟨ls, hls⟩ := hsound.ends p hp hwas
    refine ⟨ls, fun n => ?_⟩
    rw [(hsound.otherFile hp hwas).chain_kept h.keeps, hls n]
  · obtain ⟨ls, hls, -⟩ := h.added p hp hfree hentry.1
    exact ⟨ls, hls⟩

/-! The steps. -/

theorem NewChain.added (hv : Geometry v) (h : NewChain (fatTable v disk) (fatTable v card) ls)
    (hfree : ∀ x ∈ ls, IsFreeClus v disk x) (hne : ls ≠ [])
    (hfirst : firstClusOf card q = ls.headD 0) :
    ∃ ls, HasClus v card q ls ∧ ∀ c ∈ ls, IsFreeClus v disk c ∧ fatEntry v card c ≠ 0 := by
  refine ⟨ls, fun n => ?_, fun c hc => ⟨hfree c hc, ?_⟩⟩
  · rw [hfirst]
    exact h.chainClus hv (fun x hx => (hfree x hx).1) hne n
  · rw [← (hfree c hc).1.fatTable hv]
    refine h.ne_zero (fun h0 => ?_) hc
    have := (hfree 0 h0).1.1
    omega

/-- Only the slot `p` has changed, and it was free. -/
theorem addsFile_of_slot (hkeeps : KeepsFiles v l disk card)
    (hslots : ∀ q ∈ slotsOf v l, q ≠ p → ∀ i, i < 32 → slotByte card q i = slotByte disk q i)
    (hadded : IsFree disk p → ¬ IsFree card p → ∃ ls, HasClus v card p ls ∧
      ∀ c ∈ ls, IsFreeClus v disk c ∧ fatEntry v card c ≠ 0) : AddsFile v l disk card := by
  have honce : ∀ q ∈ slotsOf v l, IsFree disk q → ¬ IsFree card q → q = p := by
    intro q hq hfree hlive
    by_contra hne
    exact hlive ((isFree_congr (hslots q hq hne)).mpr hfree)
  refine ⟨hkeeps, fun q hq hfree hlive => ?_, p, honce⟩
  obtain rfl := honce q hq hfree hlive
  exact hadded hfree hlive

theorem Creating.addsFile (h : Creating env fuel s l name p t') :
    AddsFile s.ram.vol l s.card t'.card := by
  have hroom := h.ahead.room h.geometry
  refine addsFile_of_slot h.keeps h.slots fun hfree hlive => ?_
  rcases h.entered with hsame | ⟨hfirst, hchain⟩
  · exact (hlive ((isFree_congr hsame).mpr hfree)).elim
  · refine hchain.added h.geometry (fun x hx => ?_) (taken_ne_nil hroom h.want) ?_
    · obtain ⟨hdata, hzero⟩ := mem_taken hx
      exact ⟨hdata, by rwa [← hdata.fatTable h.geometry]⟩
    · rw [hfirst, taken_head hroom h.want]

theorem openLog_addsFile {r : Except Stop Unit} (hv : Geometry s.ram.vol)
    (hroot : RootOk s.ram.vol s.card) (hl : RootChain s.ram.vol s.card l)
    (hahead : NeedsClus s → FreeAhead s)
    (hrun : (fat32OpenLog fuel).run (fwStep env) s = (r, s')) :
    AddsFile s.ram.vol l s.card s'.card := by
  rcases openLog_creating hv hroot hl hahead hrun with hcard | ⟨name, p, t', hcreating, hcard⟩
  · rw [hcard]
    exact .refl _ _ _
  · rw [hcard]
    exact hcreating.addsFile

theorem LogFile.addsFile (h : NewLog env fuel s s0 l) (hfile : LogFile s0 lg t) :
    AddsFile s.ram.vol l s.card t.card := by
  have hplaced := h.placed
  have hwant := h.want
  obtain ⟨m, hm⟩ : ∃ m, clusWanted s = m + 1 := ⟨clusWanted s - 1, by omega⟩
  have hhead : (List.range' (firstFree s) (clusWanted s)).headD 0 = firstFree s := by
    rw [hm]
    rfl
  refine addsFile_of_slot (hfile.keeps h) (hfile.slots h) fun _ _ => ?_
  refine (hplaced.chained hfile).added h.geometry (fun x hx => ?_) (by rw [hm]; simp) ?_
  · obtain ⟨j, hj, rfl⟩ := List.mem_range'.mp hx
    rw [Nat.one_mul]
    exact h.ahead j hj
  · rw [hplaced.firstClus hfile, hhead]

theorem session_addsFile {cs : List (CommitLog.Call Sector)} (h : NewLog env fuel s s0 l)
    (hrun : Trace LogStep s0 cs t) : AddsFile s.ram.vol l s.card t.card := by
  have hempty := h.placed.empty
  obtain ⟨lg, -, hfile⟩ := hempty.start.run hempty hrun
  exact hfile.addsFile h

theorem trim_addsFile {r : Except Stop Unit} (hv : Geometry s.ram.vol) (hroot : RootOk s.ram.vol s.card)
    (hl : RootChain s.ram.vol s.card l) (hw : NoWrap s.ram.vol)
    (hrun : fat32TrimFree.run (fwStep env) s = (r, s')) : AddsFile s.ram.vol l s.card s'.card := by
  have hslots := trim_slots hv hroot hl hw hrun
  have hsame : ∀ q ∈ slotsOf s.ram.vol l, IsFree s.card q → IsFree s'.card q :=
    fun q hq => (isFree_congr fun i _ => hslots q hq i).mpr
  exact ⟨trim_keeps hv hroot hl hw hrun, fun q hq hfree hlive => (hlive (hsame q hq hfree)).elim,
    (0, 0), fun q hq hfree hlive => (hlive (hsame q hq hfree)).elim⟩

end Barelog
