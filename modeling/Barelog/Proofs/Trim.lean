import Barelog.Proofs.TrimScan

/-! `fat32_trim_free` on a volume whose LBAs do not wrap erases the sectors of the clusters whose
FAT entry is 0, for all entries that the FAT has room for. On every volume it stays in the data
region exactly when the runs past the last cluster do. -/

namespace Barelog

open Prog

/-- No LBA of a cluster that has a FAT entry wraps. -/
def NoWrap (v : Vol) : Prop := v.dataLba + (128 * v.fatSz32 - 2) * v.secPerClus ≤ 2 ^ 32

structure FreeRun (v : Vol) (card : ℕ → Sector) (a b : ℕ) : Prop where
  two_le : 2 ≤ a
  lt : a < b
  free : ∀ c, a ≤ c → c < b → fatEntry v card c = 0

def eraseOf (v : Vol) (p : ℕ × ℕ) : CardEvent := .erase (clusLba v p.1) (clusLba v p.2 - 1)

structure TrimGeometry (v : Vol) : Prop where
  secPerClus : 1 ≤ v.secPerClus
  fat : v.fatLba + v.fatSz32 ≤ v.dataLba

theorem Geometry.trim {v : Vol} (hv : Geometry v) : TrimGeometry v := by
  have hfats : 1 * v.fatSz32 ≤ v.numFats * v.fatSz32 := Nat.mul_le_mul_right _ hv.numFats
  have hfat := hv.fat
  exact ⟨hv.secPerClus, by omega⟩

/-- Runs of free clusters, in ascending order and with a cluster between any two. -/
structure FreeRuns (v : Vol) (card : ℕ → Sector) (runs : List (ℕ × ℕ)) : Prop where
  free : ∀ p ∈ runs, FreeRun v card p.1 p.2
  apart : runs.Pairwise fun p q => p.2 < q.1

/-- How many runs of free clusters end before cluster `c`: cluster `d` ends one when its entry is
not 0 and the one before is. -/
def endedRuns (v : Vol) (card : ℕ → Sector) : ℕ → ℕ
  | 0 => 0
  | d + 1 => endedRuns v card d +
      if 3 ≤ d ∧ fatEntry v card (d - 1) = 0 ∧ fatEntry v card d ≠ 0 then 1 else 0

/-- The request that reads sector `k` of the FAT comes after the `k` reads of the sectors before
and the erasure of the runs that end in them. -/
def readReq (s0 : Machine) (k : ℕ) : ℕ :=
  s0.reqs + k + endedRuns s0.ram.vol s0.card (128 * k)

variable {env : Env} {s0 s : Machine} {v : Vol} {c : ℕ} {p : ℕ × ℕ}

theorem NoWrap.clusLba_le (hw : NoWrap v) (hc : c ≤ 128 * v.fatSz32) :
    clusLba v c ≤ 2 ^ 32 := by
  have := clusLba_mono v hc
  have : clusLba v (128 * v.fatSz32) ≤ 2 ^ 32 := hw
  omega

theorem NoWrap.entries_lt (hv : TrimGeometry v) (hw : NoWrap v) : 128 * v.fatSz32 < 2 ^ 32 := by
  have hspc : 128 * v.fatSz32 - 2 ≤ (128 * v.fatSz32 - 2) * v.secPerClus :=
    Nat.le_mul_of_pos_right _ hv.secPerClus
  have hfat := hv.fat
  have hwrap : v.dataLba + (128 * v.fatSz32 - 2) * v.secPerClus ≤ 2 ^ 32 := hw
  omega

theorem NoWrap.clusToLba_eq (hv : TrimGeometry v) (hw : NoWrap v) (h2 : 2 ≤ c)
    (hc : c < 128 * v.fatSz32) : clusToLba v c = clusLba v c := by
  have hentries := hw.entries_lt hv
  have hnext := hw.clusLba_le (c := c + 1) hc
  have hspc := hv.secPerClus
  rw [clusLba_succ v h2] at hnext
  have hcode := clusToLba_u32 v (e := c) (by omega)
  rw [u32, u32, Nat.mod_eq_of_lt (by omega), Nat.mod_eq_of_lt (by omega)] at hcode
  exact hcode

theorem TrimGeometry.scan (hv : TrimGeometry v) (hw : NoWrap v) : ScanGeometry v := by
  refine ⟨hv.secPerClus, fun hpos => ?_⟩
  have hspc : 128 * v.fatSz32 - 2 ≤ (128 * v.fatSz32 - 2) * v.secPerClus :=
    Nat.le_mul_of_pos_right _ hv.secPerClus
  have hfat := hv.fat
  have hwrap : v.dataLba + (128 * v.fatSz32 - 2) * v.secPerClus ≤ 2 ^ 32 := hw
  omega

/-! The runs of the scan, when no LBA wraps. -/

theorem freeRun_of_opened {card : ℕ → Sector} {a b : ℕ} (h : Runs.Opened (EntryFree v card) a b) :
    FreeRun v card a b where
  two_le := (h.all a le_rfl h.lt).1.trans (Nat.mod_le _ _)
  lt := h.lt
  free c hac hcb := (h.all c hac hcb).2

theorem NoWrap.entryFree_iff (hv : TrimGeometry v) (hw : NoWrap v) {card : ℕ → Sector}
    (hc : c < 128 * v.fatSz32) : EntryFree v card c ↔ 2 ≤ c ∧ fatEntry v card c = 0 := by
  have hentries := hw.entries_lt hv
  rw [EntryFree, Nat.mod_eq_of_lt (by omega)]

theorem NoWrap.eraseEvent_eq (hv : TrimGeometry v) (hw : NoWrap v) {card : ℕ → Sector}
    (hrun : FreeRun v card p.1 p.2) (hp : p.2 ≤ 128 * v.fatSz32) :
    eraseEvent v p = eraseOf v p := by
  have hspc := hv.secPerClus
  have hend := hw.clusLba_le hp
  have hmono := clusLba_mono v (show p.1 + 1 ≤ p.2 from hrun.lt)
  rw [clusLba_succ v hrun.two_le] at hmono
  simp only [eraseEvent, eraseRange, u32, eraseOf]
  rw [Nat.mod_eq_of_lt (by omega), Nat.mod_eq_of_lt (by omega)]

/-- The scan has ended as many runs as there are entries in use after a free one. -/
theorem NoWrap.length_trimScan (hv : TrimGeometry s0.ram.vol) (hw : NoWrap s0.ram.vol)
    (hc : c ≤ 128 * s0.ram.vol.fatSz32) :
    (trimScan s0 c).1.length = endedRuns s0.ram.vol s0.card c := by
  induction c with
  | zero => rfl
  | succ d ih =>
    have hfree : EntryFree s0.ram.vol s0.card d ↔ 2 ≤ d ∧ fatEntry s0.ram.vol s0.card d = 0 :=
      hw.entryFree_iff hv hc
    have ih := ih (by omega)
    by_cases hd : EntryFree s0.ram.vol s0.card d
    · have hnot : ¬ (3 ≤ d ∧ fatEntry s0.ram.vol s0.card (d - 1) = 0 ∧
          fatEntry s0.ram.vol s0.card d ≠ 0) := fun h => h.2.2 hd.2
      rw [trimScan, Runs.scan_free hd, endedRuns, if_neg hnot, ← ih]
      rfl
    · have hopen : ((trimScan s0 d).2).isSome ↔
          3 ≤ d ∧ fatEntry s0.ram.vol s0.card (d - 1) = 0 ∧ fatEntry s0.ram.vol s0.card d ≠ 0 := by
        rw [trimScan, Runs.isSome_iff, hw.entryFree_iff hv (by omega)]
        rw [hfree] at hd
        omega
      have hlength : (Runs.closing (trimScan s0 d).2 d).length =
          if 3 ≤ d ∧ fatEntry s0.ram.vol s0.card (d - 1) = 0 ∧ fatEntry s0.ram.vol s0.card d ≠ 0
          then 1 else 0 := by
        cases ho : (trimScan s0 d).2 with
        | none => rw [if_neg fun h => by simpa [ho] using hopen.mpr h]; rfl
        | some a => rw [if_pos (hopen.mp (by rw [ho]; rfl))]; rfl
      rw [trimScan, Runs.scan_used hd, List.length_append, endedRuns, ← hlength, ← ih]
      rfl

theorem NoWrap.scanReq_eq (hv : TrimGeometry s0.ram.vol) (hw : NoWrap s0.ram.vol) {k : ℕ}
    (hk : k ≤ s0.ram.vol.fatSz32) : scanReq s0 k = readReq s0 k := by
  rw [scanReq, hw.length_trimScan hv (by omega), readReq]

/-- The ranges begin in the data region, after the FAT. -/
theorem NoWrap.not_hitsFat (hv : TrimGeometry s0.ram.vol) (hw : NoWrap s0.ram.vol) :
    ¬ HitsFat s0 s := by
  rintro ⟨evs, -, p, hp, -, i, hi, htouch⟩
  have hrun := Runs.mem_runs_iff.mp hp
  rw [hw.eraseEvent_eq hv (freeRun_of_opened hrun.toOpened) hrun.le] at htouch
  have hfirst : clusLba s0.ram.vol p.1 ≤ s0.ram.vol.fatLba + i := htouch.1
  have hdata : s0.ram.vol.dataLba ≤ clusLba s0.ram.vol p.1 := Nat.le_add_right _ _
  have hfat := hv.fat
  omega

/-- A run of `fat32_trim_free` erases runs of free clusters: all of them, or those in FAT sectors
before the first that could not be read. -/
theorem fat32TrimFree_run (env : Env) (hv : TrimGeometry s0.ram.vol) (hw : NoWrap s0.ram.vol)
    {r : Except Stop Unit} (hrun : fat32TrimFree.run (fwStep env) s0 = (r, s)) :
    ∃ (runs : List (ℕ × ℕ)) (k : ℕ), s.events = s0.events ++ runs.map (eraseOf s0.ram.vol) ∧
      FreeRuns s0.ram.vol s0.card runs ∧ (∀ p ∈ runs, p.2 ≤ 128 * k) ∧
      (∀ j < k, env.answer (readReq s0 j) = .good) ∧
      ((r = .ok () ∧ k = s0.ram.vol.fatSz32 ∧ ∀ c, 2 ≤ c → c < 128 * s0.ram.vol.fatSz32 →
          fatEntry s0.ram.vol s0.card c = 0 → ∃ p ∈ runs, p.1 ≤ c ∧ c < p.2) ∨
        k < s0.ram.vol.fatSz32 ∧ env.answer (readReq s0 k) ≠ .good ∧
          r = .error (.code (env.answer (readReq s0 k)).readCode)) := by
  have hreq : ∀ j, j < s0.ram.vol.fatSz32 → scanReq s0 j = readReq s0 j :=
    fun j hj => hw.scanReq_eq hv hj.le
  have hmap : ∀ runs : List (ℕ × ℕ), (∀ p ∈ runs, FreeRun s0.ram.vol s0.card p.1 p.2 ∧
      p.2 ≤ 128 * s0.ram.vol.fatSz32) →
      runs.map (eraseEvent s0.ram.vol) = runs.map (eraseOf s0.ram.vol) := fun runs hruns =>
    List.map_congr_left fun p hp => hw.eraseEvent_eq hv (hruns p hp).1 (hruns p hp).2
  rcases fat32TrimFree_scan env (hv.scan hw) hrun with hhit |
    ⟨-, ⟨rfl, hev, hall⟩ | ⟨k, hk, rfl, hev, hall, hbad⟩⟩
  · exact (hw.not_hitsFat hv hhit).elim
  · have hruns : ∀ p ∈ trimRuns s0, FreeRun s0.ram.vol s0.card p.1 p.2 ∧
        p.2 ≤ 128 * s0.ram.vol.fatSz32 := by
      intro p hp
      have hrun := Runs.mem_runs_iff.mp hp
      exact ⟨freeRun_of_opened hrun.toOpened, hrun.le⟩
    refine ⟨trimRuns s0, _, hev.trans (by rw [hmap _ hruns]), ⟨fun p hp => (hruns p hp).1,
      Runs.runs_apart _ _⟩, fun p hp => (hruns p hp).2, fun j hj => hreq j hj ▸ hall j hj,
      .inl ⟨rfl, rfl, ?_⟩⟩
    intro c h2 hc hzero
    exact Runs.exists_run hc ((hw.entryFree_iff hv hc).mpr ⟨h2, hzero⟩)
  · have hruns : ∀ p ∈ (trimScan s0 (128 * k)).1, FreeRun s0.ram.vol s0.card p.1 p.2 ∧
        p.2 ≤ 128 * k := by
      intro p hp
      obtain ⟨hopen, hlt, -⟩ := Runs.mem_ended_iff.mp hp
      exact ⟨freeRun_of_opened hopen, hlt.le⟩
    have hle : ∀ p ∈ (trimScan s0 (128 * k)).1, FreeRun s0.ram.vol s0.card p.1 p.2 ∧
        p.2 ≤ 128 * s0.ram.vol.fatSz32 := by
      intro p hp
      exact ⟨(hruns p hp).1, (hruns p hp).2.trans (Nat.mul_le_mul_left _ hk.le)⟩
    rw [hreq k hk] at hbad ⊢
    exact ⟨_, k, hev.trans (by rw [hmap _ hle]), ⟨fun p hp => (hruns p hp).1,
      Runs.ended_apart _ _⟩, fun p hp => (hruns p hp).2,
      fun j hj => hreq j (hj.trans hk) ▸ hall j hj, .inr ⟨hk, hbad, rfl⟩⟩

def InRanges (ranges : List (ℕ × ℕ)) (lba : ℕ) : Prop := ∃ p ∈ ranges, p.1 ≤ lba ∧ lba ≤ p.2

def sectorsOf (v : Vol) (p : ℕ × ℕ) : ℕ × ℕ := (clusLba v p.1, clusLba v p.2 - 1)

theorem NoWrap.inClus_iff (hv : TrimGeometry v) (hw : NoWrap v) (h2 : 2 ≤ c)
    (hc : c < 128 * v.fatSz32) {lba : ℕ} :
    InClus v c lba ↔ clusLba v c ≤ lba ∧ lba < clusLba v (c + 1) := by
  rw [InClus, hw.clusToLba_eq hv h2 hc, clusLba_succ v h2]

/-- The sectors between two clusters are those of the clusters from one to the other. -/
theorem exists_clusLba (v : Vol) {a b lba : ℕ} (hlo : clusLba v a ≤ lba)
    (hhi : lba < clusLba v b) : ∃ c, a ≤ c ∧ c < b ∧ clusLba v c ≤ lba ∧ lba < clusLba v (c + 1) := by
  induction b with
  | zero =>
    have := clusLba_mono v (Nat.zero_le a)
    omega
  | succ b ih =>
    rcases Nat.lt_or_ge lba (clusLba v b) with hlt | hge
    · obtain ⟨c, hac, hcb, hin⟩ := ih hlt
      exact ⟨c, hac, by omega, hin⟩
    · refine ⟨b, ?_, Nat.lt_succ_self b, hge, hhi⟩
      by_contra hnot
      have := clusLba_mono v (show b + 1 ≤ a by omega)
      omega

theorem FreeRun.sectors {card : ℕ → Sector} {a b lba : ℕ} (hv : TrimGeometry v) (hw : NoWrap v)
    (hrun : FreeRun v card a b) (hb : b ≤ 128 * v.fatSz32) :
    (clusLba v a ≤ lba ∧ lba ≤ clusLba v b - 1) ↔ ∃ c, a ≤ c ∧ c < b ∧ InClus v c lba := by
  have hlt := hrun.lt
  have h2 := hrun.two_le
  have hmono := clusLba_mono v (show a + 1 ≤ b from hlt)
  rw [clusLba_succ v h2] at hmono
  have hspc := hv.secPerClus
  constructor
  · rintro ⟨hlo, hhi⟩
    obtain ⟨c, hac, hcb, hin⟩ := exists_clusLba v hlo (show lba < clusLba v b by omega)
    exact ⟨c, hac, hcb, (hw.inClus_iff hv (by omega) (by omega)).mpr hin⟩
  · rintro ⟨c, hac, hcb, hin⟩
    obtain ⟨hlo, hhi⟩ := (hw.inClus_iff hv (by omega) (by omega)).mp hin
    have := clusLba_mono v hac
    have := clusLba_mono v (show c + 1 ≤ b from hcb)
    omega

theorem NoWrap.inClus_unique (hv : TrimGeometry v) (hw : NoWrap v) {c d lba : ℕ} (h2 : 2 ≤ c)
    (hc : c < 128 * v.fatSz32) (hd2 : 2 ≤ d) (hd : d < 128 * v.fatSz32) (hin : InClus v c lba)
    (hin' : InClus v d lba) : c = d := by
  obtain ⟨hlo, hhi⟩ := (hw.inClus_iff hv h2 hc).mp hin
  obtain ⟨hlo', hhi'⟩ := (hw.inClus_iff hv hd2 hd).mp hin'
  rcases Nat.lt_trichotomy c d with hlt | heq | hlt
  · have := clusLba_mono v (show c + 1 ≤ d from hlt)
    omega
  · exact heq
  · have := clusLba_mono v (show d + 1 ≤ c from hlt)
    omega

/-- The ranges of runs of free clusters are in ascending order and no two of them touch. -/
theorem FreeRuns.sectors_apart {card : ℕ → Sector} {runs : List (ℕ × ℕ)} (hv : TrimGeometry v)
    (hruns : FreeRuns v card runs) :
    (runs.map (sectorsOf v)).Pairwise fun p q => p.2 + 1 < q.1 := by
  rw [List.pairwise_map]
  refine hruns.apart.imp_of_mem ?_
  intro p q hp _ hlt
  have hfree := hruns.free p hp
  have hspc := hv.secPerClus
  have h2 : 2 ≤ p.2 := hfree.two_le.trans hfree.lt.le
  have hmono := clusLba_mono v (show p.2 + 1 ≤ q.1 from hlt)
  have hfirst := clusLba_mono v (show p.1 + 1 ≤ p.2 from hfree.lt)
  rw [clusLba_succ v hfree.two_le] at hfirst
  rw [clusLba_succ v h2] at hmono
  have : (sectorsOf v p).2 = clusLba v p.2 - 1 := rfl
  have : (sectorsOf v q).1 = clusLba v q.1 := rfl
  omega

/-- The sectors of runs of free clusters, all of them below cluster `m`. -/
theorem FreeRuns.inRanges_iff {card : ℕ → Sector} {runs : List (ℕ × ℕ)} {m lba : ℕ}
    (hv : TrimGeometry v) (hw : NoWrap v) (hruns : FreeRuns v card runs)
    (hbelow : ∀ p ∈ runs, p.2 ≤ m) (hm : m ≤ 128 * v.fatSz32) :
    InRanges (runs.map (sectorsOf v)) lba ↔
      ∃ c, (∃ p ∈ runs, p.1 ≤ c ∧ c < p.2) ∧ InClus v c lba := by
  constructor
  · rintro ⟨q, hq, hin⟩
    obtain ⟨p, hp, rfl⟩ := List.mem_map.mp hq
    obtain ⟨c, hpc, hcp, hlba⟩ :=
      ((hruns.free p hp).sectors hv hw ((hbelow p hp).trans hm)).mp hin
    exact ⟨c, ⟨p, hp, hpc, hcp⟩, hlba⟩
  · rintro ⟨c, ⟨p, hp, hpc, hcp⟩, hlba⟩
    exact ⟨_, List.mem_map_of_mem hp,
      ((hruns.free p hp).sectors hv hw ((hbelow p hp).trans hm)).mpr ⟨c, hpc, hcp, hlba⟩⟩

def FreeBelow (v : Vol) (card : ℕ → Sector) (m c : ℕ) : Prop :=
  2 ≤ c ∧ c < m ∧ fatEntry v card c = 0

/-- `fat32_trim_free` erases exactly the sectors of the free clusters, in ascending ranges no two
of which touch; when it cannot read a sector of the FAT it returns the error, and what it has
erased by then is free by the sectors before. -/
theorem trim_erases_free_clusters (env : Env) (s0 s : Machine) (r : Except Stop Unit)
    (hspc : 1 ≤ s0.ram.vol.secPerClus)
    (hfat : s0.ram.vol.fatLba + s0.ram.vol.fatSz32 ≤ s0.ram.vol.dataLba)
    (hw : NoWrap s0.ram.vol) (hrun : fat32TrimFree.run (fwStep env) s0 = (r, s)) :
    ∃ ranges : List (ℕ × ℕ),
      s.events = s0.events ++ ranges.map (fun p => .erase p.1 p.2) ∧
      (∀ p ∈ ranges, p.1 ≤ p.2) ∧ ranges.Pairwise (fun p q => p.2 + 1 < q.1) ∧
      (∀ c lba, 2 ≤ c → c < 128 * s0.ram.vol.fatSz32 → fatEntry s0.ram.vol s0.card c ≠ 0 →
        InClus s0.ram.vol c lba → ¬ InRanges ranges lba) ∧
      ((∀ k < s0.ram.vol.fatSz32, env.answer (readReq s0 k) = .good) →
        r = .ok () ∧ ∀ lba, InRanges ranges lba ↔
          ∃ c, FreeBelow s0.ram.vol s0.card (128 * s0.ram.vol.fatSz32) c ∧
            InClus s0.ram.vol c lba) ∧
      ∀ k < s0.ram.vol.fatSz32, (∀ j < k, env.answer (readReq s0 j) = .good) →
        env.answer (readReq s0 k) ≠ .good →
        r = .error (.code (env.answer (readReq s0 k)).readCode) ∧
          ∀ lba, InRanges ranges lba →
            ∃ c, FreeBelow s0.ram.vol s0.card (128 * k) c ∧ InClus s0.ram.vol c lba := by
  have hv : TrimGeometry s0.ram.vol := ⟨hspc, hfat⟩
  obtain ⟨runs, m, hev, hruns, hbelow, hread, hm⟩ := fat32TrimFree_run env hv hw hrun
  have hle : 128 * m ≤ 128 * s0.ram.vol.fatSz32 := by
    rcases hm with ⟨-, rfl, -⟩ | ⟨hlt, -, -⟩
    · exact le_rfl
    · omega
  have hsound : ∀ lba, InRanges (runs.map (sectorsOf s0.ram.vol)) lba →
      ∃ c, FreeBelow s0.ram.vol s0.card (128 * m) c ∧ InClus s0.ram.vol c lba := by
    intro lba hin
    obtain ⟨c, ⟨p, hp, hpc, hcp⟩, hlba⟩ := (hruns.inRanges_iff hv hw hbelow hle).mp hin
    have hfree := hruns.free p hp
    exact ⟨c, ⟨hfree.two_le.trans hpc, hcp.trans_le (hbelow p hp), hfree.free c hpc hcp⟩, hlba⟩
  refine ⟨runs.map (sectorsOf s0.ram.vol), ?_, ?_, hruns.sectors_apart hv, ?_, ?_, ?_⟩
  · rw [hev, List.map_map]
    rfl
  · intro q hq
    obtain ⟨p, hp, rfl⟩ := List.mem_map.mp hq
    have hfree := hruns.free p hp
    have hmono := clusLba_mono s0.ram.vol (show p.1 + 1 ≤ p.2 from hfree.lt)
    rw [clusLba_succ _ hfree.two_le] at hmono
    change clusLba s0.ram.vol p.1 ≤ clusLba s0.ram.vol p.2 - 1
    omega
  · intro c lba h2 hc hused hin hranges
    obtain ⟨d, ⟨hd2, hd, hzero⟩, hin'⟩ := hsound lba hranges
    obtain rfl := hw.inClus_unique hv h2 hc hd2 (by omega) hin hin'
    exact hused hzero
  · intro hgood
    rcases hm with ⟨rfl, rfl, hcover⟩ | ⟨hlt, hbad, -⟩
    swap
    · exact absurd (hgood m hlt) hbad
    refine ⟨rfl, fun lba => ⟨hsound lba, ?_⟩⟩
    rintro ⟨c, ⟨h2, hc, hzero⟩, hlba⟩
    exact (hruns.inRanges_iff hv hw hbelow hle).mpr ⟨c, hcover c h2 hc hzero, hlba⟩
  · intro k hk hbefore hbad
    have hmk : m = k := by
      rcases Nat.lt_trichotomy m k with hlt | heq | hgt
      · rcases hm with ⟨-, rfl, -⟩ | ⟨-, hbad', -⟩
        · omega
        · exact absurd (hbefore m hlt) hbad'
      · exact heq
      · exact absurd (hread k hgt) hbad
    subst hmk
    rcases hm with ⟨-, rfl, -⟩ | ⟨-, -, rfl⟩
    · omega
    · exact ⟨rfl, hsound⟩

theorem tinyVol_noWrap : NoWrap tinyVol := by
  unfold NoWrap
  decide

/-- Clusters 2 and 4 are free, and no entry but theirs is 0. -/
def freedCard : ℕ → Sector := fun _ i => if i.val / 4 = 2 ∨ i.val / 4 = 4 then 0 else 0xFF

/-- The sectors of clusters 2 and 4 are erased, that of cluster 3 between them is not. -/
theorem trim_erases_free_clusters_tiny :
    ∃ ranges : List (ℕ × ℕ), (fat32TrimFree.run (fwStep Env.ideal)
        (.mounted tinyVol freedCard)).2.events = ranges.map (fun p => .erase p.1 p.2) ∧
      InRanges ranges 11 ∧ ¬ InRanges ranges 12 ∧ InRanges ranges 13 := by
  obtain ⟨ranges, hev, -, -, hused, hgood, -⟩ :=
    trim_erases_free_clusters Env.ideal (.mounted tinyVol freedCard) _ _ (by decide) (by decide)
      tinyVol_noWrap Prod.mk.eta.symm
  have hfree := (hgood fun _ _ => rfl).2
  have hclus : InClus tinyVol 2 11 ∧ InClus tinyVol 3 12 ∧ InClus tinyVol 4 13 := by
    unfold InClus
    decide
  refine ⟨ranges, hev, (hfree 11).mpr ⟨2, ⟨le_rfl, by decide, by decide⟩, hclus.1⟩,
    hused 3 12 (by decide) (by decide) (by decide) hclus.2.1,
    (hfree 13).mpr ⟨4, ⟨by decide, by decide, by decide⟩, hclus.2.2⟩⟩

/-- Every sector of the erased ranges is in the data region of the volume. -/
def ErasesOnlyData (v : Vol) (evs : List CardEvent) : Prop :=
  ∀ a b, .erase a b ∈ evs → ∀ lba, a ≤ lba → lba ≤ b →
    v.dataLba ≤ lba ∧ lba < v.partLba + v.totSec

/-- A range that ends before it begins has no sector; any other is in the data region. -/
def RangeStays (v : Vol) (q : ℕ × ℕ) : Prop :=
  q.2 < q.1 ∨ v.dataLba ≤ q.1 ∧ q.2 < v.partLba + v.totSec

instance (v : Vol) (q : ℕ × ℕ) : Decidable (RangeStays v q) := inferInstanceAs (Decidable (_ ∨ _))

/-- The range of every maximal run of free entries that goes past the last data cluster is empty
or in the data region, its LBAs taken modulo 2^32. -/
def SlackStays (v : Vol) (card : ℕ → Sector) : Prop :=
  ∀ a b, Runs.IsRun (EntryFree v card) (128 * v.fatSz32) a b → clusCount v + 2 < b →
    RangeStays v (u32 (clusLba v a), u32 (clusLba v b - 1))

instance (v : Vol) (card : ℕ → Sector) : Decidable (SlackStays v card) :=
  decidable_of_iff (∀ p ∈ Runs.runs (EntryFree v card) (128 * v.fatSz32), clusCount v + 2 < p.2 →
      RangeStays v (eraseRange v p))
    ⟨fun h a b hrun => h (a, b) (Runs.mem_runs_iff.mpr hrun),
      fun h p hp => h p.1 p.2 (Runs.mem_runs_iff.mp hp)⟩

theorem erasesOnlyData_iff {runs : List (ℕ × ℕ)} :
    ErasesOnlyData v (runs.map (eraseEvent v)) ↔ ∀ p ∈ runs, RangeStays v (eraseRange v p) := by
  constructor
  · intro hdata p hp
    by_cases hempty : (eraseRange v p).2 < (eraseRange v p).1
    · exact .inl hempty
    · have hmem := List.mem_map_of_mem (f := eraseEvent v) hp
      exact .inr ⟨(hdata _ _ hmem _ le_rfl (Nat.not_lt.mp hempty)).1,
        (hdata _ _ hmem _ (Nat.not_lt.mp hempty) le_rfl).2⟩
  · intro hstays a b hab lba hlo hhi
    obtain ⟨p, hp, he⟩ := List.mem_map.mp hab
    cases he
    rcases hstays p hp with hempty | ⟨hfirst, hlast⟩
    · omega
    · exact ⟨hfirst.trans hlo, hhi.trans_lt hlast⟩

theorem Geometry.rangeStays (hv : Geometry v) {card : ℕ → Sector} (hrun : FreeRun v card p.1 p.2)
    (hp : p.2 ≤ clusCount v + 2) : RangeStays v (eraseRange v p) := by
  have hhigh := clusLba_mono v hp
  have hmono := clusLba_mono v (show p.1 + 1 ≤ p.2 from hrun.lt)
  rw [clusLba_succ v hrun.two_le] at hmono
  have hspc := hv.secPerClus
  have hend := hv.clusCount_mul
  have hwrap := hv.wrap
  have hlow : v.dataLba ≤ clusLba v p.1 := Nat.le_add_right _ _
  have hlast : clusLba v (clusCount v + 2) = v.dataLba + clusCount v * v.secPerClus := rfl
  refine .inr ?_
  simp only [eraseRange, u32]
  rw [Nat.mod_eq_of_lt (by omega), Nat.mod_eq_of_lt (by omega)]
  exact ⟨hlow, by omega⟩

/-- A run that goes past the last data cluster and stays has wrapped. -/
theorem RangeStays.wraps (hv : Geometry v) {card : ℕ → Sector} (hrun : FreeRun v card p.1 p.2)
    (hp : clusCount v + 2 < p.2) (h : RangeStays v (eraseRange v p)) : 2 ^ 32 < clusLba v p.2 := by
  by_contra hle
  have hmono := clusLba_mono v (show p.1 + 1 ≤ p.2 from hrun.lt)
  rw [clusLba_succ v hrun.two_le] at hmono
  have hspc := hv.secPerClus
  -- the last sector of the run is past the end of the partition
  have hpast : v.partLba + v.totSec < clusLba v p.2 := by
    have hslack := clusLba_mono v (show clusCount v + 3 ≤ p.2 from hp)
    have := hv.lt_clusCount_mul
    have : clusLba v (clusCount v + 3) = v.dataLba + (clusCount v + 1) * v.secPerClus := rfl
    omega
  simp only [RangeStays, eraseRange, u32] at h
  rw [Nat.mod_eq_of_lt (by omega), Nat.mod_eq_of_lt (by omega)] at h
  omega

/-- When no LBA wraps, the runs stay exactly when the FAT has no entry 0 after that of the last
cluster. -/
theorem NoWrap.slackStays_iff (hv : Geometry v) (hw : NoWrap v) {card : ℕ → Sector} :
    SlackStays v card ↔
      ∀ c, clusCount v + 2 ≤ c → c < 128 * v.fatSz32 → fatEntry v card c ≠ 0 := by
  constructor
  · intro h c hc hlt hzero
    have hfree : EntryFree v card c := (hw.entryFree_iff hv.trim hlt).mpr ⟨by omega, hzero⟩
    obtain ⟨p, hp, -, hcp⟩ := Runs.exists_run hlt hfree
    have hrun := Runs.mem_runs_iff.mp hp
    have hpast : clusCount v + 2 < p.2 := by omega
    have hwraps := (h p.1 p.2 hrun hpast).wraps hv (freeRun_of_opened hrun.toOpened) hpast
    exact absurd (hw.clusLba_le hrun.le) (by omega)
  · intro h a b hrun hpast
    have hlt := hrun.lt
    have hle := hrun.le
    exact absurd (hrun.all (b - 1) (by omega) (by omega)).2 (h (b - 1) (by omega) (by omega))

theorem SlackStays.rangeStays (hv : Geometry s0.ram.vol) (h : SlackStays s0.ram.vol s0.card)
    (hp : p ∈ trimRuns s0) : RangeStays s0.ram.vol (eraseRange s0.ram.vol p) := by
  have hrun := Runs.mem_runs_iff.mp hp
  rcases Nat.lt_or_ge (clusCount s0.ram.vol + 2) p.2 with hpast | hdata
  · exact h p.1 p.2 hrun hpast
  · exact hv.rangeStays (freeRun_of_opened hrun.toOpened) hdata

/-- A sector of the FAT is before the data region. -/
theorem Geometry.not_touches_fat (hv : Geometry v) (h : RangeStays v (eraseRange v p)) {i : ℕ}
    (hi : i < v.fatSz32) : ¬ (eraseEvent v p).Touches (v.fatLba + i) := by
  rintro ⟨hlo, hhi⟩
  have hfat := hv.trim.fat
  rcases h with hempty | ⟨hfirst, -⟩
  · omega
  · omega

/-- With a card that answers, the scan leaves the data region unless the runs stay in it. -/
theorem slackStays_of_ideal (hv : Geometry s0.ram.vol) {evs : List CardEvent}
    (hevs : (fat32TrimFree.run (fwStep Env.ideal) s0).2.events = s0.events ++ evs)
    (hdata : ErasesOnlyData s0.ram.vol evs) : SlackStays s0.ram.vol s0.card := by
  have hrun : fat32TrimFree.run (fwStep Env.ideal) s0 =
      ((fat32TrimFree.run (fwStep Env.ideal) s0).1, (fat32TrimFree.run (fwStep Env.ideal) s0).2) := rfl
  rcases fat32TrimFree_scan Env.ideal hv.scan hrun with
    ⟨evs', hev, p, -, hmem, i, hi, htouch⟩ | ⟨-, ⟨-, hev, -⟩ | ⟨k, -, -, -, -, hbad⟩⟩
  · rw [List.append_cancel_left (hevs.symm.trans hev)] at hdata
    have hout := (hdata _ _ hmem _ htouch.1 htouch.2).1
    have hfat := hv.trim.fat
    omega
  · rw [List.append_cancel_left (hevs.symm.trans hev)] at hdata
    intro a b hab _
    exact erasesOnlyData_iff.mp hdata (a, b) (Runs.mem_runs_iff.mpr hab)
  · exact absurd rfl hbad

/-- When they stay in it, so does the scan, however it ends. -/
theorem SlackStays.erasesOnlyData (hv : Geometry s0.ram.vol)
    (hstays : SlackStays s0.ram.vol s0.card) {r : Except Stop Unit} {evs : List CardEvent}
    (hrun : fat32TrimFree.run (fwStep env) s0 = (r, s)) (hevs : s.events = s0.events ++ evs) :
    ErasesOnlyData s0.ram.vol evs := by
  rcases fat32TrimFree_scan env hv.scan hrun with
    ⟨-, -, p, hp, -, i, hi, htouch⟩ | ⟨-, ⟨-, hev, -⟩ | ⟨k, hk, -, hev, -, -⟩⟩
  · exact (hv.not_touches_fat (hstays.rangeStays hv hp) hi htouch).elim
  · rw [List.append_cancel_left (hevs.symm.trans hev)]
    exact erasesOnlyData_iff.mpr fun p hp => hstays.rangeStays hv hp
  · rw [List.append_cancel_left (hevs.symm.trans hev)]
    refine erasesOnlyData_iff.mpr fun p hp => hstays.rangeStays hv (Runs.mem_runs_iff.mpr ?_)
    exact Runs.isRun_of_ended hp (Nat.mul_le_mul_left _ hk.le)

/-- `fat32_trim_free` stays in the data region, whatever the card answers, exactly when every run
of free entries past the last data cluster does. -/
theorem trim_erases_only_data_iff (s0 : Machine) (hv : Geometry s0.ram.vol) :
    (∀ env r s evs, fat32TrimFree.run (fwStep env) s0 = (r, s) → s.events = s0.events ++ evs →
      ErasesOnlyData s0.ram.vol evs) ↔
    SlackStays s0.ram.vol s0.card := by
  constructor
  · intro hdata
    obtain ⟨evs, hevs, -⟩ := run_untouched Env.ideal fat32TrimFree s0
    exact slackStays_of_ideal hv hevs (hdata Env.ideal _ _ evs rfl hevs)
  · intro hstays env r s evs hrun hevs
    exact hstays.erasesOnlyData hv hrun hevs

/-- Two free clusters, and no entry 0 after that of the last cluster. -/
theorem trim_erases_only_data_freed : ErasesOnlyData tinyVol
    (fat32TrimFree.run (fwStep Env.ideal) (.mounted tinyVol freedCard)).2.events :=
  (trim_erases_only_data_iff (.mounted tinyVol freedCard) tinyVol_geometry).mpr (by decide +kernel)
    Env.ideal _ _ _ Prod.mk.eta.symm (List.nil_append _).symm

/-- Three clusters of one sector each, the last of them just before LBA 2^32. -/
def highVol : Vol :=
  { tinyVol with fatLba := 100, dataLba := 4294967286, partLba := 90, totSec := 4294967199 }

/-- The run of an empty FAT ends before it begins. -/
example : Geometry highVol ∧ SlackStays highVol fun _ _ => 0 := by decide +kernel

/-- A FAT that is 0 after the entry of the last cluster: the scan erases up to sector 136 of a
volume that ends at sector 14. -/
theorem trim_past_end : ¬ ErasesOnlyData tinyVol
    (fat32TrimFree.run (fwStep Env.ideal) (.mounted tinyVol fun _ _ => 0)).2.events := by
  intro hdata
  have hv : Geometry (Machine.mounted tinyVol fun _ _ => 0).ram.vol := tinyVol_geometry
  have hstays := slackStays_of_ideal hv (List.nil_append _).symm hdata
  exact absurd hstays (by decide +kernel)

end Barelog
