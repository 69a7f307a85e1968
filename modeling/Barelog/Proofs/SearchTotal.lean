import Barelog.Proofs.NewFile
import Barelog.Proofs.ScanTotal

/-! The calls of `fat32_open_log` that create a file return: with a card that answers, fuel for the
chain of the root directory and for the clusters, the search for a name ends, and so does the
creation. -/

namespace Barelog

open Prog

variable {env : Env} {s s' : Machine} {l : List ℕ} {fuel m n P nS : ℕ} {name : Name} {sc : Scan}

theorem byte_withEntry (d : Sector) (off : ℕ) (entry : ℕ → Byte) {i : ℕ} (hi : i < 512) :
    (withEntry d off entry).byte i = stored d.byte off 32 entry i := by
  rw [Sector.byte, dif_pos hi, withEntry]

theorem RootChain.scratch {t : Machine} (hs : Scratch (s.withLogNum m) t)
    (hl : RootChain s.ram.vol s.card l) : RootChain t.ram.vol t.card l := by
  rw [hs.card, hs.ram]
  exact hl

/-- The scan for a name ends with the answer of the directory. -/
theorem scanRootDir_answer {b : Bool} (hgood : env.Good) (hl : RootChain s.ram.vol s.card l)
    (hfuel : l.length < fuel) (hscan : ScansTo s.ram.vol s.card name b sc) :
    ∃ s1, (scanRootDir fuel name).run (fwStep env) s = (.ok (b, sc), s1) ∧ Scratch s s1 := by
  obtain ⟨b', sc', s1, hrun, hs1, hto⟩ := scanRootDir_returns hgood hl hfuel name
  obtain ⟨rfl, rfl⟩ := hto.unique hscan
  exact ⟨s1, hrun, hs1⟩

/-- A turn of the loop for a name that has a file of another size. -/
theorem nameLoop_skip (nS : ℕ) (hgood : env.Good) (hl : RootChain s.ram.vol s.card l)
    (hfuel : l.length < fuel) (hlt : s.ram.cfg.logNum < 65535)
    (hscan : ScansTo s.ram.vol s.card (makeLogname s.ram.cfg.logNum) true sc)
    (hsize : fileSize s.card sc.found ≠ P) :
    ∃ s1, Scratch (s.withLogNum (s.ram.cfg.logNum + 1)) s1 ∧ ∀ k last,
      (nameLoop fuel P nS (k + 1) last).run (fwStep env) s =
        (nameLoop fuel P nS k (some (makeLogname s.ram.cfg.logNum, sc))).run (fwStep env) s1 := by
  obtain ⟨s1, hrun, hs1⟩ := scanRootDir_answer hgood hl hfuel hscan
  obtain ⟨j, hj, hoff⟩ := (hscan.sound.1 rfl).1.offset
  replace hoff : sc.foundOff = 32 * j := hoff
  set s2 : Machine := { s1.asked with ring := load s1.ring 0 (s1.card sc.foundLba) 512 } with hs2
  have hread : (sdReadSector sc.foundLba 0).run (fwStep env) s1 = (.ok (), s2) := by
    rw [sdReadSector_run, if_pos (hgood _)]
  have hscratch : Scratch s s2 := hs1.trans (scratch_load _ _)
  have hbuf : Buffered s2 sc.foundLba := fun i hi => load_inside hi
  have hle : le32 s2.ring (sc.foundOff + deFileSize) = fileSize s.card sc.found := by
    rw [hbuf.le32 (by unfold deFileSize; omega), hscratch.card]
    rfl
  refine ⟨_, hscratch.withLogNum _, fun k last => ?_⟩
  conv_lhs => unfold nameLoop
  rw [getRam_bind, if_pos hlt, run_bind_ok hrun]
  dsimp only
  rw [if_pos rfl, run_bind_ok hread, run_bind_ok (ringGet32_run _ _ _), hle, if_neg hsize,
    Nat.mod_eq_of_lt (show s.ram.cfg.logNum + 1 < 2 ^ 16 by omega), run_bind_ok (setCfg_run _ _ _)]
  rw [Machine.withLogNum, hscratch.ram]

/-- The turns for the names that have files of another size. -/
theorem nameLoop_skips (nS : ℕ) (hgood : env.Good) (hl : RootChain s.ram.vol s.card l)
    (hfuel : l.length < fuel) (hle : s.ram.cfg.logNum + n ≤ 65535)
    (hskips : Skips s.ram.vol s.card P s.ram.cfg.logNum (s.ram.cfg.logNum + n)) :
    ∃ s1, Scratch (s.withLogNum (s.ram.cfg.logNum + n)) s1 ∧ ∀ k last, ∃ last',
      (nameLoop fuel P nS (k + n) last).run (fwStep env) s =
        (nameLoop fuel P nS k last').run (fwStep env) s1 ∧
      ∀ sc, 0 < n →
        ScansTo s.ram.vol s.card (makeLogname (s.ram.cfg.logNum + n - 1)) true sc →
        last' = some (makeLogname (s.ram.cfg.logNum + n - 1), sc) := by
  induction n with
  | zero => exact ⟨s, .refl s, fun k last => ⟨last, rfl, fun _ h => absurd h (Nat.lt_irrefl 0)⟩⟩
  | succ n ih =>
    obtain ⟨s1, hs1, hrun1⟩ := ih (by omega) fun k hk hkn => hskips k hk (by omega)
    obtain ⟨sc, hscan, hsize⟩ := hskips (s.ram.cfg.logNum + n) (by omega) (by omega)
    have hnum : s1.ram.cfg.logNum = s.ram.cfg.logNum + n := by rw [hs1.ram]; rfl
    have hvol : s1.ram.vol = s.ram.vol := by rw [hs1.ram]; rfl
    have hcard : s1.card = s.card := hs1.card
    rw [← hvol, ← hcard, ← hnum] at hscan
    rw [← hcard] at hsize
    obtain ⟨s2, hs2, hrun2⟩ :=
      nameLoop_skip nS hgood (hl.scratch hs1) hfuel (by omega) hscan hsize
    rw [hnum] at hs2 hrun2 hscan
    refine ⟨s2, (hs1.withLogNum _).trans hs2, fun k last => ?_⟩
    obtain ⟨last1, hlast1, -⟩ := hrun1 (k + 1) last
    refine ⟨some (makeLogname (s.ram.cfg.logNum + n), sc), ?_, fun sc' _ hscan' => ?_⟩
    · rw [← Nat.add_assoc, Nat.add_right_comm, hlast1, hrun2]
    · rw [Nat.add_succ_sub_one] at hscan' ⊢
      rw [hvol, hcard] at hscan
      rw [(hscan.unique hscan').2]

/-- The search ends with the name and the slot that the directory has for it. -/
theorem searchName_returns (hgood : env.Good) (hl : RootChain s.ram.vol s.card l)
    (hfuel : l.length < fuel) (h : Unnamed s name sc) :
    ∃ s1, (searchName fuel s).run (fwStep env) s =
      (.ok (.create name sc.emptyLba sc.emptyOff), s1) := by
  rcases h with ⟨m, hm, hle, hskips, rfl, hscan⟩ | ⟨hlt, hskips, rfl, hscan⟩
  · obtain ⟨n, rfl⟩ := Nat.exists_eq_add_of_le hle
    obtain ⟨s1, hs1, hrun⟩ :=
      nameLoop_skips (preallocSectors s) hgood hl hfuel hm.le hskips
    obtain ⟨last, hlast, -⟩ := hrun (65536 - n) none
    have hnum : s1.ram.cfg.logNum = s.ram.cfg.logNum + n := by rw [hs1.ram]; rfl
    have hvol : s1.ram.vol = s.ram.vol := by rw [hs1.ram]; rfl
    have hcard : s1.card = s.card := hs1.card
    rw [← hvol, ← hcard] at hscan
    obtain ⟨s2, hscan2, -⟩ := scanRootDir_answer hgood (hl.scratch hs1) hfuel hscan
    rw [Nat.sub_add_cancel (by omega)] at hlast
    obtain ⟨k, hk⟩ : ∃ k, 65536 - n = k + 1 := ⟨65535 - n, by omega⟩
    refine ⟨s2, hlast.trans ?_⟩
    rw [hk]
    unfold nameLoop
    rw [getRam_bind, hnum, if_pos hm, run_bind_ok hscan2]
    rfl
  · obtain ⟨n, hn⟩ := Nat.exists_eq_add_of_le hlt.le
    rw [hn] at hskips
    obtain ⟨s1, hs1, hrun⟩ :=
      nameLoop_skips (preallocSectors s) hgood hl hfuel hn.ge hskips
    obtain ⟨last, hlast, hsome⟩ := hrun (65536 - n) none
    rw [hsome sc (by omega) (by rwa [← hn]), Nat.sub_add_cancel (by omega), ← hn] at hlast
    have hnum : s1.ram.cfg.logNum = 65535 := by rw [hs1.ram, hn]; rfl
    obtain ⟨k, hk⟩ : ∃ k, 65536 - n = k + 1 := ⟨65535 - n, by omega⟩
    refine ⟨s1, hlast.trans ?_⟩
    rw [hk]
    unfold nameLoop
    rw [getRam_bind, hnum, if_neg (Nat.lt_irrefl _)]
    rfl

/-- With a card that answers, a volume with room and fuel enough, a call that needs clusters
creates a file. -/
theorem openLog_returns (hgood : env.Good) (hv : Geometry s.ram.vol)
    (hroot : RootOk s.ram.vol s.card) (hl : RootChain s.ram.vol s.card l) (hfuel : l.length < fuel)
    (hroom : clusWanted s ≤ (freeClus s.ram.vol s.card).length)
    (hclus : clusCount s.ram.vol < fuel) (hneeds : NeedsClus s) :
    ∃ s', (fat32OpenLog fuel).run (fwStep env) s = (.ok (), s') := by
  obtain ⟨name, sc, hunnamed, hlba⟩ := hneeds
  obtain ⟨s1, hsearch⟩ := searchName_returns hgood hl hfuel hunnamed
  refine (openLog_succeeds fuel hgood hv hroot hroom hclus ?_).2
  rw [searchesSlot, hsearch]
  simpa using hlba

end Barelog
