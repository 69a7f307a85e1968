import Barelog.Proofs.NewFile
import Barelog.Proofs.Trim

/-! What `fat32_trim_free` leaves alone: every sector that is not one of a free cluster. The card
changes only where the events say so, and its events are erasures of free clusters. -/

namespace Barelog

open Prog

variable {env : Env} {s s0 : Machine} {v : Vol} {card disk : ℕ → Sector} {c lba : ℕ}

/-- A sector of a free cluster that has an entry in the FAT. -/
def InFree (v : Vol) (card : ℕ → Sector) (lba : ℕ) : Prop :=
  ∃ c, 2 ≤ c ∧ c < 128 * v.fatSz32 ∧ fatEntry v card c = 0 ∧ clusLba v c ≤ lba ∧
    lba < clusLba v (c + 1)

/-! Free clusters. -/

theorem InFree.data (h : InFree v card lba) : v.dataLba ≤ lba := by
  obtain ⟨c, -, -, -, hlo, -⟩ := h
  exact (Nat.le_add_right _ _).trans hlo

theorem Geometry.clusLba_eq (hv : Geometry v) (hc : IsDataClus v c) : clusToLba v c = clusLba v c :=
  hv.clusToLba_eq hc.1 (by have := hc.2; omega)

theorem not_inFree (hv : Geometry v) (hc : IsDataClus v c) (hused : fatEntry v card c ≠ 0)
    (hin : InClus v c lba) : ¬ InFree v card lba := by
  rintro ⟨d, h2, -, hzero, hlo, hhi⟩
  have hfirst := hin.1
  have hlast := hin.2
  rw [hv.clusLba_eq hc] at hfirst hlast
  rw [← clusLba_succ v hc.1] at hlast
  have hcd : c = d := by
    rcases Nat.lt_trichotomy c d with hlt | heq | hlt
    · have := clusLba_mono v (show c + 1 ≤ d from hlt)
      omega
    · exact heq
    · have := clusLba_mono v (show d + 1 ≤ c from hlt)
      omega
  exact hused (hcd ▸ hzero)

theorem inFree_of_clus (hv : Geometry v) (hc : IsDataClus v c) (hzero : fatEntry v card c = 0)
    (hin : InClus v c lba) : InFree v card lba := by
  have hfirst := hin.1
  have hlast := hin.2
  rw [hv.clusLba_eq hc] at hfirst hlast
  rw [← clusLba_succ v hc.1] at hlast
  exact ⟨c, hc.1, hv.lt_entries hc, hzero, hfirst, hlast⟩

theorem InFree.mono (h : InFree v card lba)
    (hzero : ∀ x, fatTable v card x = 0 → fatTable v disk x = 0) : InFree v disk lba := by
  obtain ⟨c, h2, hc, hfree, hin⟩ := h
  have htable : ∀ card, fatTable v card c = fatEntry v card c := fun card => if_pos hc
  rw [← htable] at hfree
  exact ⟨c, h2, hc, htable disk ▸ hzero c hfree, hin⟩

/-! The trim. -/

theorem trim_ram (hv : TrimGeometry s0.ram.vol) (hw : NoWrap s0.ram.vol) {r : Except Stop Unit}
    (hrun : fat32TrimFree.run (fwStep env) s0 = (r, s)) : s.ram = s0.ram := by
  rcases fat32TrimFree_scan env (hv.scan hw) hrun with hhit | ⟨hram, -⟩
  · exact (hw.not_hitsFat hv hhit).elim
  · exact hram

/-- However the trim ends, only sectors of free clusters have changed. -/
theorem trim_frame (hv : TrimGeometry s0.ram.vol) (hw : NoWrap s0.ram.vol) {r : Except Stop Unit}
    (hrun : fat32TrimFree.run (fwStep env) s0 = (r, s)) (hlba : ¬ InFree s0.ram.vol s0.card lba) :
    s.card lba = s0.card lba := by
  obtain ⟨runs, k, hev, hruns, hbelow, -, hk⟩ := fat32TrimFree_run env hv hw hrun
  have hle : k ≤ s0.ram.vol.fatSz32 := by
    rcases hk with ⟨-, rfl, -⟩ | ⟨hlt, -, -⟩
    · exact le_rfl
    · exact hlt.le
  obtain ⟨evs, hevs, hcard⟩ := run_untouched env fat32TrimFree s0
  rw [hrun] at hevs hcard
  obtain rfl : evs = runs.map (eraseOf s0.ram.vol) := List.append_cancel_left (hevs.symm.trans hev)
  refine hcard lba fun e he htouch => hlba ?_
  obtain ⟨p, hp, rfl⟩ := List.mem_map.mp he
  have hfree := hruns.free p hp
  have hmono := clusLba_mono s0.ram.vol (show p.1 + 1 ≤ p.2 from hfree.lt)
  have hspc := hv.secPerClus
  rw [clusLba_succ _ hfree.two_le] at hmono
  obtain ⟨hlo, hhi⟩ : clusLba s0.ram.vol p.1 ≤ lba ∧ lba ≤ clusLba s0.ram.vol p.2 - 1 := htouch
  obtain ⟨c, hpc, hcp, hin⟩ := exists_clusLba s0.ram.vol hlo (show lba < clusLba s0.ram.vol p.2 by omega)
  have hend := hbelow p hp
  exact ⟨c, hfree.two_le.trans hpc, by omega, hfree.free c hpc hcp, hin⟩

end Barelog
