import Barelog.Proofs.FatEntry

/-! No two clusters of a volume share a sector, and no two share a byte of the FAT: the cluster
arithmetic of `fat32_priv.h`, in 32 bits, on every volume that lies below sector `2 ^ 32`. -/

namespace Barelog

/-- A FAT32 volume with `n` clusters between `data_lba` and the end of the partition, and an entry
for each of them in its FAT. -/
structure Layout (v : Vol) (n : ℕ) : Prop where
  secPerClus : 1 ≤ v.secPerClus
  numFats : 1 ≤ v.numFats
  fat : v.fatLba + v.numFats * v.fatSz32 ≤ v.dataLba
  data : v.dataLba + n * v.secPerClus ≤ v.partLba + v.totSec
  wrap : v.partLba + v.totSec < 2 ^ 32
  entries : n + 2 ≤ 128 * v.fatSz32

/-- The sector and the offset in it of byte `i` of the FAT entry of a cluster. -/
def entryPlace (v : Vol) (c i : ℕ) : ℕ × ℕ := (fatSector v c, fatOffset c + i)

variable {v : Vol} {n c c' : ℕ}

theorem Geometry.layout (hv : Geometry v) : Layout v (clusCount v) where
  secPerClus := hv.secPerClus
  numFats := hv.numFats
  fat := hv.fat
  data := hv.clusCount_mul
  wrap := hv.wrap
  entries := hv.entries

namespace Layout

theorem clus_fits (hv : Layout v n) (hc : 2 ≤ c ∧ c ≤ n + 1) :
    v.dataLba + (c - 2) * v.secPerClus + v.secPerClus ≤ v.partLba + v.totSec := by
  have hmul : (c - 2 + 1) * v.secPerClus ≤ n * v.secPerClus := Nat.mul_le_mul_right _ (by omega)
  have hdata := hv.data
  rw [Nat.add_mul] at hmul
  omega

theorem clusToLba_eq (hv : Layout v n) (hc : 2 ≤ c ∧ c ≤ n + 1) :
    clusToLba v c = v.dataLba + (c - 2) * v.secPerClus := by
  have hfits := hv.clus_fits hc
  have hwrap := hv.wrap
  have hone : (c - 2) * 1 ≤ (c - 2) * v.secPerClus := Nat.mul_le_mul_left _ hv.secPerClus
  have hsub : (c + 2 ^ 32 - 2) % 2 ^ 32 = c - 2 := by omega
  rw [clusToLba, u32, u32, u32, hsub, Nat.mod_eq_of_lt (by omega), Nat.mod_eq_of_lt (by omega)]

theorem fatSector_eq (hv : Layout v n) (hc : 2 ≤ c ∧ c ≤ n + 1) :
    fatSector v c = v.fatLba + c / 128 ∧ c / 128 < v.fatSz32 := by
  have hone : 1 * v.fatSz32 ≤ v.numFats * v.fatSz32 := Nat.mul_le_mul_right _ hv.numFats
  have hentries := hv.entries
  have hdiv : c / 128 < v.fatSz32 := by omega
  have hfat := hv.fat
  have hdata := hv.data
  have hwrap := hv.wrap
  exact ⟨by rw [fatSector, u32, Nat.mod_eq_of_lt (by omega)], hdiv⟩

theorem clus_before (hv : Layout v n) (hc : 2 ≤ c ∧ c ≤ n + 1) (hc' : 2 ≤ c' ∧ c' ≤ n + 1)
    (hlt : c < c') : clusToLba v c + v.secPerClus ≤ clusToLba v c' := by
  have hmul : (c - 2 + 1) * v.secPerClus ≤ (c' - 2) * v.secPerClus :=
    Nat.mul_le_mul_right _ (by omega)
  rw [hv.clusToLba_eq hc, hv.clusToLba_eq hc']
  rw [Nat.add_mul] at hmul
  omega

/-- Sector and offset together are the position in the FAT, which gives the cluster. -/
theorem entryPlace_inj (hv : Layout v n) (hc : 2 ≤ c ∧ c ≤ n + 1) (hc' : 2 ≤ c' ∧ c' ≤ n + 1)
    {i j : ℕ} (hi : i < 4) (hj : j < 4) (h : entryPlace v c i = entryPlace v c' j) : c = c' := by
  unfold entryPlace fatOffset at h
  rw [(hv.fatSector_eq hc).1, (hv.fatSector_eq hc').1, Prod.mk.injEq] at h
  obtain ⟨hsector, hoffset⟩ := h
  omega

end Layout

/-- Distinct data clusters have disjoint sectors inside the data area, and disjoint entries in the
first copy of the FAT. -/
theorem clusters_disjoint (hv : Layout v n) (hc : 2 ≤ c ∧ c ≤ n + 1) (hc' : 2 ≤ c' ∧ c' ≤ n + 1)
    (hne : c ≠ c') :
    (∀ lba, InClus v c lba → ¬ InClus v c' lba) ∧
    (∀ lba, InClus v c lba → v.dataLba ≤ lba ∧ lba < v.partLba + v.totSec) ∧
    (v.fatLba ≤ fatSector v c ∧ fatSector v c < v.fatLba + v.fatSz32) ∧
    fatOffset c + 3 < 512 ∧
    ∀ i j, i < 4 → j < 4 → entryPlace v c i ≠ entryPlace v c' j := by
  refine ⟨?_, ?_, ?_, fatOffset_lt c, ?_⟩
  · intro lba h h'
    unfold InClus at h h'
    rcases Nat.lt_or_gt_of_ne hne with hlt | hlt
    · have := hv.clus_before hc hc' hlt
      omega
    · have := hv.clus_before hc' hc hlt
      omega
  · intro lba h
    have hfits := hv.clus_fits hc
    unfold InClus at h
    rw [hv.clusToLba_eq hc] at h
    omega
  · obtain ⟨heq, hlt⟩ := hv.fatSector_eq hc
    omega
  · intro i j hi hj h
    exact hne (hv.entryPlace_inj hc hc' hi hj h)

/-- The first and the last cluster of a volume of three. -/
theorem clusters_disjoint_tiny : fatSector tinyVol 2 < tinyVol.fatLba + tinyVol.fatSz32 ∧
    entryPlace tinyVol 2 3 ≠ entryPlace tinyVol 4 0 := by
  have hfirst : 2 ≤ 2 ∧ 2 ≤ clusCount tinyVol + 1 := by decide
  have hlast : 2 ≤ 4 ∧ 4 ≤ clusCount tinyVol + 1 := by decide
  have h := clusters_disjoint tinyVol_geometry.layout hfirst hlast (by decide)
  exact ⟨h.2.2.1.2, h.2.2.2.2 3 0 (by decide) (by decide)⟩

end Barelog
