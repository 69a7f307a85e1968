import Barelog.Proofs.RootEntries

/-! A file as a program that reads the card finds it: the sectors of the chain that its directory
entry starts, cut at the size in the entry. What is read depends on nothing else, and a file with
consecutive clusters is a run of sectors. -/

namespace Barelog

open Links

variable {v : Vol} {card disk : ℕ → Sector} {fat0 : ℕ → ℕ} {p : Slot} {a m c : ℕ} {l : List ℕ}

def clusSectors (v : Vol) (card : ℕ → Sector) (c : ℕ) : List Sector :=
  (List.range v.secPerClus).map fun i => card (clusToLba v c + i)

def chainBytes (v : Vol) (card : ℕ → Sector) (c : ℕ) : List Byte :=
  ((chainClus v card (clusCount v) c).flatMap (clusSectors v card)).flatMap List.ofFn

def readFile (v : Vol) (card : ℕ → Sector) (p : Slot) : List Byte :=
  (chainBytes v card (firstClusOf card p)).take (fileSize card p)

/-! Rows of equal length. -/

theorem flatMap_rows {β : Type} (f : ℕ → β) (n k : ℕ) :
    (List.range n).flatMap (fun j => (List.range k).map fun i => f (j * k + i)) =
      (List.range (n * k)).map f := by
  induction n with
  | zero => simp
  | succ n ih =>
    rw [List.range_succ, List.flatMap_append, ih, List.flatMap_singleton, Nat.add_mul, Nat.one_mul,
      List.range_add, List.map_append, List.map_map]
    rfl

theorem flatMap_take {β γ : Type} {f : β → List γ} {w : ℕ} (l : List β)
    (hf : ∀ x ∈ l, (f x).length = w) (j : ℕ) :
    (l.flatMap f).take (w * j) = (l.take j).flatMap f := by
  induction l generalizing j with
  | nil => simp
  | cons x l ih =>
    have hx := hf x List.mem_cons_self
    cases j with
    | zero => rfl
    | succ j =>
      rw [List.flatMap_cons, List.take_succ_cons, List.flatMap_cons, List.take_append, hx,
        List.take_of_length_le (by rw [hx, Nat.mul_succ]; omega), Nat.mul_succ,
        Nat.add_sub_cancel, ih (fun y hy => hf y (List.mem_cons_of_mem _ hy))]

theorem sector_length (d : Sector) : (List.ofFn d).length = 512 := by rw [List.length_ofFn]

theorem sectors_take (l : List Sector) (j : ℕ) :
    (l.flatMap List.ofFn).take (512 * j) = (l.take j).flatMap List.ofFn :=
  flatMap_take l (fun d _ => sector_length d) j

/-! What a file depends on. -/

/-- A file whose entry, chain and sectors are the same on two cards has the same content. -/
theorem readFile_congr (hslot : ∀ i, i < 32 → slotByte card p i = slotByte disk p i)
    (hfat : ∀ n, ∀ c ∈ chainClus v disk n (firstClusOf disk p), fatEntry v card c = fatEntry v disk c)
    (hdata : ∀ n, ∀ c ∈ chainClus v disk n (firstClusOf disk p), ∀ i, i < v.secPerClus →
      card (clusToLba v c + i) = disk (clusToLba v c + i)) :
    readFile v card p = readFile v disk p := by
  have hfirst : firstClusOf card p = firstClusOf disk p := by
    simp only [firstClusOf, le16, deFstClusHi, deFstClusLo, hslot, Nat.reduceAdd, Nat.reduceLT]
  have hsize : fileSize card p = fileSize disk p := by
    simp only [fileSize, le32, le16, deFileSize, hslot, Nat.reduceAdd, Nat.reduceLT]
  have hchain : chainClus v card (clusCount v) (firstClusOf disk p) =
      chainClus v disk (clusCount v) (firstClusOf disk p) := follow_congr (hfat _)
  rw [readFile, readFile, chainBytes, chainBytes, hfirst, hsize, hchain]
  congr 2
  refine List.flatMap_congr fun c hc => List.map_congr_left fun i hi => ?_
  exact hdata _ c hc i (List.mem_range.mp hi)

/-! Consecutive clusters. -/

theorem run_le_count (hdata : ∀ j, j ≤ m → IsDataClus v (a + j)) : m + 1 ≤ clusCount v := by
  have h2 := (hdata 0 (Nat.zero_le m)).1
  have hm := (hdata m le_rfl).2
  omega

/-- A chain of consecutive clusters is the sectors from the first one on. -/
theorem chainBytes_run (hv : Geometry v) (hdata : ∀ j, j ≤ m → IsDataClus v (a + j))
    (hchain : NewChain fat0 (fatTable v card) (List.range' a (m + 1))) :
    chainBytes v card a =
      ((List.range ((m + 1) * v.secPerClus)).map fun k => card (clusToLba v a + k)).flatMap
        List.ofFn := by
  have hmem : ∀ x ∈ List.range' a (m + 1), IsDataClus v x := by
    intro x hx
    obtain ⟨j, hj, rfl⟩ := List.mem_range'.mp hx
    rw [Nat.one_mul]
    exact hdata j (by omega)
  have hne : List.range' a (m + 1) ≠ [] := by simp
  have hclus : chainClus v card (clusCount v) a = List.range' a (m + 1) := by
    have h := hchain.chainClus hv hmem hne (clusCount v)
    rw [List.take_of_length_le (by rw [List.length_range']; exact run_le_count hdata)] at h
    exact h
  rw [chainBytes, hclus, ← flatMap_rows, List.range'_eq_map_range, List.flatMap_map]
  refine congrArg (List.flatMap List.ofFn) ?_
  refine List.flatMap_congr fun j hj => List.map_congr_left fun i _ => ?_
  have hj' : j < m + 1 := List.mem_range.mp hj
  have h2 : 2 ≤ a := (hdata 0 (Nat.zero_le m)).1
  have hle := (hdata j (by omega)).2
  rw [clusToLba_add hv h2 (by omega), Nat.add_assoc]

end Barelog
