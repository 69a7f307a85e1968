import Barelog.Proofs.Alloc

/-! The copies of the FAT. A call of `fat_write_entry` for a free cluster keeps the other entries
in every copy, however far it gets. -/

namespace Barelog

open Prog

def copyEntry (v : Vol) (card : ℕ → Sector) (f c : ℕ) : ℕ :=
  let d := card (fatCopySector v c f)
  let off := fatOffset c
  entryValue (d.byte off) (d.byte (off + 1)) (d.byte (off + 2)) (d.byte (off + 3))

def SameCopies (v : Vol) (card : ℕ → Sector) : Prop :=
  ∀ f, f < v.numFats → ∀ c, c < 128 * v.fatSz32 → copyEntry v card f c = fatEntry v card c

/-- The entries in use of `disk` have their values in every copy. -/
def KeepsUsed (v : Vol) (disk card : ℕ → Sector) : Prop :=
  ∀ f, f < v.numFats → ∀ c, c < 128 * v.fatSz32 → copyEntry v disk f c ≠ 0 →
    copyEntry v card f c = copyEntry v disk f c

variable {env : Env} {v : Vol} {disk card : ℕ → Sector} {s0 s s' : Machine} {c val f m : ℕ}

theorem KeepsUsed.refl (v : Vol) (disk : ℕ → Sector) : KeepsUsed v disk disk :=
  fun _ _ _ _ _ => rfl

/-- The first copy of the FAT is the one that is read. -/
theorem copyEntry_first (v : Vol) (card : ℕ → Sector) (c : ℕ) :
    copyEntry v card 0 c = fatEntry v card c := by
  have hsec : fatCopySector v c 0 = fatSector v c := by
    rw [fatCopySector, Nat.zero_mul]
    exact Nat.mod_mod _ _
  rw [copyEntry, fatEntry, hsec]

def CopiesApart (v : Vol) : Prop :=
  ∀ f, f < v.numFats → ∀ g, g < v.numFats → ∀ x, x < 128 * v.fatSz32 → ∀ c, c < 128 * v.fatSz32 →
    fatCopySector v x f = fatCopySector v c g → f = g ∧ x / 128 = c / 128

theorem Geometry.apart (hv : Geometry v) : CopiesApart v := by
  intro f hf g hg x hx c hc hsec
  rw [(hv.fatCopySector_eq hx hf).1, (hv.fatCopySector_eq hc hg).1] at hsec
  have hdivx : x / 128 < v.fatSz32 := by omega
  have hdivc : c / 128 < v.fatSz32 := by omega
  rcases Nat.lt_trichotomy f g with hlt | rfl | hgt
  · have := Nat.mul_le_mul_right v.fatSz32 (show f + 1 ≤ g from hlt)
    rw [Nat.add_mul] at this
    omega
  · exact ⟨rfl, by omega⟩
  · have := Nat.mul_le_mul_right v.fatSz32 (show g + 1 ≤ f from hgt)
    rw [Nat.add_mul] at this
    omega

theorem copyEntry_congr (hv : Geometry v) (hf : f < v.numFats) (hc : c < 128 * v.fatSz32)
    (h : ∀ lba, lba < v.dataLba → card lba = disk lba) :
    copyEntry v card f c = copyEntry v disk f c := by
  rw [copyEntry, copyEntry, h _ (hv.fatCopySector_eq hc hf).2]

theorem SameCopies.congr (hv : Geometry v) (hs : SameCopies v disk)
    (h : ∀ lba, lba < v.dataLba → card lba = disk lba) : SameCopies v card := by
  intro f hf c hc
  rw [copyEntry_congr hv hf hc h, hs f hf c hc, ← copyEntry_first, ← copyEntry_first,
    copyEntry_congr hv hv.numFats hc h]

theorem KeepsUsed.congr {card' : ℕ → Sector} (hv : Geometry v) (hk : KeepsUsed v disk card)
    (h : ∀ lba, lba < v.dataLba → card' lba = card lba) : KeepsUsed v disk card' := by
  intro f hf c hc hne
  rw [copyEntry_congr hv hf hc h, hk f hf c hc hne]

/-- Sector `k` of copy `f`, once the entry of `c` is written in the first `m` copies. -/
theorem putFat_copy (ha : CopiesApart v) (hc : c < 128 * v.fatSz32) (hm : m ≤ v.numFats)
    (hf : f < v.numFats) {x : ℕ} (hx : x < 128 * v.fatSz32) :
    putFat v disk c val m (fatCopySector v x f) =
      if f < m ∧ x / 128 = c / 128 then setEntry (disk (fatCopySector v x f)) (fatOffset c) val
      else disk (fatCopySector v x f) := by
  induction m with
  | zero => rw [putFat, if_neg (by omega)]
  | succ m ih =>
    by_cases hsec : fatCopySector v x f = fatCopySector v c m
    · obtain ⟨hfm, hdiv⟩ := ha f hf m (by omega) x hx c hc hsec
      rw [putFat, hsec, Function.update_self, if_pos ⟨by omega, hdiv⟩, ← hsec, ih (by omega),
        if_neg (by omega)]
    · have hne : ¬ (f = m ∧ x / 128 = c / 128) := by
        rintro ⟨rfl, hdiv⟩
        exact hsec (by rw [fatCopySector, fatCopySector, fatSector, fatSector, hdiv])
      rw [putFat, Function.update_of_ne hsec, ih (by omega)]
      by_cases hlt : f < m ∧ x / 128 = c / 128
      · rw [if_pos hlt, if_pos ⟨by omega, hlt.2⟩]
      · rw [if_neg hlt, if_neg (by omega)]

/-- Writing the entry of `c` in the first `m` copies changes it there, and nothing else. -/
theorem copyEntry_putFat (ha : CopiesApart v) (hc : c < 128 * v.fatSz32) (hval : val < 2 ^ 28)
    (hm : m ≤ v.numFats) (hf : f < v.numFats) {x : ℕ} (hx : x < 128 * v.fatSz32) :
    copyEntry v (putFat v disk c val m) f x =
      if f < m ∧ x = c then val else copyEntry v disk f x := by
  have hput : putFat v disk c val m (fatCopySector v x f) = _ := putFat_copy ha hc hm hf hx
  by_cases hin : f < m ∧ x / 128 = c / 128
  · rw [if_pos hin] at hput
    rw [copyEntry, copyEntry, hput]
    by_cases hxc : x = c
    · subst hxc
      rw [if_pos ⟨hin.1, rfl⟩]
      exact entry_set_self _ (fatOffset_lt x) hval
    · have hoff : fatOffset x + 4 ≤ fatOffset c ∨ fatOffset c + 4 ≤ fatOffset x := by
        unfold fatOffset
        omega
      rw [if_neg (fun h => hxc h.2)]
      simp only [byte_setEntry_of_ne _ (show fatOffset x < fatOffset c ∨
          fatOffset c + 4 ≤ fatOffset x by omega),
        byte_setEntry_of_ne _ (show fatOffset x + 1 < fatOffset c ∨
          fatOffset c + 4 ≤ fatOffset x + 1 by omega),
        byte_setEntry_of_ne _ (show fatOffset x + 2 < fatOffset c ∨
          fatOffset c + 4 ≤ fatOffset x + 2 by omega),
        byte_setEntry_of_ne _ (show fatOffset x + 3 < fatOffset c ∨
          fatOffset c + 4 ≤ fatOffset x + 3 by omega)]
  · rw [if_neg hin] at hput
    rw [copyEntry, copyEntry, hput, if_neg fun h => hin ⟨h.1, by rw [h.2]⟩]

/-- A write to the entry of a cluster that was free keeps what was in use. -/
theorem KeepsUsed.putFat (hv : Geometry v) (hsame : SameCopies v disk) (hk : KeepsUsed v disk card)
    (hc : c < 128 * v.fatSz32) (hfree : fatEntry v disk c = 0) (hval : val < 2 ^ 28)
    (hm : m ≤ v.numFats) : KeepsUsed v disk (putFat v card c val m) := by
  intro f hf x hx hne
  rw [copyEntry_putFat hv.apart hc hval hm hf hx, if_neg]
  · exact hk f hf x hx hne
  · rintro ⟨-, rfl⟩
    exact hne ((hsame f hf x hx).trans hfree)

theorem SameCopies.putFat (hv : Geometry v) (hs : SameCopies v card) (hc : c < 128 * v.fatSz32)
    (hval : val < 2 ^ 28) : SameCopies v (putFat v card c val v.numFats) := by
  have hn := hv.numFats
  intro f hf x hx
  rw [← copyEntry_first, copyEntry_putFat hv.apart hc hval le_rfl hf hx,
    copyEntry_putFat hv.apart hc hval le_rfl (by omega) hx, hs f hf x hx, copyEntry_first]
  by_cases hxc : x = c
  · rw [if_pos ⟨hf, hxc⟩, if_pos ⟨by omega, hxc⟩]
  · rw [if_neg (fun h => hxc h.2), if_neg fun h => hxc h.2]

/-- The copies are identical, and what was in use in `s0` is kept. -/
structure Copies (s0 s : Machine) : Prop where
  same : SameCopies s0.ram.vol s.card
  kept : KeepsUsed s0.ram.vol s0.card s.card

theorem Copies.write (hv : Geometry s0.ram.vol) (hsame : SameCopies s0.ram.vol s0.card)
    (h : Copies s0 s) (hram : s.ram = s0.ram) (hc : IsDataClus s0.ram.vol c)
    (hfree : fatTable s0.ram.vol s0.card c = 0) (hval : val < 2 ^ 28) {r : Except Stop Unit}
    (hrun : (fatWriteEntry c val).run (fwStep env) s = (r, s')) :
    (r = .ok () → Copies s0 s') ∧ KeepsUsed s0.ram.vol s0.card s'.card := by
  have hlt := hv.lt_entries hc
  rw [hc.fatTable hv] at hfree
  have hput : ∀ m, PutFat s c val m s' → KeepsUsed s0.ram.vol s0.card s'.card ∧
      (m = s0.ram.vol.numFats → SameCopies s0.ram.vol s'.card) := by
    rintro m ⟨⟨evs, -, -, hscratch⟩, hm⟩
    rw [hram] at hscratch hm
    rw [hscratch.card]
    refine ⟨h.kept.putFat hv hsame hlt hfree hval hm, ?_⟩
    rintro rfl
    exact h.same.putFat hv hlt hval
  rcases fatWriteEntry_cases hrun with ⟨rfl, hs⟩ | ⟨e, rfl, -, m, hs⟩
  · obtain ⟨hkept, hall⟩ := hput _ hs
    exact ⟨fun _ => ⟨hall (by rw [hram]), hkept⟩, hkept⟩
  · exact ⟨nofun, (hput _ hs).1⟩

end Barelog
