import Barelog.Proofs.FatCopies
import Barelog.Proofs.NoCode

/-! `fat_write_entry` and `fat_read_entry` on a card that answers, for any volume whose FAT copies
do not overlap. -/

namespace Barelog

open Prog

variable {env : Env} {v : Vol} {disk card : ℕ → Sector} {s s' : Machine} {c val f g : ℕ}

def CopiesAgree (v : Vol) (card : ℕ → Sector) (f g : ℕ) : Prop :=
  ∀ x, x < 128 * v.fatSz32 → card (fatCopySector v x f) = card (fatCopySector v x g)

def reservedBits (v : Vol) (card : ℕ → Sector) (f c : ℕ) : Byte :=
  (card (fatCopySector v c f)).byte (fatOffset c + 3) &&& 0xF0

/-! The reserved bits. -/

theorem and_keepNibble (b : Byte) {n : ℕ} (hn : n < 16) :
    ((b &&& 0xF0) ||| .ofNat n) &&& 0xF0 = b &&& 0xF0 := by
  have hlow : UInt8.ofNat n &&& 0xF0 = 0 := by interval_cases n <;> rfl
  have hsplit : ((b &&& 0xF0) ||| .ofNat n) &&& 0xF0 = ((b &&& 0xF0) &&& 0xF0) ||| (.ofNat n &&& 0xF0) :=
    UInt8.toBitVec_inj.mp BitVec.and_or_distrib_right
  rw [hsplit, hlow, UInt8.and_assoc, UInt8.and_self, UInt8.or_zero]

theorem reserved_setEntry (d : Sector) {off : ℕ} (hoff : off + 3 < 512) (hval : val < 2 ^ 28) :
    (setEntry d off val).byte (off + 3) &&& 0xF0 = d.byte (off + 3) &&& 0xF0 := by
  have h3 : entryRing d.byte off val (off + 3) = (d.byte (off + 3) &&& 0xF0) ||| .ofNat (val / 2 ^ 24) := by
    rw [entryRing, if_neg (by omega), if_neg (by omega), if_neg (by omega), if_pos rfl]
  rw [byte_setEntry _ _ _ hoff, h3]
  exact and_keepNibble _ (by omega)

theorem reservedBits_putFat (ha : CopiesApart v) (hc : c < 128 * v.fatSz32) (hval : val < 2 ^ 28)
    (hf : f < v.numFats) :
    reservedBits v (putFat v disk c val v.numFats) f c = reservedBits v disk f c := by
  rw [reservedBits, putFat_copy ha hc le_rfl hf hc, if_pos ⟨hf, rfl⟩]
  exact reserved_setEntry _ (fatOffset_lt c) hval

theorem CopiesAgree.putFat (ha : CopiesApart v) (hc : c < 128 * v.fatSz32) (hf : f < v.numFats)
    (hg : g < v.numFats) (h : CopiesAgree v disk f g) :
    CopiesAgree v (putFat v disk c val v.numFats) f g := by
  intro x hx
  rw [putFat_copy ha hc le_rfl hf hx, putFat_copy ha hc le_rfl hg hx, h x hx]
  by_cases hdiv : x / 128 = c / 128
  · rw [if_pos ⟨hf, hdiv⟩, if_pos ⟨hg, hdiv⟩]
  · rw [if_neg (fun h => hdiv h.2), if_neg fun h => hdiv h.2]

/-! The two functions. -/

theorem fatReadEntry_good (hgood : env.Good) (c : ℕ) (s : Machine) :
    ∃ s', (fatReadEntry c).run (fwStep env) s = (.ok (fatEntry s.ram.vol s.card c), s') := by
  rcases hrun : (fatReadEntry c).run (fwStep env) s with ⟨r, s'⟩
  rcases (fatReadEntry_cases hrun).1 with rfl | ⟨n, rfl⟩
  · exact ⟨s', rfl⟩
  · exact absurd ⟨n, rfl⟩ (fatReadEntry_noCode hgood c s _ s' hrun)

theorem fatWriteEntry_good (hgood : env.Good) (c val : ℕ) (s : Machine) :
    ∃ s', (fatWriteEntry c val).run (fwStep env) s = (.ok (), s') ∧ s'.ram = s.ram ∧
      s'.card = putFat s.ram.vol s.card c val s.ram.vol.numFats := by
  rcases hrun : (fatWriteEntry c val).run (fwStep env) s with ⟨r, s'⟩
  rcases fatWriteEntry_cases hrun with ⟨rfl, ⟨_, -, -, hscratch⟩, -⟩ | ⟨e, rfl, he, -⟩
  · exact ⟨s', rfl, hscratch.ram, hscratch.card⟩
  · exact absurd he (fatWriteEntry_noCode hgood c val s _ s' hrun)

/-- The entry written is read back and stands in every copy with its reserved bits kept, every other
entry reads as before, and the sectors without the entry are as they were. -/
theorem fat_write_read (hgood : env.Good) (hn : 1 ≤ s.ram.vol.numFats) (ha : CopiesApart s.ram.vol)
    (hc : c < 128 * s.ram.vol.fatSz32) (hval : val < 2 ^ 28) :
    ∃ s', (fatWriteEntry c val).run (fwStep env) s = (.ok (), s') ∧
      ((fatReadEntry c).run (fwStep env) s').1 = .ok val ∧
      (∀ f, f < s.ram.vol.numFats → copyEntry s.ram.vol s'.card f c = val ∧
        reservedBits s.ram.vol s'.card f c = reservedBits s.ram.vol s.card f c) ∧
      (∀ x, x < 128 * s.ram.vol.fatSz32 → x ≠ c → ((fatReadEntry x).run (fwStep env) s').1 =
        ((fatReadEntry x).run (fwStep env) s).1) ∧
      (∀ lba, (∀ f, f < s.ram.vol.numFats → lba ≠ fatCopySector s.ram.vol c f) →
        s'.card lba = s.card lba) ∧
      ∀ f g, f < s.ram.vol.numFats → g < s.ram.vol.numFats → CopiesAgree s.ram.vol s.card f g →
        CopiesAgree s.ram.vol s'.card f g := by
  obtain ⟨s', hrun, hram, hcard⟩ := fatWriteEntry_good hgood c val s
  have hcopy : ∀ f, f < s.ram.vol.numFats → ∀ x, x < 128 * s.ram.vol.fatSz32 →
      copyEntry s.ram.vol s'.card f x = if x = c then val else copyEntry s.ram.vol s.card f x := by
    intro f hf x hx
    rw [hcard, copyEntry_putFat ha hc hval le_rfl hf hx]
    simp only [hf, true_and]
  have hread : ∀ x, x < 128 * s.ram.vol.fatSz32 → ((fatReadEntry x).run (fwStep env) s').1 =
      .ok (if x = c then val else fatEntry s.ram.vol s.card x) := by
    intro x hx
    obtain ⟨t, ht⟩ := fatReadEntry_good hgood x s'
    rw [ht, hram, ← copyEntry_first, hcopy 0 hn x hx, copyEntry_first]
  refine ⟨s', hrun, ?_, fun f hf => ⟨?_, ?_⟩, fun x hx hxc => ?_, fun lba hlba => ?_,
    fun f g hf hg hagree => ?_⟩
  · rw [hread c hc, if_pos rfl]
  · rw [hcopy f hf c hc, if_pos rfl]
  · rw [hcard]
    exact reservedBits_putFat ha hc hval hf
  · obtain ⟨t, ht⟩ := fatReadEntry_good hgood x s
    rw [hread x hx, if_neg hxc, ht]
  · rw [hcard]
    exact putFat_outside hlba
  · rw [hcard]
    exact hagree.putFat ha hc hf hg

def twoFatVol : Vol := { tinyVol with dataLba := 12, numFats := 2 }

theorem twoFatVol_apart : CopiesApart twoFatVol := by
  intro f hf g hg x hx c hc hsec
  have hf : f < 2 := hf
  have hg : g < 2 := hg
  have hx : x < 128 := hx
  have hc : c < 128 := hc
  have hsec : (10 + x / 128) % 2 ^ 32 + f * 1 % 2 ^ 32 = (10 + c / 128) % 2 ^ 32 + g * 1 % 2 ^ 32 := by
    have h : ((10 + x / 128) % 2 ^ 32 + f * 1 % 2 ^ 32) % 2 ^ 32 =
        ((10 + c / 128) % 2 ^ 32 + g * 1 % 2 ^ 32) % 2 ^ 32 := hsec
    omega
  omega

/-- The end-of-chain marker for cluster 3. -/
theorem fat_write_read_two : ∃ s', (fatWriteEntry 3 0x0FFFFFFF).run (fwStep Env.ideal)
    (.mounted twoFatVol fun _ _ => 0xA5) = (.ok (), s') ∧
      ((fatReadEntry 3).run (fwStep Env.ideal) s').1 = .ok 0x0FFFFFFF := by
  have hgood : Env.ideal.Good := fun _ => rfl
  have hn : 1 ≤ (Machine.mounted twoFatVol fun _ _ => 0xA5).ram.vol.numFats := by decide
  have hval : 0x0FFFFFFF < 2 ^ 28 := by decide
  obtain ⟨s', hrun, hread, -⟩ := fat_write_read (c := 3) hgood hn twoFatVol_apart (by decide) hval
  exact ⟨s', hrun, hread⟩

end Barelog
