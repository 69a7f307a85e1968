import Barelog.Proofs.Sd
import Barelog.Spec.Fat
import Barelog.Spec.Config

/-! FAT volumes and their entries. `fat_read_entry` reads the entry of a cluster in the first
copy of the FAT; `fat_write_entry` changes that entry in every copy and nothing else. -/

namespace Barelog

open Prog

/-- N: the whole clusters between `data_lba` and the end of the partition. -/
def clusCount (v : Vol) : ℕ := (v.partLba + v.totSec - v.dataLba) / v.secPerClus

def Machine.mounted (v : Vol) (card : ℕ → Sector) : Machine :=
  let s := Machine.powerUp card fun _ => 0xFF
  { s with ram := { s.ram with vol := v, cfg := configDefaults } }

structure Geometry (v : Vol) : Prop where
  secPerClus : 1 ≤ v.secPerClus
  numFats : 1 ≤ v.numFats
  fat : v.fatLba + v.numFats * v.fatSz32 ≤ v.dataLba
  data : v.dataLba ≤ v.partLba + v.totSec
  wrap : v.partLba + v.totSec < 2 ^ 32
  entries : clusCount v + 2 ≤ 128 * v.fatSz32
  small : clusCount v + 1 < 0x0FFFFFF7

instance (v : Vol) : Decidable (Geometry v) :=
  decidable_of_iff (1 ≤ v.secPerClus ∧ 1 ≤ v.numFats ∧ v.fatLba + v.numFats * v.fatSz32 ≤ v.dataLba ∧
      v.dataLba ≤ v.partLba + v.totSec ∧ v.partLba + v.totSec < 2 ^ 32 ∧
      clusCount v + 2 ≤ 128 * v.fatSz32 ∧ clusCount v + 1 < 0x0FFFFFF7)
    ⟨fun h => ⟨h.1, h.2.1, h.2.2.1, h.2.2.2.1, h.2.2.2.2.1, h.2.2.2.2.2.1, h.2.2.2.2.2.2⟩,
      fun h => ⟨h.secPerClus, h.numFats, h.fat, h.data, h.wrap, h.entries, h.small⟩⟩

/-- Data clusters are 2 to N + 1. -/
def IsDataClus (v : Vol) (c : ℕ) : Prop := 2 ≤ c ∧ c ≤ clusCount v + 1

instance (v : Vol) (c : ℕ) : Decidable (IsDataClus v c) := inferInstanceAs (Decidable (_ ∧ _))

def InClus (v : Vol) (c lba : ℕ) : Prop := clusToLba v c ≤ lba ∧ lba < clusToLba v c + v.secPerClus

def InFat (v : Vol) (lba : ℕ) : Prop := v.fatLba ≤ lba ∧ lba < v.dataLba

/-- The entry of a cluster in the first copy of the FAT, less the reserved upper nibble. -/
def fatEntry (v : Vol) (card : ℕ → Sector) (c : ℕ) : ℕ :=
  let d := card (fatSector v c)
  let off := fatOffset c
  entryValue (d.byte off) (d.byte (off + 1)) (d.byte (off + 2)) (d.byte (off + 3))

def entryRing (ring : ℕ → Byte) (off val : ℕ) : ℕ → Byte := fun i =>
  if i = off then .ofNat val
  else if i = off + 1 then .ofNat (val / 2 ^ 8)
  else if i = off + 2 then .ofNat (val / 2 ^ 16)
  else if i = off + 3 then (ring i &&& 0xF0) ||| .ofNat (val / 2 ^ 24)
  else ring i

def setEntry (d : Sector) (off val : ℕ) : Sector := fun i => entryRing d.byte off val i

def putFat (v : Vol) (card : ℕ → Sector) (c val : ℕ) : ℕ → ℕ → Sector
  | 0 => card
  | m + 1 =>
    let k := putFat v card c val m
    Function.update k (fatCopySector v c m)
      (setEntry (k (fatCopySector v c m)) (fatOffset c) val)

variable {v : Vol} {disk : ℕ → Sector} {c val : ℕ}

theorem Geometry.clusCount_mul (hv : Geometry v) :
    v.dataLba + clusCount v * v.secPerClus ≤ v.partLba + v.totSec := by
  have h1 : clusCount v * v.secPerClus ≤ v.partLba + v.totSec - v.dataLba := Nat.div_mul_le_self _ _
  have h2 := hv.data
  omega

theorem Geometry.lt_clusCount_mul (hv : Geometry v) :
    v.partLba + v.totSec < v.dataLba + (clusCount v + 1) * v.secPerClus := by
  have h1 := Nat.lt_mul_div_succ (v.partLba + v.totSec - v.dataLba) hv.secPerClus
  rw [Nat.mul_comm] at h1
  have h2 : v.partLba + v.totSec - v.dataLba < (clusCount v + 1) * v.secPerClus := h1
  omega

theorem Geometry.clusToLba_eq (hv : Geometry v) (h2 : 2 ≤ c) (hc : c ≤ clusCount v + 2) :
    clusToLba v c = v.dataLba + (c - 2) * v.secPerClus := by
  have hmul : (c - 2) * v.secPerClus ≤ clusCount v * v.secPerClus :=
    Nat.mul_le_mul_right _ (by omega)
  have hend := hv.clusCount_mul
  have hwrap := hv.wrap
  have hsmall := hv.small
  have hsub : (c + 2 ^ 32 - 2) % 2 ^ 32 = c - 2 := by omega
  rw [clusToLba, u32, u32, u32, hsub, Nat.mod_eq_of_lt (by omega), Nat.mod_eq_of_lt (by omega)]

theorem Geometry.clus_end (hv : Geometry v) (hc : IsDataClus v c) :
    clusToLba v c + v.secPerClus ≤ v.partLba + v.totSec := by
  obtain ⟨h2, hn⟩ := hc
  rw [hv.clusToLba_eq h2 (by omega)]
  have hmul : (c - 2 + 1) * v.secPerClus ≤ clusCount v * v.secPerClus :=
    Nat.mul_le_mul_right _ (by omega)
  have hend := hv.clusCount_mul
  rw [Nat.add_mul] at hmul
  omega

theorem Geometry.dataLba_le (hv : Geometry v) (hc : IsDataClus v c) :
    v.dataLba ≤ clusToLba v c := by
  rw [hv.clusToLba_eq hc.1 (by have := hc.2; omega)]
  exact Nat.le_add_right _ _

theorem Geometry.lt_entries (hv : Geometry v) (hc : IsDataClus v c) : c < 128 * v.fatSz32 := by
  have := hv.entries
  have := hc.2
  omega

theorem Geometry.fatCopySector_eq (hv : Geometry v) (hc : c < 128 * v.fatSz32) {f : ℕ}
    (hf : f < v.numFats) :
    fatCopySector v c f = v.fatLba + c / 128 + f * v.fatSz32 ∧
      fatCopySector v c f < v.dataLba := by
  have hmul : (f + 1) * v.fatSz32 ≤ v.numFats * v.fatSz32 := Nat.mul_le_mul_right _ hf
  rw [Nat.add_mul] at hmul
  have hfat := hv.fat
  have hdata := hv.data
  have hwrap := hv.wrap
  have hdiv : c / 128 < v.fatSz32 := by omega
  have heq : fatCopySector v c f = v.fatLba + c / 128 + f * v.fatSz32 := by
    rw [fatCopySector, fatSector, u32, u32, u32, Nat.mod_eq_of_lt (a := f * _) (by omega),
      Nat.mod_eq_of_lt (a := v.fatLba + _) (by omega), Nat.mod_eq_of_lt (by omega)]
  exact ⟨heq, by omega⟩

theorem Geometry.fatSector_eq (hv : Geometry v) (hc : c < 128 * v.fatSz32) :
    fatSector v c = v.fatLba + c / 128 := by
  have h := (hv.fatCopySector_eq hc (f := 0) hv.numFats).2
  have hfat := hv.fat
  have hdata := hv.data
  have hwrap := hv.wrap
  have hmul : 1 * v.fatSz32 ≤ v.numFats * v.fatSz32 := Nat.mul_le_mul_right _ hv.numFats
  rw [fatSector, u32, Nat.mod_eq_of_lt (by omega)]

def tinyVol : Vol where
  fatLba := 10
  fatSz32 := 1
  dataLba := 11
  rootClus := 2
  partLba := 1
  totSec := 13
  secPerClus := 1
  numFats := 1

theorem tinyVol_geometry : Geometry tinyVol := by decide

/-! One entry. -/

/-- The upper nibble of the last byte does not count. -/
theorem entryValue_eq (b0 b1 b2 b3 : Byte) : entryValue b0 b1 b2 b3 =
    b0.toNat + b1.toNat * 2 ^ 8 + b2.toNat * 2 ^ 16 + b3.toNat % 16 * 2 ^ 24 := by
  have h0 := b0.toNat_lt
  have h1 := b1.toNat_lt
  have h2 := b2.toNat_lt
  rw [entryValue]
  omega

theorem keepNibble (b : Byte) {n : ℕ} (hn : n < 16) :
    ((b &&& 0xF0) ||| .ofNat n).toNat % 16 = n := by
  have hlow : (0xF0 : Byte).toNat % 2 ^ 4 = 0 := rfl
  have hn8 : n % 2 ^ 8 % 2 ^ 4 = n := by omega
  rw [UInt8.toNat_or, UInt8.toNat_and, UInt8.toNat_ofNat', show (16 : ℕ) = 2 ^ 4 from rfl,
    Nat.or_mod_two_pow, Nat.and_mod_two_pow, hlow, hn8, Nat.and_zero, Nat.zero_or]

theorem byte_setEntry (d : Sector) (off val : ℕ) {i : ℕ} (hi : i < 512) :
    (setEntry d off val).byte i = entryRing d.byte off val i := by
  rw [Sector.byte, dif_pos hi, setEntry]

theorem entry_set_self (d : Sector) {off val : ℕ} (hoff : off + 3 < 512) (hval : val < 2 ^ 28) :
    entryValue ((setEntry d off val).byte off) ((setEntry d off val).byte (off + 1))
      ((setEntry d off val).byte (off + 2)) ((setEntry d off val).byte (off + 3)) = val := by
  rw [byte_setEntry _ _ _ (by omega), byte_setEntry _ _ _ (by omega),
    byte_setEntry _ _ _ (by omega), byte_setEntry _ _ _ hoff, entryValue_eq]
  have h3 : (entryRing d.byte off val (off + 3)).toNat % 16 = val / 2 ^ 24 := by
    rw [entryRing, if_neg (by omega), if_neg (by omega), if_neg (by omega), if_pos rfl]
    exact keepNibble _ (by omega)
  have h0 : entryRing d.byte off val off = .ofNat val := if_pos rfl
  have h1 : entryRing d.byte off val (off + 1) = .ofNat (val / 2 ^ 8) := by
    rw [entryRing, if_neg (by omega), if_pos rfl]
  have h2 : entryRing d.byte off val (off + 2) = .ofNat (val / 2 ^ 16) := by
    rw [entryRing, if_neg (by omega), if_neg (by omega), if_pos rfl]
  rw [h0, h1, h2, h3, UInt8.toNat_ofNat', UInt8.toNat_ofNat', UInt8.toNat_ofNat']
  omega

theorem byte_setEntry_of_ne (d : Sector) {off val i : ℕ} (hi : i < off ∨ off + 4 ≤ i) :
    (setEntry d off val).byte i = d.byte i := by
  by_cases h : i < 512
  · rw [byte_setEntry _ _ _ h, entryRing, if_neg (by omega), if_neg (by omega),
      if_neg (by omega), if_neg (by omega)]
  · rw [Sector.byte, Sector.byte, dif_neg h, dif_neg h]

theorem putFat_outside {m lba : ℕ} (h : ∀ f, f < m → lba ≠ fatCopySector v c f) :
    putFat v disk c val m lba = disk lba := by
  induction m with
  | zero => rfl
  | succ m ih =>
    rw [putFat, Function.update_of_ne (h m (by omega)), ih fun f hf => h f (by omega)]

theorem putFat_rest (hv : Geometry v) (hc : c < 128 * v.fatSz32) {m lba : ℕ} (hm : m ≤ v.numFats)
    (hlba : ¬ InFat v lba) : putFat v disk c val m lba = disk lba :=
  putFat_outside fun f hf he => by
    obtain ⟨heq, hlt⟩ := hv.fatCopySector_eq hc (f := f) (by omega)
    exact hlba ⟨by omega, by omega⟩

/-- The first copy of the FAT, once the entry is written in `m` copies. -/
theorem putFat_first (hv : Geometry v) (hc : c < 128 * v.fatSz32) {m k : ℕ} (hm : m < v.numFats)
    (hk : k < v.fatSz32) : putFat v disk c val (m + 1) (v.fatLba + k) =
      if k = c / 128 then setEntry (disk (v.fatLba + k)) (fatOffset c) val
      else disk (v.fatLba + k) := by
  have hcopy : ∀ f, f < m + 1 → fatCopySector v c f = v.fatLba + c / 128 + f * v.fatSz32 :=
    fun f hf => (hv.fatCopySector_eq hc (by omega)).1
  induction m with
  | zero =>
    have h0 : fatCopySector v c 0 = v.fatLba + c / 128 := by
      rw [hcopy 0 (by omega), Nat.zero_mul, Nat.add_zero]
    by_cases hkc : k = c / 128
    · rw [if_pos hkc, hkc, ← h0]
      exact Function.update_self _ _ _
    · rw [if_neg hkc]
      exact putFat_outside fun f hf => by
        obtain rfl : f = 0 := by omega
        omega
  | succ m ih =>
    have hfar : v.fatSz32 ≤ (m + 1) * v.fatSz32 := Nat.le_mul_of_pos_left _ (by omega)
    have hne : v.fatLba + k ≠ fatCopySector v c (m + 1) := by
      rw [hcopy (m + 1) (by omega)]
      omega
    rw [putFat, Function.update_of_ne hne]
    exact ih (by omega) fun f hf => hcopy f (by omega)

/-- Writing the entry of `c` in at least one copy changes the entry of `c` and no other. -/
theorem fatEntry_putFat (hv : Geometry v) (hc : c < 128 * v.fatSz32) (hval : val < 2 ^ 28)
    {m : ℕ} (hm : m < v.numFats) {c' : ℕ} (hc' : c' < 128 * v.fatSz32) :
    fatEntry v (putFat v disk c val (m + 1)) c' = if c' = c then val else fatEntry v disk c' := by
  have hsec : fatSector v c' = v.fatLba + c' / 128 := hv.fatSector_eq hc'
  have hput : putFat v disk c val (m + 1) (v.fatLba + c' / 128) =
      if c' / 128 = c / 128 then setEntry (disk (v.fatLba + c' / 128)) (fatOffset c) val
      else disk (v.fatLba + c' / 128) := putFat_first hv hc hm (by omega)
  by_cases hcc : c' = c
  · subst hcc
    rw [if_pos rfl] at hput
    rw [if_pos rfl, fatEntry, hsec, hput]
    exact entry_set_self _ (by unfold fatOffset; omega) hval
  · rw [if_neg hcc, fatEntry, fatEntry, hsec, hput]
    by_cases hsame : c' / 128 = c / 128
    · rw [if_pos hsame]
      have hoff : fatOffset c' + 4 ≤ fatOffset c ∨ fatOffset c + 4 ≤ fatOffset c' := by
        unfold fatOffset
        omega
      simp only [byte_setEntry_of_ne _ (show fatOffset c' < fatOffset c ∨
          fatOffset c + 4 ≤ fatOffset c' by omega),
        byte_setEntry_of_ne _ (show fatOffset c' + 1 < fatOffset c ∨
          fatOffset c + 4 ≤ fatOffset c' + 1 by omega),
        byte_setEntry_of_ne _ (show fatOffset c' + 2 < fatOffset c ∨
          fatOffset c + 4 ≤ fatOffset c' + 2 by omega),
        byte_setEntry_of_ne _ (show fatOffset c' + 3 < fatOffset c ∨
          fatOffset c + 4 ≤ fatOffset c' + 3 by omega)]
    · rw [if_neg hsame]

/-! Runs of the two functions. -/

/-- `s'` is `s` but for the sector buffer, the block being sent and the request count. -/
def Scratch (s s' : Machine) : Prop :=
  ∃ ring block n, (∀ i, 512 ≤ i → ring i = s.ring i) ∧
    s' = { s with ring := ring, block := block, reqs := n }

def Machine.onCard (s : Machine) (card : ℕ → Sector) (evs : List CardEvent) : Machine :=
  { s with card := card, events := s.events ++ evs }

variable {env : Env} {s s' s1 : Machine}

theorem Scratch.refl (s : Machine) : Scratch s s := ⟨s.ring, s.block, s.reqs, fun _ _ => rfl, rfl⟩

theorem Scratch.trans (h1 : Scratch s s1) (h2 : Scratch s1 s') : Scratch s s' := by
  obtain ⟨_, _, _, hr1, rfl⟩ := h1
  obtain ⟨_, _, _, hr2, rfl⟩ := h2
  exact ⟨_, _, _, fun i hi => (hr2 i hi).trans (hr1 i hi), rfl⟩

theorem Scratch.onCard (h : Scratch s s') (card : ℕ → Sector) (evs : List CardEvent) :
    Scratch (s.onCard card evs) (s'.onCard card evs) := by
  obtain ⟨_, _, _, hr, rfl⟩ := h
  exact ⟨_, _, _, hr, rfl⟩

theorem onCard_onCard (s : Machine) (k k' : ℕ → Sector) (evs evs' : List CardEvent) :
    (s.onCard k evs).onCard k' evs' = s.onCard k' (evs ++ evs') := by
  simp only [Machine.onCard, List.append_assoc]

theorem onCard_self (s : Machine) : s.onCard s.card [] = s := by
  simp only [Machine.onCard, List.append_nil]

theorem Scratch.card (h : Scratch s s') : s'.card = s.card := by
  obtain ⟨_, _, _, _, rfl⟩ := h
  rfl

theorem Scratch.ram (h : Scratch s s') : s'.ram = s.ram := by
  obtain ⟨_, _, _, _, rfl⟩ := h
  rfl

theorem Scratch.events (h : Scratch s s') : s'.events = s.events := by
  obtain ⟨_, _, _, _, rfl⟩ := h
  rfl

theorem Scratch.eeprom (h : Scratch s s') : s'.eeprom = s.eeprom := by
  obtain ⟨_, _, _, _, rfl⟩ := h
  rfl

theorem scratch_load (s : Machine) (d : Sector) :
    Scratch s { s.asked with ring := load s.ring 0 d 512 } :=
  ⟨_, _, _, fun _ hi => load_outside hi, rfl⟩

theorem scratch_asked (s : Machine) : Scratch s s.asked := ⟨_, _, _, fun _ _ => rfl, rfl⟩

theorem scratch_unwritten (s : Machine) (n : ℕ) : Scratch s (s.unwritten n) :=
  ⟨_, _, _, fun _ _ => rfl, rfl⟩

theorem scratch_wrote (s : Machine) (lba : ℕ) (d : Sector) (e : CardEvent) (n : ℕ) :
    Scratch (s.onCard (Function.update s.card lba d) [e]) (s.wrote lba d e n) :=
  ⟨_, _, _, fun _ _ => rfl, rfl⟩

theorem fatOffset_lt (c : ℕ) : fatOffset c + 3 < 512 := by
  unfold fatOffset
  omega

theorem fatReadEntry_cases {r : Except Stop ℕ}
    (hrun : (fatReadEntry c).run (fwStep env) s = (r, s')) :
    (r = .ok (fatEntry s.ram.vol s.card c) ∨ ∃ n, r = .error (.code n)) ∧ Scratch s s' := by
  rw [fatReadEntry, getRam_bind] at hrun
  rcases read_bind hrun with hrun | ⟨n, rfl, rfl⟩
  · have hoff := fatOffset_lt c
    simp only [run_bind, ringGet_run, run_pure] at hrun
    cases hrun
    rw [load_inside (by omega), load_inside (by omega), load_inside (by omega), load_inside hoff]
    exact ⟨.inl rfl, scratch_load _ _⟩
  · exact ⟨.inr ⟨n, rfl⟩, scratch_asked _⟩

theorem putEntry_run (env : Env) (off val : ℕ) (s : Machine) :
    (putEntry off val).run (fwStep env) s =
      (.ok (), { s with ring := entryRing s.ring off val }) := by
  simp only [putEntry, run_bind, ringSet_run, ringGet_run, Prod.mk.injEq, true_and]
  congr 1
  funext i
  unfold entryRing
  by_cases h3 : i = off + 3
  · subst h3
    simp
  · simp only [Function.update_apply, if_neg h3]
    by_cases h2 : i = off + 2
    · simp [h2]
    · by_cases h1 : i = off + 1 <;> simp [h1, h2]

/-- `ring` is changed to `g ring`: only the sector buffer is, and from its own bytes. -/
structure InSector (g : (ℕ → Byte) → ℕ → Byte) : Prop where
  outside : ∀ b i, 512 ≤ i → g b i = b i
  inside : ∀ b b', (∀ j, j < 512 → b j = b' j) → ∀ i, i < 512 → g b i = g b' i

/-- A sector is read, changed in the buffer and written back. -/
theorem rewrite_cases {lba : ℕ} {body : Fw Unit} {g : (ℕ → Byte) → ℕ → Byte}
    {r : Except Stop Unit} (hg : InSector g)
    (hbody : ∀ t, body.run (fwStep env) t = (.ok (), { t with ring := g t.ring }))
    (hrun : Prog.run (fwStep env) (do sdReadSector lba 0; body; sdWriteSector lba 0) s = (r, s')) :
    let d : Sector := fun i => g (s.card lba).byte i
    (r = .ok () ∧ Scratch (s.onCard (Function.update s.card lba d) [.write lba d]) s') ∨
      ∃ n, r = .error (.code n) ∧ (Scratch s s' ∨
        Scratch (s.onCard (Function.update s.card lba d) [.write lba d]) s') := by
  intro d
  rcases read_bind hrun with hrun | ⟨n, rfl, rfl⟩
  swap
  · exact .inr ⟨n, rfl, .inl (scratch_asked s)⟩
  rw [run_bind_ok (hbody _), sdWriteSector_run] at hrun
  -- `s1` has the changed sector in its buffer
  set s1 : Machine := { s.asked with ring := g (load s.ring 0 (s.card lba) 512) } with hs1
  have hbuf : Scratch s s1 :=
    ⟨_, _, _, fun i hi => (hg.outside _ i hi).trans (load_outside hi), rfl⟩
  have hsector : sectorAt s1.ring 0 = d := by
    funext i
    rw [sectorAt, Nat.zero_add]
    exact hg.inside _ _ (fun j hj => load_inside hj) i i.isLt
  rw [hsector] at hrun
  have hwrote : ∀ n, Scratch (s.onCard (Function.update s.card lba d) [.write lba d])
      (s1.wrote lba d (.write lba d) n) :=
    fun n => (hbuf.onCard _ _).trans (scratch_wrote s1 _ _ _ n)
  cases send_cases hrun with
  | ok n => exact .inl ⟨rfl, hwrote n⟩
  | landed a n => exact .inr ⟨_, rfl, .inr (hwrote n)⟩
  | lost a n => exact .inr ⟨_, rfl, .inl (hbuf.trans (scratch_unwritten _ _))⟩

/-- What a write to a FAT copy of the entry of `c` looks like. -/
def IsFatWrite (v : Vol) (c : ℕ) (e : CardEvent) : Prop :=
  ∃ f d, f < v.numFats ∧ e = .write (fatCopySector v c f) d

/-- `fat_write_entry` with the entry written in the first `m` copies. -/
structure PutFat (s : Machine) (c val m : ℕ) (s' : Machine) : Prop where
  reach : ∃ evs, (∀ e ∈ evs, IsFatWrite s.ram.vol c e) ∧ evs.length = m ∧
    Scratch (s.onCard (putFat s.ram.vol s.card c val m) evs) s'
  le : m ≤ s.ram.vol.numFats

theorem entryRing_inSector (c val : ℕ) : InSector fun b => entryRing b (fatOffset c) val where
  outside b i hi := by
    have := fatOffset_lt c
    unfold entryRing
    rw [if_neg (by omega), if_neg (by omega), if_neg (by omega), if_neg (by omega)]
  inside b b' h i hi := by
    unfold entryRing
    rw [h i hi]

/-- The body of the loop of `fat_write_entry`, for copy `f`. -/
theorem writeCopy_cases {f : ℕ} {r : Except Stop Unit} (hf : f < s.ram.vol.numFats)
    (hs : PutFat s c val f s1)
    (hrun : Prog.run (fwStep env) (do
      sdReadSector (fatCopySector s.ram.vol c f) 0
      putEntry (fatOffset c) val
      sdWriteSector (fatCopySector s.ram.vol c f) 0) s1 = (r, s')) :
    (r = .ok () ∧ PutFat s c val (f + 1) s') ∨
      ∃ e, r = .error e ∧ (∃ n, e = .code n) ∧ ∃ m, PutFat s c val m s' := by
  obtain ⟨evs, hevs, hlen, hscratch⟩ := hs.reach
  set lba := fatCopySector s.ram.vol c f with hlba
  have hwrote : Scratch (s1.onCard (Function.update s1.card lba
      (setEntry (s1.card lba) (fatOffset c) val))
      [.write lba (setEntry (s1.card lba) (fatOffset c) val)]) s' → PutFat s c val (f + 1) s' := by
    intro h
    refine ⟨⟨evs ++ [.write lba (setEntry (s1.card lba) (fatOffset c) val)], ?_, ?_, ?_⟩, hf⟩
    · intro e he
      rcases List.mem_append.mp he with he | he
      · exact hevs e he
      · exact ⟨f, _, hf, List.mem_singleton.mp he⟩
    · rw [List.length_append, hlen, List.length_singleton]
    · have hcard : s1.card = putFat s.ram.vol s.card c val f := hscratch.card
      rw [← onCard_onCard, putFat, ← hcard]
      exact (hscratch.onCard _ _).trans h
  rcases rewrite_cases (entryRing_inSector c val) (putEntry_run env (fatOffset c) val) hrun with
    ⟨rfl, h⟩ | ⟨n, rfl, h | h⟩
  · exact .inl ⟨rfl, hwrote h⟩
  · exact .inr ⟨_, rfl, ⟨n, rfl⟩, f, ⟨evs, hevs, hlen, hscratch.trans h⟩, hs.le⟩
  · exact .inr ⟨_, rfl, ⟨n, rfl⟩, f + 1, hwrote h⟩

/-- `fat_write_entry` writes the entry in all copies of the FAT, or fails having written it in
some. -/
theorem fatWriteEntry_cases {r : Except Stop Unit}
    (hrun : (fatWriteEntry c val).run (fwStep env) s = (r, s')) :
    (r = .ok () ∧ PutFat s c val s.ram.vol.numFats s') ∨
      ∃ e, r = .error e ∧ (∃ n, e = .code n) ∧ ∃ m, PutFat s c val m s' := by
  rw [fatWriteEntry, getRam_bind] at hrun
  have hstart : PutFat s c val 0 s :=
    ⟨⟨[], by simp, rfl, by rw [putFat, onCard_self]; exact .refl s⟩, Nat.zero_le _⟩
  have hstep : ∀ f t r t', 0 ≤ f → f < 0 + s.ram.vol.numFats → PutFat s c val f t →
      Prog.run (fwStep env) (do
        sdReadSector (fatCopySector s.ram.vol c f) 0
        putEntry (fatOffset c) val
        sdWriteSector (fatCopySector s.ram.vol c f) 0) t = (r, t') →
      (r = .ok () ∧ PutFat s c val (f + 1) t') ∨
        ∃ e, r = .error e ∧ (∃ n, e = .code n) ∧ ∃ m, PutFat s c val m t' :=
    fun f t r t' _ hf ht hrun => writeCopy_cases (by omega) ht hrun
  have hloop := forUp_ended hstep hstart hrun
  rwa [Nat.zero_add] at hloop

end Barelog
