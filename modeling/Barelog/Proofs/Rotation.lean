import Barelog.Spec.EepromFlash

/-! The rotation of the EEPROM slots in flash. After `k` syncs that had something to write,
slot `k` mod N holds the newest data with generation byte 255 - k, and every other slot an
older sync or nothing. This lasts for 255 syncs: the generation byte of the next one is that
of an unused slot. Nothing is ever erased, so after N syncs used slots are programmed over. -/

namespace Barelog

open FlashEeprom

variable {a : FlashArea} {s s' : FlashEeprom} {k slot r fuel : ℕ}

/-- The last of `k` syncs that went to a slot, 0 if there is none. -/
def lastSync (n : ℕ) : ℕ → ℕ → ℕ
  | 0, _ => 0
  | k + 1, slot => if slot = (k + 1) % n then k + 1 else lastSync n k slot

theorem lastSync_le (n k slot : ℕ) : lastSync n k slot ≤ k := by
  induction k with
  | zero => rfl
  | succ k ih =>
    rw [lastSync]
    split_ifs <;> omega

theorem lastSync_self (n k : ℕ) : lastSync n k (k % n) = k := by
  cases k with
  | zero => rfl
  | succ k => simp [lastSync]

theorem lastSync_succ_of_ne {n : ℕ} (h : slot ≠ (k + 1) % n) :
    lastSync n (k + 1) slot = lastSync n k slot := by
  simp [lastSync, h]

theorem lastSync_mod {n : ℕ} (h : lastSync n k slot ≠ 0) : lastSync n k slot % n = slot := by
  induction k with
  | zero => simp [lastSync] at h
  | succ k ih =>
    by_cases hs : slot = (k + 1) % n
    · rw [hs, lastSync_self]
    · rw [lastSync_succ_of_ne hs] at h ⊢
      exact ih h

/-- In the first round each sync goes to a slot that is unused. -/
theorem lastSync_next {n : ℕ} (h : k + 1 ≤ n) : lastSync n k ((k + 1) % n) = 0 := by
  by_contra hne
  have hmod := lastSync_mod hne
  have hle := lastSync_le n k ((k + 1) % n)
  generalize lastSync n k ((k + 1) % n) = j at hne hmod hle
  rw [Nat.mod_eq_of_lt (show j < n by omega)] at hmod
  rcases Nat.lt_or_eq_of_le h with hlt | rfl
  · rw [Nat.mod_eq_of_lt hlt] at hmod
    omega
  · rw [Nat.mod_self] at hmod
    exact hne hmod

/-- In the first round slot 1 keeps the first sync. -/
theorem lastSync_first {n : ℕ} (h1 : 1 ≤ k) (hk : k ≤ n) (h2 : 2 ≤ n) : lastSync n k 1 = 1 := by
  induction k with
  | zero => omega
  | succ k ih =>
    by_cases hk0 : k = 0
    · subst hk0
      simp [lastSync, Nat.mod_eq_of_lt (show 1 < n by omega)]
    · have hne : 1 ≠ (k + 1) % n := by
        rcases Nat.lt_or_eq_of_le hk with hlt | rfl
        · rw [Nat.mod_eq_of_lt hlt]
          omega
        · rw [Nat.mod_self]
          omega
      rw [lastSync_succ_of_ne hne]
      exact ih (by omega) (by omega)

/-! Addresses. -/

theorem FlashArea.slot_end (h : slot < a.numSlots) : slot * 257 + 257 ≤ a.size := by
  have hmul : (slot + 1) * 257 ≤ a.numSlots * 257 := Nat.mul_le_mul_right 257 h
  have hdiv : a.numSlots * 257 ≤ a.size := Nat.div_mul_le_self a.size 257
  rw [← Nat.succ_mul]
  exact hmul.trans hdiv

theorem FlashArea.slotAddr_eq (h : slot < a.numSlots) : a.slotAddr slot = a.base + slot * 257 := by
  have hend := a.slot_end h
  have hfits := a.fits
  exact Nat.mod_eq_of_lt (show a.base + slot * 257 < 2 ^ 32 by omega)

theorem FlashArea.genAddr_eq (h : slot < a.numSlots) : a.genAddr slot = a.slotAddr slot + 256 := by
  have hend := a.slot_end h
  have hfits := a.fits
  rw [a.slotAddr_eq h]
  exact Nat.mod_eq_of_lt (show a.base + slot * 257 + 256 < 2 ^ 32 by omega)

theorem FlashArea.slot_disjoint {t i : ℕ} (h : slot < a.numSlots) (ht : t < a.numSlots)
    (hne : slot ≠ t) (hi : i < 257) :
    ¬ (a.slotAddr t ≤ a.slotAddr slot + i ∧ a.slotAddr slot + i < a.slotAddr t + 257) := by
  rw [a.slotAddr_eq h, a.slotAddr_eq ht]
  rcases Nat.lt_or_gt_of_ne hne with hlt | hlt
  · have := Nat.mul_le_mul_right 257 hlt
    omega
  · have := Nat.mul_le_mul_right 257 hlt
    omega

/-! The search for the current slot. -/

def FlashEeprom.gen (a : FlashArea) (s : FlashEeprom) (slot : ℕ) : ℕ :=
  (s.flash (a.genAddr slot)).toNat

/-- The test for an unused slot is part of the comparison. -/
theorem older_iff (g genByte : Byte) : g ≠ 0xFF ∧ g < genByte ↔ g.toNat < genByte.toNat := by
  refine ⟨fun h => UInt8.lt_iff_toNat_lt.mp h.2, fun h => ⟨?_, UInt8.lt_iff_toNat_lt.mpr h⟩⟩
  rintro rfl
  have hg : genByte.toNat < 256 := genByte.toNat_lt
  have hff : (0xFF : Byte).toNat = 255 := rfl
  omega

theorem findGenLoop_succ (hN : a.numSlots < 2 ^ 16) (hlt : slot < a.numSlots) (g : Byte)
    (cur : ℕ) : s.findGenLoop a (fuel + 1) slot g cur =
      if s.gen a slot < g.toNat then s.findGenLoop a fuel (slot + 1) (s.flash (a.genAddr slot)) slot
      else s.findGenLoop a fuel (slot + 1) g cur := by
  have hnext : (slot + 1) % 2 ^ 16 = slot + 1 := Nat.mod_eq_of_lt (by omega)
  simp only [findGenLoop, hlt, if_true, hnext]
  exact if_congr (older_iff _ _) rfl rfl

theorem findGenLoop_congr
    (h : ∀ i, i < a.numSlots → s'.flash (a.genAddr i) = s.flash (a.genAddr i)) (g : Byte)
    (cur : ℕ) : s'.findGenLoop a fuel slot g cur = s.findGenLoop a fuel slot g cur := by
  induction fuel generalizing slot g cur with
  | zero => rfl
  | succ fuel ih =>
    rw [findGenLoop, findGenLoop]
    split_ifs with hlt
    · simp only [h slot hlt, ih]
    · rfl

theorem findCurrentGen_congr (h : s'.flash = s.flash) :
    s'.findCurrentGen a fuel = s.findCurrentGen a fuel :=
  findGenLoop_congr (fun _ _ => congrFun h _) 0xFF 0

/-- What the search over the slots from `slot` on ends with: the slot it started with, or one
with the lowest generation byte. -/
theorem findGenLoop_sound (hN : a.numSlots < 2 ^ 16) {g : Byte} {cur : ℕ}
    (h : s.findGenLoop a fuel slot g cur = some r) :
    (r = cur ∧ ∀ i, slot ≤ i → i < a.numSlots → g.toNat ≤ s.gen a i) ∨
      (r < a.numSlots ∧ s.gen a r < g.toNat ∧
        ∀ i, slot ≤ i → i < a.numSlots → s.gen a r ≤ s.gen a i) := by
  induction fuel generalizing slot g cur with
  | zero => simp [findGenLoop] at h
  | succ fuel ih =>
    by_cases hlt : slot < a.numSlots
    · rw [findGenLoop_succ hN hlt] at h
      split_ifs at h with hg
      · have hgen : (s.flash (a.genAddr slot)).toNat = s.gen a slot := rfl
        obtain ⟨rfl, hall⟩ | ⟨hr, hless, hall⟩ := ih h
        · refine .inr ⟨hlt, hg, fun i hi hiN => ?_⟩
          rcases Nat.eq_or_lt_of_le hi with rfl | hi
          · exact le_rfl
          · exact hall i hi hiN
        · refine .inr ⟨hr, by omega, fun i hi hiN => ?_⟩
          rcases Nat.eq_or_lt_of_le hi with rfl | hi
          · omega
          · exact hall i hi hiN
      · obtain ⟨rfl, hall⟩ | ⟨hr, hless, hall⟩ := ih h
        · refine .inl ⟨rfl, fun i hi hiN => ?_⟩
          rcases Nat.eq_or_lt_of_le hi with rfl | hi
          · omega
          · exact hall i hi hiN
        · refine .inr ⟨hr, hless, fun i hi hiN => ?_⟩
          rcases Nat.eq_or_lt_of_le hi with rfl | hi
          · omega
          · exact hall i hi hiN
    · simp only [findGenLoop, hlt, if_false, Option.some.injEq] at h
      exact .inl ⟨h.symm, fun i hi hiN => absurd (hi.trans_lt hiN) hlt⟩

theorem findGenLoop_returns (hN : a.numSlots < 2 ^ 16) (g : Byte) (cur : ℕ)
    (hslot : slot ≤ a.numSlots) (hfuel : a.numSlots < slot + fuel) :
    ∃ r, s.findGenLoop a fuel slot g cur = some r := by
  induction fuel generalizing slot g cur with
  | zero => omega
  | succ fuel ih =>
    by_cases hlt : slot < a.numSlots
    · rw [findGenLoop_succ hN hlt]
      split_ifs
      · exact ih _ _ hlt (by omega)
      · exact ih _ _ hlt (by omega)
    · exact ⟨cur, by simp [findGenLoop, hlt]⟩

/-- With 65536 slots or more the 16 bit counter never reaches the last one. -/
theorem findGenLoop_hangs (hN : 2 ^ 16 ≤ a.numSlots) (g : Byte) (cur : ℕ) (hslot : slot < 2 ^ 16) :
    s.findGenLoop a fuel slot g cur = none := by
  induction fuel generalizing slot g cur with
  | zero => rfl
  | succ fuel ih =>
    have hnext : (slot + 1) % 2 ^ 16 < 2 ^ 16 := Nat.mod_lt _ (by decide)
    simp only [findGenLoop, show slot < a.numSlots by omega, if_true]
    split_ifs
    · exact ih _ _ hnext
    · exact ih _ _ hnext

theorem findCurrentGen_hangs (hN : 2 ^ 16 ≤ a.numSlots) (fuel : ℕ) (s : FlashEeprom) :
    s.findCurrentGen a fuel = none :=
  findGenLoop_hangs hN 0xFF 0 (by decide)

/-! The state after `k` syncs. -/

/-- What the slots and the cache hold after `k` syncs, while the generation bytes last. -/
structure Rotated (a : FlashArea) (k : ℕ) (s : FlashEeprom) : Prop where
  gen : ∀ slot, slot < a.numSlots → s.gen a slot = 255 - lastSync a.numSlots k slot
  unused : ∀ slot, slot < a.numSlots → lastSync a.numSlots k slot = 0 → ∀ i, i < 257 →
    s.flash (a.slotAddr slot + i) = 0xFF
  clean : s.dirty = false → ∀ i, i < 256 →
    s.cache i = s.flash (a.slotAddr (k % a.numSlots) + i)

/-- The slot of the last sync has the lowest generation byte. -/
theorem current_of_gen
    (hgens : ∀ slot, slot < a.numSlots → s.gen a slot = 255 - lastSync a.numSlots k slot)
    (h0 : 0 < a.numSlots) (hN : a.numSlots < 2 ^ 16) (hk : k ≤ 255)
    (hr : s.findCurrentGen a fuel = some r) : r = k % a.numSlots := by
  have hlast : k % a.numSlots < a.numSlots := Nat.mod_lt k h0
  have hgen := hgens _ hlast
  rw [lastSync_self] at hgen
  have hff : (0xFF : Byte).toNat = 255 := rfl
  obtain ⟨rfl, hall⟩ | ⟨hr, hless, hall⟩ := findGenLoop_sound hN hr
  · have := hall _ (Nat.zero_le _) hlast
    rw [show k = 0 by omega, Nat.zero_mod]
  · have hmin := hall _ (Nat.zero_le _) hlast
    have hgenr := hgens r hr
    have hle := lastSync_le a.numSlots k r
    have heq : lastSync a.numSlots k r = k := by omega
    have hmod := lastSync_mod (show lastSync a.numSlots k r ≠ 0 by omega)
    rw [heq] at hmod
    exact hmod.symm

theorem Rotated.current (h : Rotated a k s) (h0 : 0 < a.numSlots) (hN : a.numSlots < 2 ^ 16)
    (hk : k ≤ 255) (hr : s.findCurrentGen a fuel = some r) : r = k % a.numSlots :=
  current_of_gen h.gen h0 hN hk hr

theorem findCurrentGen_returns (hN : a.numSlots < 2 ^ 16) (hfuel : a.numSlots < fuel) :
    ∃ r, s.findCurrentGen a fuel = some r :=
  findGenLoop_returns hN _ _ (Nat.zero_le _) (by omega)

theorem next_ne (k : ℕ) (h2 : 2 ≤ a.numSlots) : (k + 1) % a.numSlots ≠ k % a.numSlots := by
  have hlt : k % a.numSlots < a.numSlots := Nat.mod_lt k (by omega)
  rw [← Nat.mod_add_mod]
  generalize k % a.numSlots = m at hlt
  rcases Nat.lt_or_eq_of_le (show m + 1 ≤ a.numSlots from hlt) with hm | hm
  · rw [Nat.mod_eq_of_lt hm]
    omega
  · rw [hm, Nat.mod_self]
    omega

/-- With two slots or more the next slot is another one, and nothing is erased. -/
theorem findNextFreeSlot_eq (h2 : 2 ≤ a.numSlots) (hN : a.numSlots < 2 ^ 16) (s : FlashEeprom) :
    s.findNextFreeSlot a (k % a.numSlots) = ((k + 1) % a.numSlots, s) := by
  have hlt : (k + 1) % a.numSlots < a.numSlots := Nat.mod_lt _ (by omega)
  have hadd : (k % a.numSlots + 1) % a.numSlots = (k + 1) % a.numSlots := Nat.mod_add_mod k _ 1
  have hne := next_ne k h2
  have h16 : (k + 1) % a.numSlots % 2 ^ 16 = (k + 1) % a.numSlots := Nat.mod_eq_of_lt (by omega)
  simp only [findNextFreeSlot, hadd, h16, hne, if_false]

theorem writeBytes_inside (s : FlashEeprom) (addr : ℕ) (data : ℕ → Byte) {len i : ℕ} (hi : i < len) :
    (s.writeBytes addr data len).flash (addr + i) = data i := by
  simp [writeBytes, hi]

theorem writeBytes_outside (s : FlashEeprom) {addr len x : ℕ} (data : ℕ → Byte)
    (hx : ¬ (addr ≤ x ∧ x < addr + len)) : (s.writeBytes addr data len).flash x = s.flash x :=
  if_neg hx

structure Synced (a : FlashArea) (cur next : ℕ) (s s' : FlashEeprom) : Prop where
  data : ∀ i, i < 256 → s'.flash (a.slotAddr next + i) = s.cache i
  gen : s'.flash (a.genAddr next) = nextGen (s.flash (a.genAddr cur))
  rest : ∀ x, ¬ (a.slotAddr next ≤ x ∧ x < a.slotAddr next + 257) → s'.flash x = s.flash x
  cache : s'.cache = s.cache
  clean : s'.dirty = false
  programmed : s'.programmed =
    s.programmed ++ (List.range 257).map fun i => s.flash (a.slotAddr next + i)

theorem sync_cases (h2 : 2 ≤ a.numSlots) (hN : a.numSlots < 2 ^ 16) (hdirty : s.dirty = true)
    (hcur : s.findCurrentGen a fuel = some (k % a.numSlots)) (hrun : s.sync a fuel = some s') :
    Synced a (k % a.numSlots) ((k + 1) % a.numSlots) s s' := by
  have hlt : k % a.numSlots < a.numSlots := Nat.mod_lt k (by omega)
  have hnext : (k + 1) % a.numSlots < a.numSlots := Nat.mod_lt _ (by omega)
  have hne := next_ne k h2
  have hgen := a.genAddr_eq hnext
  have hgen32 : u32 (a.slotAddr ((k + 1) % a.numSlots) + 256) = a.genAddr ((k + 1) % a.numSlots) := by
    rw [a.slotAddr_eq hnext]
    rfl
  simp only [sync, hdirty, if_true, hcur, findNextFreeSlot_eq h2 hN, Option.bind_eq_bind,
    Option.bind_some, Option.pure_def, Option.some.injEq] at hrun
  have hold := a.slot_disjoint hlt hnext hne.symm (show 256 < 257 by omega)
  rw [← a.genAddr_eq hlt] at hold
  rw [hgen32, writeBytes_outside _ _ (show ¬ (_ ≤ a.genAddr (k % a.numSlots) ∧ _) by omega)] at hrun
  generalize (k + 1) % a.numSlots = next at *
  generalize k % a.numSlots = cur at *
  subst hrun
  have hone := writeBytes_outside s s.cache (show ¬ (a.slotAddr next ≤ a.genAddr next ∧
    a.genAddr next < a.slotAddr next + 256) by omega)
  refine ⟨fun i hi => ?_, ?_, fun x hx => ?_, rfl, rfl, ?_⟩
  · dsimp only
    rw [writeBytes_outside _ _ (by omega), writeBytes_inside _ _ _ hi]
  · dsimp only
    rw [← Nat.add_zero (a.genAddr next), writeBytes_inside _ _ _ Nat.one_pos]
  · dsimp only
    rw [writeBytes_outside _ _ (by omega), writeBytes_outside _ _ (by omega)]
  · have hsplit : List.range 257 = List.range 256 ++ [256] := List.range_succ
    rw [hsplit, List.map_append, List.map_singleton, ← List.append_assoc, ← hgen, ← hone]
    rfl

theorem nextGen_toNat {g : Byte} (hg : 0 < g.toNat) : (nextGen g).toNat = g.toNat - 1 := by
  have hone : (1 : Byte).toNat = 1 := rfl
  unfold nextGen
  split_ifs with hff
  · rw [hff]
    rfl
  · rw [UInt8.toNat_sub_of_le _ _ (UInt8.le_iff_toNat_le.mpr (by omega)), hone]

theorem FlashEeprom.Fresh.rotated (h : s.Fresh a) (h0 : 0 < a.numSlots) : Rotated a 0 s := by
  have hslot : ∀ slot, slot < a.numSlots → ∀ i, i < 257 → s.flash (a.slotAddr slot + i) = 0xFF := by
    intro slot hs i hi
    have hend := a.slot_end hs
    rw [a.slotAddr_eq hs]
    exact h.erased _ (by omega) (by omega)
  refine ⟨fun slot hs => ?_, fun slot hs _ => hslot slot hs, fun _ i hi => ?_⟩
  · rw [FlashEeprom.gen, a.genAddr_eq hs, hslot slot hs 256 (by omega)]
    rfl
  · rw [h.cache i hi, Nat.zero_mod, hslot 0 h0 i (by omega)]

theorem Synced.keep (hs : Synced a (k % a.numSlots) ((k + 1) % a.numSlots) s s') (h0 : 0 < a.numSlots)
    (hslot : slot < a.numSlots) (hne : slot ≠ (k + 1) % a.numSlots) {i : ℕ} (hi : i < 257) :
    s'.flash (a.slotAddr slot + i) = s.flash (a.slotAddr slot + i) :=
  hs.rest _ (a.slot_disjoint hslot (Nat.mod_lt _ h0) hne hi)

theorem Synced.gens (hs : Synced a (k % a.numSlots) ((k + 1) % a.numSlots) s s')
    (hgens : ∀ slot, slot < a.numSlots → s.gen a slot = 255 - lastSync a.numSlots k slot)
    (h2 : 2 ≤ a.numSlots) (hk : k < 255) :
    ∀ slot, slot < a.numSlots → s'.gen a slot = 255 - lastSync a.numSlots (k + 1) slot := by
  have hcur : k % a.numSlots < a.numSlots := Nat.mod_lt k (by omega)
  intro slot hslot
  by_cases hne : slot = (k + 1) % a.numSlots
  · subst hne
    have hgen := hgens _ hcur
    rw [lastSync_self] at hgen
    rw [lastSync_self, FlashEeprom.gen, hs.gen, nextGen_toNat]
    · change s.gen a (k % a.numSlots) - 1 = _
      omega
    · change 0 < s.gen a (k % a.numSlots)
      omega
  · rw [lastSync_succ_of_ne hne, ← hgens slot hslot, FlashEeprom.gen, FlashEeprom.gen,
      a.genAddr_eq hslot, hs.keep (by omega) hslot hne (show 256 < 257 by omega)]

/-- A sync that finds a generation byte other than 0x00 goes on with the rotation. -/
theorem Rotated.sync (h : Rotated a k s) (h2 : 2 ≤ a.numSlots) (hk : k < 255)
    (hs : Synced a (k % a.numSlots) ((k + 1) % a.numSlots) s s') : Rotated a (k + 1) s' := by
  refine ⟨hs.gens h.gen h2 hk, fun slot hslot h0 i hi => ?_, fun _ i hi => ?_⟩
  · have hne : slot ≠ (k + 1) % a.numSlots := by
      rintro rfl
      rw [lastSync_self] at h0
      omega
    rw [lastSync_succ_of_ne hne] at h0
    rw [hs.keep (by omega) hslot hne hi]
    exact h.unused slot hslot h0 i hi
  · rw [hs.cache, hs.data i hi]

/-- A call that programs nothing leaves the flash alone, and the cache is dirty, unchanged, or
loaded from the current slot. -/
theorem quiet_call {c : EepromCall} (hc : c.programs s = false) (hrun : c.run a fuel s = some s') :
    s'.flash = s.flash ∧ s'.programmed = s.programmed ∧
      (s'.dirty = true ∨ s' = s ∨ ∃ cur, s.findCurrentGen a fuel = some cur ∧
        ∀ i, i < 256 → s'.cache i = s.flash (a.slotAddr cur + i)) := by
  cases c with
  | init =>
    simp only [EepromCall.run, FlashEeprom.init, Option.bind_eq_bind, Option.bind_eq_some_iff,
      Option.pure_def, Option.some.injEq] at hrun
    obtain ⟨cur, hcur, rfl⟩ := hrun
    exact ⟨rfl, rfl, .inr (.inr ⟨cur, hcur, fun i hi => if_pos hi⟩)⟩
  | writeByte addr val =>
    simp only [EepromCall.run, Option.some.injEq, FlashEeprom.writeByte] at hrun
    split_ifs at hrun with haddr
    · subst hrun
      simp
    · subst hrun
      simp
  | updateByte addr val =>
    simp only [EepromCall.run, Option.some.injEq, FlashEeprom.updateByte] at hrun
    split_ifs at hrun with haddr hval
    · subst hrun
      simp
    · subst hrun
      simp
    · subst hrun
      simp
  | sync =>
    have hclean : s.dirty = false := hc
    simp only [EepromCall.run, FlashEeprom.sync, hclean] at hrun
    obtain rfl : s = s' := by simpa using hrun
    simp

theorem Rotated.quiet (h : Rotated a k s) (h2 : 2 ≤ a.numSlots) (hN : a.numSlots < 2 ^ 16)
    (hk : k ≤ 255) {c : EepromCall} (hc : c.programs s = false)
    (hrun : c.run a fuel s = some s') : Rotated a k s' := by
  obtain ⟨hflash, -, hcache⟩ := quiet_call hc hrun
  refine ⟨fun slot hslot => ?_, fun slot hslot => ?_, fun hclean => ?_⟩
  · rw [FlashEeprom.gen, hflash]
    exact h.gen slot hslot
  · rw [hflash]
    exact h.unused slot hslot
  · rw [hflash]
    obtain hdirty | rfl | ⟨cur, hcur, hload⟩ := hcache
    · simp [hdirty] at hclean
    · exact h.clean hclean
    · rw [h.current (by omega) hN hk hcur] at hload
      exact hload

theorem Rotated.synced (h : Rotated a k s) (h2 : 2 ≤ a.numSlots) (hN : a.numSlots < 2 ^ 16)
    (hk : k ≤ 255) {c : EepromCall} (hc : c.programs s = true)
    (hrun : c.run a fuel s = some s') :
    Synced a (k % a.numSlots) ((k + 1) % a.numSlots) s s' := by
  cases c with
  | sync =>
    have hdirty : s.dirty = true := hc
    have hrun' : s.sync a fuel = some s' := hrun
    rcases hcur : s.findCurrentGen a fuel with _ | cur
    · simp [FlashEeprom.sync, hdirty, hcur] at hrun'
    · rw [h.current (by omega) hN hk hcur] at hcur
      exact sync_cases h2 hN hdirty hcur hrun'
  | init => simp [EepromCall.programs] at hc
  | writeByte addr val => simp [EepromCall.programs] at hc
  | updateByte addr val => simp [EepromCall.programs] at hc

theorem rotated_run (h2 : 2 ≤ a.numSlots) (hN : a.numSlots < 2 ^ 16) (hrun : EepromRun a k s)
    (hk : k ≤ 255) : Rotated a k s := by
  induction hrun with
  | start h => exact h.rotated (by omega)
  | call fuel c hprev hc ih =>
    split_ifs at hk ⊢ with hp
    · exact (ih (by omega)).sync h2 hk ((ih (by omega)).synced h2 hN (by omega) hp hc)
    · exact (ih hk).quiet h2 hN hk (by simpa using hp) hc

/-! Runs that go on. -/

theorem sync_returns (hN : a.numSlots < 2 ^ 16) (hdirty : s.dirty = true)
    (hfuel : a.numSlots < fuel) :
    ∃ s', s.sync a fuel = some s' ∧ s'.dirty = false ∧ s'.cache = s.cache := by
  obtain ⟨cur, hcur⟩ := findCurrentGen_returns (s := s) hN hfuel
  have hnext : (s.findNextFreeSlot a cur).2.cache = s.cache := by
    unfold findNextFreeSlot
    dsimp only
    split_ifs <;> rfl
  simp only [FlashEeprom.sync, hdirty, if_true, hcur, Option.bind_eq_bind, Option.bind_some,
    Option.pure_def]
  exact ⟨_, rfl, rfl, hnext⟩

/-- A run goes on with a byte written to the cache and a sync. -/
theorem EepromRun.save (hrun : EepromRun a k s) (hN : a.numSlots < 2 ^ 16) (b : Byte) :
    ∃ s', (s.writeByte 0 b).sync a (a.numSlots + 1) = some s' ∧ EepromRun a (k + 1) s' ∧
      s'.dirty = false ∧ s'.cache 0 = b := by
  have hwrite : EepromRun a k (s.writeByte 0 b) := .call 0 (.writeByte 0 b) hrun rfl
  obtain ⟨s', hs', hclean, hcache⟩ :=
    sync_returns (s := s.writeByte 0 b) hN rfl (Nat.lt_succ_self _)
  refine ⟨s', hs', .call (a.numSlots + 1) .sync hwrite hs', hclean, ?_⟩
  rw [hcache]
  exact Function.update_self 0 b s.cache

def erasedEeprom : FlashEeprom := ⟨fun _ => 0xFF, fun _ => 0xFF, false, []⟩

theorem erasedEeprom_fresh (a : FlashArea) : erasedEeprom.Fresh a :=
  ⟨fun _ _ _ => rfl, fun _ _ => rfl, rfl, rfl⟩

theorem eepromRun_exists (hN : a.numSlots < 2 ^ 16) (k : ℕ) :
    ∃ s, EepromRun a k s ∧ s.dirty = false := by
  induction k with
  | zero => exact ⟨erasedEeprom, .start (erasedEeprom_fresh a), rfl⟩
  | succ k ih =>
    obtain ⟨s, hrun, -⟩ := ih
    obtain ⟨s', -, hrun', hclean, -⟩ := hrun.save hN 0
    exact ⟨s', hrun', hclean⟩

/-- The sync after the last generation byte: its own slot looks unused, and the slot of the
sync before it stays the current one. -/
theorem Rotated.spent (h : Rotated a 255 s) (h2 : 2 ≤ a.numSlots) (hN : a.numSlots < 2 ^ 16)
    (hs : Synced a (255 % a.numSlots) (256 % a.numSlots) s s')
    (hr : s'.findCurrentGen a fuel = some r) : r = 255 % a.numSlots := by
  have hcur : 255 % a.numSlots < a.numSlots := Nat.mod_lt _ (by omega)
  have hnext : 256 % a.numSlots < a.numSlots := Nat.mod_lt _ (by omega)
  have hne : 256 % a.numSlots ≠ 255 % a.numSlots := next_ne 255 h2
  have hkeep : ∀ slot, slot < a.numSlots → slot ≠ 256 % a.numSlots →
      s'.gen a slot = 255 - lastSync a.numSlots 255 slot := by
    intro slot hslot hslot'
    have hdis := a.slot_disjoint hslot hnext hslot' (show 256 < 257 by omega)
    rw [← h.gen slot hslot, FlashEeprom.gen, FlashEeprom.gen, a.genAddr_eq hslot, hs.rest _ hdis]
  have hzero := hkeep _ hcur hne.symm
  rw [lastSync_self] at hzero
  have hlost : s'.gen a (256 % a.numSlots) = 255 := by
    have hg : s.flash (a.genAddr (255 % a.numSlots)) = 0 := by
      have hgen := h.gen _ hcur
      rw [lastSync_self] at hgen
      exact UInt8.toNat_inj.mp hgen
    rw [FlashEeprom.gen, hs.gen, hg]
    rfl
  have hff : (0xFF : Byte).toNat = 255 := rfl
  obtain ⟨rfl, hall⟩ | ⟨hr, hless, hall⟩ := findGenLoop_sound hN hr
  · have := hall _ (Nat.zero_le _) hcur
    omega
  · have hmin := hall _ (Nat.zero_le _) hcur
    by_contra hrne
    have hr' : r ≠ 256 % a.numSlots := by
      rintro rfl
      omega
    have hgen := hkeep r hr hr'
    have hle := lastSync_le a.numSlots 255 r
    have heq : lastSync a.numSlots 255 r = 255 := by omega
    have hmod := lastSync_mod (show lastSync a.numSlots 255 r ≠ 0 by omega)
    rw [heq] at hmod
    exact hrne hmod.symm

theorem exists_other_byte (x : Byte) : ∃ b : Byte, b ≠ x ∧ b ≠ 0xFF := by
  by_cases hx : x = 0
  · exact ⟨1, by rw [hx]; decide, by decide⟩
  · exact ⟨0, Ne.symm hx, by decide⟩

/-- After the sync of run step 256 the byte it saved is in the flash, and the current slot
still has the byte saved before it. -/
theorem save_spent (h2 : 2 ≤ a.numSlots) (hN : a.numSlots < 2 ^ 16) :
    ∃ s, EepromRun a 256 s ∧ s.dirty = false ∧
      (∀ fuel r, s.findCurrentGen a fuel = some r → r = 255 % a.numSlots) ∧
      s.flash (a.slotAddr (255 % a.numSlots)) ≠ s.cache 0 ∧
      s.flash (a.slotAddr (256 % a.numSlots)) ≠ 0xFF := by
  obtain ⟨s0, hrun0, hclean0⟩ := eepromRun_exists hN 255
  have h0 := rotated_run h2 hN hrun0 le_rfl
  obtain ⟨b, hb, hbff⟩ := exists_other_byte (s0.cache 0)
  obtain ⟨s, hs, hrun, hclean, hcache⟩ := hrun0.save hN b
  have hwrite : (EepromCall.writeByte 0 b).run a 0 s0 = some (s0.writeByte 0 b) := rfl
  have h1 : Rotated a 255 (s0.writeByte 0 b) := h0.quiet h2 hN le_rfl rfl hwrite
  have hsync : Synced a (255 % a.numSlots) (256 % a.numSlots) (s0.writeByte 0 b) s :=
    h1.synced h2 hN le_rfl (c := .sync) rfl hs
  have hdis := a.slot_disjoint (Nat.mod_lt 255 (by omega)) (Nat.mod_lt 256 (by omega))
    (next_ne 255 h2).symm (show 0 < 257 by omega)
  refine ⟨s, hrun, hclean, fun fuel r hr => h1.spent h2 hN hsync hr, ?_, ?_⟩
  · have hold := h0.clean hclean0 0 (by omega)
    rw [hcache, ← Nat.add_zero (a.slotAddr _), hsync.rest _ hdis]
    change s0.flash _ ≠ b
    rw [← hold]
    exact hb.symm
  · have hnew := hsync.data 0 (by omega)
    rw [Nat.add_zero, ← hsync.cache, hcache] at hnew
    rw [hnew]
    exact hbff

/-! What a reboot finds. -/

/-- With a clean cache, `eeprom_flash_init` returns and loads the 256 bytes that the cache holds. -/
def Reloads (a : FlashArea) (s : FlashEeprom) : Prop :=
  s.dirty = false → ∀ fuel, a.numSlots < fuel →
    ∃ s', s.init a fuel = some s' ∧ ∀ i, i < 256 → s'.cache i = s.cache i

theorem init_eq (hcur : s.findCurrentGen a fuel = some r) : ∃ s', s.init a fuel = some s' ∧
    ∀ i, i < 256 → s'.cache i = s.flash (a.slotAddr r + i) := by
  simp only [FlashEeprom.init, hcur, Option.bind_eq_bind, Option.bind_some, Option.pure_def]
  exact ⟨_, rfl, fun i hi => if_pos hi⟩

theorem Rotated.reloads (h : Rotated a k s) (h2 : 2 ≤ a.numSlots) (hN : a.numSlots < 2 ^ 16)
    (hk : k ≤ 255) : Reloads a s := by
  intro hclean fuel hfuel
  obtain ⟨r, hr⟩ := findCurrentGen_returns (s := s) hN hfuel
  obtain ⟨s', hinit, hload⟩ := init_eq hr
  refine ⟨s', hinit, fun i hi => ?_⟩
  rw [hload i hi, h.current (by omega) hN hk hr, h.clean hclean i hi]

/-- A run with one sync more than the generation bytes last ends in a state whose data are lost. -/
theorem last_save_lost (h2 : 2 ≤ a.numSlots) (hN : a.numSlots < 2 ^ 16) :
    ∃ s, EepromRun a 256 s ∧ ¬ Reloads a s := by
  obtain ⟨s, hrun, hclean, hcur, hold, -⟩ := save_spent h2 hN
  refine ⟨s, hrun, fun hreload => ?_⟩
  obtain ⟨r, hr⟩ := findCurrentGen_returns (s := s) hN (Nat.lt_succ_self _)
  obtain ⟨s', hinit, hload⟩ := init_eq hr
  obtain ⟨s'', hinit', hsame⟩ := hreload hclean _ (Nat.lt_succ_self _)
  obtain rfl : s' = s'' := Option.some.inj (hinit.symm.trans hinit')
  have h0 := hload 0 (by omega)
  rw [hsame 0 (by omega), hcur _ _ hr, Nat.add_zero] at h0
  exact hold h0.symm

/-- Every state of the runs with at most `k` syncs that have something to write is reloaded
exactly when the generation bytes and the 16 bit slot number last: at most 255 such syncs, and
fewer than 65536 slots. -/
theorem init_reloads_iff (a : FlashArea) (h2 : 2 ≤ a.numSlots) (k : ℕ) :
    (∀ j, j ≤ k → ∀ s, EepromRun a j s → Reloads a s) ↔ a.numSlots < 2 ^ 16 ∧ k ≤ 255 := by
  constructor
  · intro hall
    have hN : a.numSlots < 2 ^ 16 := by
      by_contra hN
      have hstart : EepromRun a 0 erasedEeprom := .start (erasedEeprom_fresh a)
      obtain ⟨s', hinit, -⟩ := hall 0 (Nat.zero_le k) _ hstart rfl _ (Nat.lt_succ_self _)
      simp [FlashEeprom.init, findCurrentGen_hangs (not_lt.mp hN)] at hinit
    refine ⟨hN, ?_⟩
    by_contra hk
    obtain ⟨s, hrun, hlost⟩ := last_save_lost h2 hN
    exact hlost (hall 256 (by omega) s hrun)
  · rintro ⟨hN, hk⟩ j hj s hrun
    exact (rotated_run h2 hN hrun (by omega)).reloads h2 hN (by omega)

def ch32v203Area : FlashArea := ⟨0x0F000, 0x1000, by decide⟩

theorem init_reloads_ch32v203 :
    (∀ j, j ≤ 255 → ∀ s, EepromRun ch32v203Area j s → Reloads ch32v203Area s) ↔
      ch32v203Area.numSlots < 2 ^ 16 ∧ 255 ≤ 255 :=
  init_reloads_iff ch32v203Area (by decide) 255

/-- The data of the 256th sync are lost. -/
theorem sync_loses_data : ∃ s, EepromRun ch32v203Area 256 s ∧ ¬ Reloads ch32v203Area s :=
  last_save_lost (by decide) (by decide)

/-! What is programmed over. -/

/-- Every byte that a sync has programmed was erased at that moment. -/
def AllErased (s : FlashEeprom) : Prop := ∀ b ∈ s.programmed, b = 0xFF

/-- As long as the slots and the generation bytes last, a sync goes to a slot never used. -/
theorem Rotated.erased (h : Rotated a k s) (h0 : 0 < a.numSlots) (hk : k + 1 ≤ a.numSlots)
    (hs : Synced a (k % a.numSlots) ((k + 1) % a.numSlots) s s') (hall : AllErased s) :
    AllErased s' := by
  intro b hb
  rw [hs.programmed, List.mem_append, List.mem_map] at hb
  obtain hb | ⟨i, hi, rfl⟩ := hb
  · exact hall b hb
  · exact h.unused _ (Nat.mod_lt _ h0) (lastSync_next hk) i (List.mem_range.mp hi)

theorem erased_run (h2 : 2 ≤ a.numSlots) (hN : a.numSlots < 2 ^ 16) (hrun : EepromRun a k s)
    (hk : k ≤ min a.numSlots 256) : AllErased s := by
  induction hrun with
  | start h => simp [AllErased, h.unlogged]
  | call fuel c hprev hc ih =>
    split_ifs at hk with hp
    · have h := rotated_run h2 hN hprev (by omega)
      exact h.erased (by omega) (by omega) (h.synced h2 hN (by omega) hp hc) (ih (by omega))
    · have hlog := (quiet_call (by simpa using hp) hc).2.1
      unfold AllErased
      rw [hlog]
      exact ih hk

/-- With 65536 slots or more no sync returns, and nothing is programmed. -/
theorem erased_of_hang (hN : 2 ^ 16 ≤ a.numSlots) (hrun : EepromRun a k s) : AllErased s := by
  induction hrun with
  | start h => simp [AllErased, h.unlogged]
  | @call k s s' fuel c hprev hc ih =>
    by_cases hp : c.programs s = true
    · cases c with
      | sync =>
        have hdirty : s.dirty = true := hp
        simp [EepromCall.run, FlashEeprom.sync, hdirty, findCurrentGen_hangs hN] at hc
      | init => simp [EepromCall.programs] at hp
      | writeByte addr val => simp [EepromCall.programs] at hp
      | updateByte addr val => simp [EepromCall.programs] at hp
    · have hlog := (quiet_call (by simpa using hp) hc).2.1
      unfold AllErased
      rw [hlog]
      exact ih

/-- A run that programs over a byte: the sync after the last slot was used, or after the last
generation byte. -/
theorem used_slot_programmed (h2 : 2 ≤ a.numSlots) (hN : a.numSlots < 2 ^ 16) :
    ∃ s, EepromRun a (min a.numSlots 256 + 1) s ∧ ¬ AllErased s := by
  rcases Nat.lt_or_ge 255 a.numSlots with hlt | hle
  · obtain ⟨s, hrun, -, hcur, -, hused⟩ := save_spent h2 hN
    obtain ⟨s', hs', hrun', -, -⟩ := hrun.save hN 0
    rw [Nat.min_eq_right hlt]
    refine ⟨s', hrun', fun hall => ?_⟩
    obtain ⟨r, hr⟩ := findCurrentGen_returns (s := s.writeByte 0 0) hN (Nat.lt_succ_self _)
    have hflash : (s.writeByte 0 0).flash = s.flash := rfl
    have hr255 : r = 255 % a.numSlots := hcur _ _ ((findCurrentGen_congr hflash).symm.trans hr)
    rw [hr255] at hr
    have hsync : Synced a (255 % a.numSlots) (256 % a.numSlots) _ s' := sync_cases h2 hN rfl hr hs'
    apply hused
    apply hall
    rw [hsync.programmed, List.mem_append, List.mem_map]
    exact .inr ⟨0, by simp, rfl⟩
  · obtain ⟨s, hrun, -⟩ := eepromRun_exists hN a.numSlots
    have h := rotated_run h2 hN hrun hle
    obtain ⟨s', hs', hrun', -, -⟩ := hrun.save hN 0
    rw [Nat.min_eq_left (by omega)]
    refine ⟨s', hrun', fun hall => ?_⟩
    have hwrite : (EepromCall.writeByte 0 0).run a 0 s = some (s.writeByte 0 0) := rfl
    have h1 : Rotated a a.numSlots (s.writeByte 0 0) := h.quiet h2 hN hle rfl hwrite
    have hsync := h1.synced h2 hN hle (c := .sync) rfl hs'
    have hone : (a.numSlots + 1) % a.numSlots < a.numSlots := Nat.mod_lt _ (by omega)
    -- slot 1 was used by the first sync
    have hgen : s.gen a ((a.numSlots + 1) % a.numSlots) = 254 := by
      have hslot : (a.numSlots + 1) % a.numSlots = 1 := by
        rw [Nat.add_mod_left, Nat.mod_eq_of_lt (by omega)]
      rw [h.gen _ hone, hslot, lastSync_first (by omega) le_rfl h2]
    have hff : s.flash (a.genAddr ((a.numSlots + 1) % a.numSlots)) = 0xFF := by
      apply hall
      rw [hsync.programmed, List.mem_append, List.mem_map, a.genAddr_eq hone]
      exact .inr ⟨256, by simp, rfl⟩
    rw [FlashEeprom.gen, hff] at hgen
    simp at hgen

/-- Every byte programmed in the runs with at most `k` syncs that have something to write was
erased exactly when the slots and the generation bytes last: at most N and at most 256 such
syncs. With 65536 slots or more no sync gets to program a byte. -/
theorem sync_programs_erased_iff (a : FlashArea) (h2 : 2 ≤ a.numSlots) (k : ℕ) :
    (∀ j, j ≤ k → ∀ s, EepromRun a j s → AllErased s) ↔
      k ≤ min a.numSlots 256 ∨ 2 ^ 16 ≤ a.numSlots := by
  constructor
  · intro hall
    by_contra hk
    rw [not_or, not_le, not_le] at hk
    obtain ⟨s, hrun, hover⟩ := used_slot_programmed h2 hk.2
    exact hover (hall _ hk.1 s hrun)
  · rintro (hk | hN) j hj s hrun
    · rcases Nat.lt_or_ge a.numSlots (2 ^ 16) with hN | hN
      · exact erased_run h2 hN hrun (hj.trans hk)
      · exact erased_of_hang hN hrun
    · exact erased_of_hang hN hrun

theorem sync_programs_erased_ch32v203 :
    (∀ j, j ≤ 15 → ∀ s, EepromRun ch32v203Area j s → AllErased s) ↔
      15 ≤ min ch32v203Area.numSlots 256 ∨ 2 ^ 16 ≤ ch32v203Area.numSlots :=
  sync_programs_erased_iff ch32v203Area (by decide) 15

/-- The 16th sync goes to a slot that was used. -/
theorem sync_programs_twice : ∃ s, EepromRun ch32v203Area 16 s ∧ ¬ AllErased s :=
  used_slot_programmed (by decide) (by decide)

end Barelog
