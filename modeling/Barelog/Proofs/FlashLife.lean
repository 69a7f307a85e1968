import Barelog.Proofs.SyncCrash

/-! The EEPROM emulation through power losses. A program that uses it sees a working copy of 256 bytes
and a kept one: `eeprom_flash_sync` keeps the working copy, and a boot goes back to the kept one. The
power may go after any byte that a sync programs, and a sync that is cut off has happened or not. -/

namespace Barelog

open FlashEeprom

variable {a : FlashArea} {s s' t t' : FlashEeprom} {fuel fuel' k j : ℕ} {ws : List (ℕ × Byte)}

/-- What the emulation stands for. -/
structure EepromCell where
  kept : Fin 256 → Byte
  work : Fin 256 → Byte

variable {e : EepromCell}

def EepromCell.put (e : EepromCell) (addr : ℕ) (val : Byte) : EepromCell :=
  if h : addr < 256 then { e with work := Function.update e.work ⟨addr, h⟩ val } else e

def EepromCell.keep (e : EepromCell) : EepromCell := ⟨e.work, e.work⟩

def EepromCell.boot (e : EepromCell) : EepromCell := ⟨e.kept, e.kept⟩

def EepromCell.get (e : EepromCell) (addr : ℕ) : Byte :=
  if h : addr < 256 then e.work ⟨addr, h⟩ else 0xFF

def EepromCell.call (e : EepromCell) : EepromCall → EepromCell
  | .init => e.boot
  | .writeByte addr val => e.put addr val
  | .updateByte addr val => e.put addr val
  | .sync => e.keep

/-- Calls and power losses, from an erased area. Power is lost after `j` byte writes of a sync, and
what is in memory with it; `j = 0` stands for a loss at any other time. The next boot loads the cache.
`k` counts the syncs that have written their generation byte. -/
inductive FlashLife (a : FlashArea) : ℕ → EepromCell → FlashEeprom → Prop
  | start {s : FlashEeprom} (h : s.Fresh a) : FlashLife a 0 ⟨fun _ => 0xFF, fun _ => 0xFF⟩ s
  | call {k : ℕ} {e : EepromCell} {s s' : FlashEeprom} (fuel : ℕ) (c : EepromCall)
      (hlife : FlashLife a k e s) (hc : c.run a fuel s = some s') :
      FlashLife a (if c.programs s then k + 1 else k) (e.call c) s'
  | crash {k : ℕ} {e : EepromCell} {s t t' : FlashEeprom} {ws : List (ℕ × Byte)} (fuel fuel' j : ℕ)
      (hlife : FlashLife a k e s) (hws : s.syncWrites storeByte a fuel = some ws)
      (ht : t.flash = programBytes storeByte s.flash (ws.take j)) (hboot : t.init a fuel' = some t') :
      FlashLife a (if s.dirty = true ∧ 256 < j then k + 1 else k)
        (if 256 < j then e.keep else e.boot) t'

/-- The kept bytes are in the slot of the last sync. Slots that are not used may have bytes of a sync
that was cut off. -/
structure Keeps (a : FlashArea) (k : ℕ) (e : EepromCell) (s : FlashEeprom) : Prop where
  gen : ∀ slot, slot < a.numSlots → s.gen a slot = 255 - lastSync a.numSlots k slot
  kept : ∀ i : Fin 256, s.flash (a.slotAddr (k % a.numSlots) + i) = e.kept i
  work : ∀ i : Fin 256, s.cache i = e.work i
  clean : s.dirty = false → e.work = e.kept

theorem FlashEeprom.Fresh.keeps (h : s.Fresh a) (h0 : 0 < a.numSlots) :
    Keeps a 0 ⟨fun _ => 0xFF, fun _ => 0xFF⟩ s := by
  refine ⟨(h.rotated h0).gen, fun i => ?_, fun i => h.cache i i.isLt, fun _ => rfl⟩
  rw [← (h.rotated h0).clean h.clean i i.isLt]
  exact h.cache i i.isLt

theorem Keeps.boot (h : Keeps a k e s) (h0 : 0 < a.numSlots) (hN : a.numSlots < 2 ^ 16) (hk : k ≤ 255)
    (ht : t.flash = s.flash) (hboot : t.init a fuel = some t') : Keeps a k e.boot t' := by
  simp only [FlashEeprom.init, Option.bind_eq_bind, Option.bind_eq_some_iff, Option.pure_def,
    Option.some.injEq] at hboot
  obtain ⟨cur, hcur, rfl⟩ := hboot
  have hgen : ∀ slot, slot < a.numSlots → t.gen a slot = 255 - lastSync a.numSlots k slot := by
    intro slot hslot
    rw [FlashEeprom.gen, ht]
    exact h.gen slot hslot
  have hkept : ∀ i : Fin 256, t.flash (a.slotAddr (k % a.numSlots) + i) = e.kept i := by
    intro i
    rw [ht]
    exact h.kept i
  obtain rfl := current_of_gen hgen h0 hN hk hcur
  exact ⟨hgen, hkept, fun i => (if_pos i.isLt).trans (hkept i), fun _ => rfl⟩

theorem Keeps.put (h : Keeps a k e s) (addr : ℕ) (val : Byte) :
    Keeps a k (e.put addr val) (s.writeByte addr val) := by
  by_cases haddr : addr < 256
  · rw [EepromCell.put, dif_pos haddr, writeByte, if_neg (by omega)]
    refine ⟨h.gen, h.kept, fun i => ?_, fun hclean => by cases hclean⟩
    by_cases hi : i = ⟨addr, haddr⟩
    · subst hi
      dsimp only
      rw [Function.update_self, Function.update_self]
    · have hne : (i : ℕ) ≠ addr := fun heq => hi (Fin.ext heq)
      dsimp only
      rw [Function.update_of_ne hne, Function.update_of_ne hi, h.work i]
  · rwa [EepromCell.put, dif_neg haddr, writeByte, if_pos (by omega)]

/-- An update that changes nothing is not marked, and a write of the same byte changes nothing. -/
theorem Keeps.update (h : Keeps a k e s) (addr : ℕ) (val : Byte) :
    Keeps a k (e.put addr val) (s.updateByte addr val) := by
  have hput := h.put addr val
  by_cases haddr : addr < 256
  · rw [updateByte, if_neg (by omega)]
    split_ifs with hval
    · rwa [writeByte, if_neg (by omega)] at hput
    · have hsame : e.work ⟨addr, haddr⟩ = val := by
        rw [← h.work ⟨addr, haddr⟩]
        exact not_not.mp hval
      rwa [EepromCell.put, dif_pos haddr, ← hsame, Function.update_eq_self]
  · rw [updateByte, if_pos (by omega)]
    rwa [writeByte, if_pos (by omega)] at hput

theorem Keeps.sync (h : Keeps a k e s) (h2 : 2 ≤ a.numSlots) (hN : a.numSlots < 2 ^ 16) (hk : k < 255)
    (hdirty : s.dirty = true) (hrun : s.sync a fuel = some s') : Keeps a (k + 1) e.keep s' := by
  rcases hcur : s.findCurrentGen a fuel with _ | cur
  · simp [FlashEeprom.sync, hdirty, hcur] at hrun
  obtain rfl := current_of_gen h.gen (by omega) hN (by omega) hcur
  have hsync := sync_cases h2 hN hdirty hcur hrun
  refine ⟨hsync.gens h.gen h2 hk, fun i => ?_, fun i => ?_, fun _ => rfl⟩
  · rw [hsync.data i i.isLt]
    exact h.work i
  · rw [hsync.cache]
    exact h.work i

theorem Keeps.keep_clean (h : Keeps a k e s) (hclean : s.dirty = false) :
    e.keep = e ∧ e.boot = e := by
  have hwork := h.clean hclean
  obtain ⟨kept, work⟩ := e
  obtain rfl : work = kept := hwork
  exact ⟨rfl, rfl⟩

theorem Keeps.call (h : Keeps a k e s) (h2 : 2 ≤ a.numSlots) (hN : a.numSlots < 2 ^ 16)
    {c : EepromCall} (hk : (if c.programs s then k + 1 else k) ≤ 255) (hc : c.run a fuel s = some s') :
    Keeps a (if c.programs s then k + 1 else k) (e.call c) s' := by
  cases c with
  | init => exact h.boot (by omega) hN hk rfl hc
  | writeByte addr val =>
    obtain rfl := Option.some.inj hc
    exact h.put addr val
  | updateByte addr val =>
    obtain rfl := Option.some.inj hc
    exact h.update addr val
  | sync =>
    have hrun : s.sync a fuel = some s' := hc
    by_cases hdirty : s.dirty = true
    · have hp : EepromCall.sync.programs s = true := hdirty
      rw [if_pos hp] at hk ⊢
      exact h.sync h2 hN (by omega) hdirty hrun
    · have hp : ¬ EepromCall.sync.programs s = true := hdirty
      have hclean : s.dirty = false := by simpa using hdirty
      rw [FlashEeprom.sync, if_neg hdirty] at hrun
      obtain rfl := Option.some.inj hrun
      rw [if_neg hp, EepromCell.call, (h.keep_clean hclean).1]
      exact h

/-- A sync that is cut off before its generation byte leaves the kept bytes. -/
theorem Keeps.cut (h : Keeps a k e s) (h2 : 2 ≤ a.numSlots) (hN : a.numSlots < 2 ^ 16) (hk : k ≤ 255)
    (hws : s.syncWrites storeByte a fuel = some ws) (hj : j ≤ 256) :
    Keeps a k e { s with flash := programBytes storeByte s.flash (ws.take j) } := by
  obtain ⟨hgens, hdata⟩ := crash_keeps h2 hws hj
  refine ⟨fun slot hslot => ?_, fun i => ?_, h.work, h.clean⟩
  · rw [FlashEeprom.gen, ← h.gen slot hslot, FlashEeprom.gen]
    exact congrArg UInt8.toNat (hgens slot hslot)
  · obtain ⟨r, hr⟩ := findCurrentGen_returns (s := s) hN (Nat.lt_succ_self _)
    obtain rfl := current_of_gen h.gen (by omega) hN hk hr
    rw [← h.kept i]
    exact hdata _ _ hr i i.isLt

theorem syncWrites_all (h2 : 2 ≤ a.numSlots) (hdirty : s.dirty = true)
    (hws : s.syncWrites storeByte a fuel = some ws) (hj : 256 < j) :
    ∃ s', s.sync a fuel = some s' ∧ programBytes storeByte s.flash (ws.take j) = s'.flash := by
  have hlen : ws.length = 257 := by
    rcases hcur : s.findCurrentGen a fuel with _ | cur
    · simp [syncWrites, hdirty, hcur] at hws
    · simp only [syncWrites, hdirty, if_true, hcur, Option.bind_eq_bind, Option.bind_some,
        Option.pure_def, Option.some.injEq] at hws
      simp [← hws, bytesAt]
  have hprog := sync_programs a fuel s h2
  rw [hws, Option.map_some, Option.map_eq_some_iff] at hprog
  obtain ⟨s', hrun, hflash⟩ := hprog
  refine ⟨s', hrun, ?_⟩
  rw [List.take_of_length_le (by omega), hflash]

theorem syncWrites_returns (hN : a.numSlots < 2 ^ 16) (hdirty : s.dirty = true)
    (hfuel : a.numSlots < fuel) : ∃ ws, s.syncWrites storeByte a fuel = some ws := by
  obtain ⟨cur, hcur⟩ := findCurrentGen_returns (s := s) hN hfuel
  simp only [syncWrites, hdirty, if_true, hcur, Option.bind_eq_bind, Option.bind_some,
    Option.pure_def]
  exact ⟨_, rfl⟩

theorem Keeps.crash (h : Keeps a k e s) (h2 : 2 ≤ a.numSlots) (hN : a.numSlots < 2 ^ 16)
    (hk : (if s.dirty = true ∧ 256 < j then k + 1 else k) ≤ 255)
    (hws : s.syncWrites storeByte a fuel = some ws)
    (ht : t.flash = programBytes storeByte s.flash (ws.take j)) (hboot : t.init a fuel' = some t') :
    Keeps a (if s.dirty = true ∧ 256 < j then k + 1 else k)
      (if 256 < j then e.keep else e.boot) t' := by
  by_cases hj : 256 < j
  · rw [if_pos hj]
    by_cases hdirty : s.dirty = true
    · rw [if_pos ⟨hdirty, hj⟩] at hk ⊢
      obtain ⟨s', hrun, hflash⟩ := syncWrites_all h2 hdirty hws hj
      exact (h.sync h2 hN (by omega) hdirty hrun).boot (by omega) hN hk (ht.trans hflash) hboot
    · rw [if_neg fun hboth => hdirty hboth.1] at hk ⊢
      obtain ⟨hkeep, hboot'⟩ := h.keep_clean (by simpa using hdirty)
      rw [syncWrites, if_neg hdirty] at hws
      obtain rfl := Option.some.inj hws
      rw [List.take_nil] at ht
      rw [hkeep, ← hboot']
      exact h.boot (by omega) hN hk ht hboot
  · rw [if_neg fun hboth => hj hboth.2] at hk ⊢
    rw [if_neg hj]
    exact (h.cut h2 hN hk hws (by omega)).boot (by omega) hN hk ht hboot

theorem FlashLife.keeps (h : FlashLife a k e s) (h2 : 2 ≤ a.numSlots) (hN : a.numSlots < 2 ^ 16)
    (hk : k ≤ 255) : Keeps a k e s := by
  induction h with
  | start h => exact h.keeps (by omega)
  | call fuel c hlife hc ih =>
    refine (ih ?_).call h2 hN hk hc
    split_ifs at hk <;> omega
  | crash fuel fuel' j hlife hws ht hboot ih =>
    refine (ih ?_).crash h2 hN hk hws ht hboot
    split_ifs at hk <;> omega

/-- Through any calls and power losses the emulation is a working copy and a kept one: a byte reads as
it was last written, and a boot at any time finds what the last sync has kept. -/
theorem eeprom_is_cell (a : FlashArea) (h2 : 2 ≤ a.numSlots) (hN : a.numSlots < 2 ^ 16) (k : ℕ)
    (hk : k ≤ 255) (e : EepromCell) (s : FlashEeprom) (hlife : FlashLife a k e s) :
    (∀ addr, s.readByte addr = e.get addr) ∧
      ∀ (t : FlashEeprom) (fuel : ℕ), t.flash = s.flash → a.numSlots < fuel →
        ∃ t', t.init a fuel = some t' ∧ ∀ addr, t'.readByte addr = e.boot.get addr := by
  have hget : ∀ {k e s}, Keeps a k e s → ∀ addr, s.readByte addr = e.get addr := by
    intro k e s h addr
    by_cases haddr : addr < 256
    · rw [readByte, if_neg (by omega), EepromCell.get, dif_pos haddr]
      exact h.work ⟨addr, haddr⟩
    · rw [readByte, if_pos (by omega), EepromCell.get, dif_neg haddr]
  have hkeeps := hlife.keeps h2 hN hk
  refine ⟨hget hkeeps, fun t fuel ht hfuel => ?_⟩
  obtain ⟨r, hr⟩ := findCurrentGen_returns (s := t) hN hfuel
  obtain ⟨t', hboot, -⟩ := init_eq hr
  exact ⟨t', hboot, hget (hkeeps.boot (by omega) hN hk ht hboot)⟩

/-- A cell after a sync, a write and a power loss in the next sync. -/
theorem eeprom_is_cell_ch32v203 : ∃ (e : EepromCell) (s : FlashEeprom),
    FlashLife ch32v203Area 1 e s ∧ s.readByte 0 = 0x42 := by
  have hN : ch32v203Area.numSlots < 2 ^ 16 := by decide
  have hfuel : ch32v203Area.numSlots < 16 := by decide
  have h0 := FlashLife.start (erasedEeprom_fresh ch32v203Area)
  have h1 : FlashLife ch32v203Area 0 _ (erasedEeprom.writeByte 0 0x42) :=
    .call 0 (.writeByte 0 0x42) h0 rfl
  obtain ⟨s2, hs2, -, -⟩ := sync_returns (s := erasedEeprom.writeByte 0 0x42) hN rfl hfuel
  have h2 : FlashLife ch32v203Area 1 _ s2 := .call 16 .sync h1 hs2
  have h3 : FlashLife ch32v203Area 1 _ (s2.writeByte 0 0x17) :=
    .call 0 (.writeByte 0 0x17) h2 rfl
  obtain ⟨ws, hws⟩ := syncWrites_returns (s := s2.writeByte 0 0x17) hN rfl hfuel
  let t : FlashEeprom := { erasedEeprom with flash := programBytes storeByte s2.flash (ws.take 100) }
  obtain ⟨r, hr⟩ := findCurrentGen_returns (s := t) hN hfuel
  obtain ⟨s4, hs4, -⟩ := init_eq hr
  have h4 : FlashLife ch32v203Area 1 _ s4 := .crash 16 16 100 h3 hws rfl hs4
  exact ⟨_, s4, h4, (eeprom_is_cell ch32v203Area (by decide) hN 1 (by decide) _ s4 h4).1 0⟩

end Barelog
