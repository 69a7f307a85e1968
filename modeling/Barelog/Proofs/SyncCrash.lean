import Barelog.Proofs.Rotation

/-! Power loss during `eeprom_flash_sync`. The bytes that it programs go to the slot after the
current one, the generation byte last: before that one the search finds the old slot, and none of
the bytes of the old slot has been touched. -/

namespace Barelog

open FlashEeprom

variable {a : FlashArea} {s t : FlashEeprom} {fuel cur addr len k : ℕ}
  {store : Byte → Byte → Byte} {flash : ℕ → Byte} {ws : List (ℕ × Byte)}

/-- The byte writes in a list, in order; `store` makes the new content of a byte from the old one
and the one written. -/
def programBytes (store : Byte → Byte → Byte) (flash : ℕ → Byte) (ws : List (ℕ × Byte)) : ℕ → Byte :=
  ws.foldl (fun f w => Function.update f w.1 (store (f w.1) w.2)) flash

def storeByte : Byte → Byte → Byte := fun _ b => b

def bytesAt (addr : ℕ) (data : ℕ → Byte) (len : ℕ) : List (ℕ × Byte) :=
  (List.range len).map fun i => (addr + i, data i)

/-- The byte writes of `eeprom_flash_sync`: 256 of data, then the generation byte. -/
def FlashEeprom.syncWrites (store : Byte → Byte → Byte) (a : FlashArea) (fuel : ℕ)
    (s : FlashEeprom) : Option (List (ℕ × Byte)) :=
  if s.dirty then do
    let currentSlot ← s.findCurrentGen a fuel
    let (nextSlot, s1) := s.findNextFreeSlot a currentSlot
    let data := bytesAt (a.slotAddr nextSlot) s1.cache 256
    let genByte := nextGen (programBytes store s1.flash data (a.genAddr currentSlot))
    return data ++ [(u32 (a.slotAddr nextSlot + 256), genByte)]
  else return []

def FlashEeprom.loaded (a : FlashArea) (fuel : ℕ) (s : FlashEeprom) : Option (Fin 256 → Byte) :=
  (s.init a fuel).map fun s' i => s'.cache i

theorem programBytes_outside {x : ℕ} (h : ∀ w ∈ ws, w.1 ≠ x) :
    programBytes store flash ws x = flash x := by
  induction ws generalizing flash with
  | nil => rfl
  | cons w ws ih =>
    have hrest : ∀ w ∈ ws, w.1 ≠ x := fun w hw => h w (List.mem_cons_of_mem _ hw)
    rw [programBytes, List.foldl_cons, ← programBytes, ih hrest,
      Function.update_of_ne (h w List.mem_cons_self).symm]

theorem mem_bytesAt {data : ℕ → Byte} {w : ℕ × Byte} (h : w ∈ bytesAt addr data len) :
    addr ≤ w.1 ∧ w.1 < addr + len := by
  obtain ⟨i, hi, rfl⟩ := List.mem_map.mp h
  have hlt := List.mem_range.mp hi
  exact ⟨Nat.le_add_right _ _, Nat.add_lt_add_left hlt _⟩

theorem programBytes_append (us : List (ℕ × Byte)) :
    programBytes store flash (ws ++ us) = programBytes store (programBytes store flash ws) us :=
  List.foldl_append

/-- Where bytes are stored as they are, the byte writes are those of the sync. -/
theorem programBytes_bytesAt (s : FlashEeprom) (addr : ℕ) (data : ℕ → Byte) (len : ℕ) :
    programBytes storeByte s.flash (bytesAt addr data len) = (s.writeBytes addr data len).flash := by
  induction len with
  | zero =>
    funext x
    exact (if_neg (by omega)).symm
  | succ len ih =>
    have hsplit : bytesAt addr data (len + 1) = bytesAt addr data len ++ [(addr + len, data len)] := by
      rw [bytesAt, List.range_succ, List.map_append]
      rfl
    rw [hsplit, programBytes_append, ih]
    funext x
    change Function.update (s.writeBytes addr data len).flash (addr + len) (data len) x =
      (s.writeBytes addr data (len + 1)).flash x
    by_cases hx : x = addr + len
    · rw [hx, Function.update_self, writeBytes_inside s addr data (Nat.lt_succ_self len)]
    · rw [Function.update_of_ne hx]
      exact if_congr (by omega) rfl rfl

theorem findCurrentGen_lt (h2 : 2 ≤ a.numSlots) (h : s.findCurrentGen a fuel = some cur) :
    a.numSlots < 2 ^ 16 ∧ cur < a.numSlots := by
  have hN : a.numSlots < 2 ^ 16 := by
    by_contra hN
    rw [findCurrentGen_hangs (not_lt.mp hN)] at h
    cases h
  rcases findGenLoop_sound hN h with ⟨rfl, -⟩ | ⟨hlt, -⟩
  · exact ⟨hN, by omega⟩
  · exact ⟨hN, hlt⟩

/-- The slot a sync goes to is not the current one, and nothing is erased. -/
theorem findNextFreeSlot_cases (h2 : 2 ≤ a.numSlots) (h : s.findCurrentGen a fuel = some cur) :
    ∃ next, s.findNextFreeSlot a cur = (next, s) ∧ next < a.numSlots ∧ next ≠ cur := by
  obtain ⟨hN, hcur⟩ := findCurrentGen_lt h2 h
  have hnext := findNextFreeSlot_eq (k := cur) h2 hN s
  rw [Nat.mod_eq_of_lt hcur] at hnext
  have hne := next_ne cur h2
  rw [Nat.mod_eq_of_lt hcur] at hne
  exact ⟨_, hnext, Nat.mod_lt _ (by omega), hne⟩

/-- The flash after a sync is what its byte writes make of it. -/
theorem sync_programs (a : FlashArea) (fuel : ℕ) (s : FlashEeprom) (h2 : 2 ≤ a.numSlots) :
    (s.sync a fuel).map FlashEeprom.flash =
      (s.syncWrites storeByte a fuel).map (programBytes storeByte s.flash) := by
  by_cases hdirty : s.dirty = true
  swap
  · simp [sync, syncWrites, hdirty, programBytes]
  rcases hcur : s.findCurrentGen a fuel with _ | cur
  · simp [sync, syncWrites, hdirty, hcur]
  obtain ⟨next, hnext, -, -⟩ := findNextFreeSlot_cases h2 hcur
  simp only [sync, syncWrites, hdirty, if_true, hcur, Option.bind_eq_bind, Option.bind_some,
    Option.pure_def, Option.map_some, hnext, Option.some.injEq]
  rw [programBytes_append, programBytes_bytesAt]
  exact (programBytes_bytesAt _ (u32 (a.slotAddr next + 256)) (fun _ => _) 1).symm

/-- A search that has found a slot finds it with more or less fuel, if it ends. -/
theorem findGenLoop_unique {fuel' slot r r' : ℕ} {g : Byte}
    (h : s.findGenLoop a fuel slot g cur = some r)
    (h' : s.findGenLoop a fuel' slot g cur = some r') : r = r' := by
  induction fuel generalizing fuel' slot g cur with
  | zero => cases h
  | succ fuel ih =>
    cases fuel' with
    | zero => cases h'
    | succ fuel' =>
      simp only [findGenLoop] at h h'
      by_cases hlt : slot < a.numSlots
      · rw [if_pos hlt] at h h'
        split_ifs at h h'
        · exact ih h h'
        · exact ih h h'
      · rw [if_neg hlt] at h h'
        exact (Option.some.inj h).symm.trans (Option.some.inj h')

/-- What the first 256 byte writes of a sync, or fewer, leave alone: the generation bytes of all
slots, and the data of the current one. -/
theorem crash_keeps (h2 : 2 ≤ a.numSlots) (hws : s.syncWrites store a fuel = some ws) (hk : k ≤ 256) :
    (∀ slot, slot < a.numSlots →
      programBytes store s.flash (ws.take k) (a.genAddr slot) = s.flash (a.genAddr slot)) ∧
      ∀ fuel' cur, s.findCurrentGen a fuel' = some cur → ∀ i, i < 256 →
        programBytes store s.flash (ws.take k) (a.slotAddr cur + i) =
          s.flash (a.slotAddr cur + i) := by
  by_cases hdirty : s.dirty = true
  swap
  · rw [syncWrites, if_neg hdirty] at hws
    obtain rfl := Option.some.inj hws
    rw [List.take_nil]
    exact ⟨fun _ _ => rfl, fun _ _ _ _ _ => rfl⟩
  rcases hcur : s.findCurrentGen a fuel with _ | cur
  · simp [syncWrites, hdirty, hcur] at hws
  obtain ⟨next, hnext, hlt, hne⟩ := findNextFreeSlot_cases h2 hcur
  obtain ⟨-, hcurlt⟩ := findCurrentGen_lt h2 hcur
  simp only [syncWrites, hdirty, if_true, hcur, hnext, Option.bind_eq_bind, Option.bind_some,
    Option.pure_def, Option.some.injEq] at hws
  have hdata : ∀ w ∈ ws.take k, a.slotAddr next ≤ w.1 ∧ w.1 < a.slotAddr next + 256 := by
    intro w hw
    rw [← hws, List.take_append_of_le_length (by simpa [bytesAt] using hk)] at hw
    exact mem_bytesAt (List.mem_of_mem_take hw)
  constructor
  · intro slot hslot
    refine programBytes_outside fun w hw heq => ?_
    have hin := hdata w hw
    rw [heq, a.genAddr_eq hslot] at hin
    by_cases hsame : slot = next
    · rw [hsame] at hin
      omega
    · have hdis := a.slot_disjoint hslot hlt hsame (show 256 < 257 by decide)
      omega
  · intro fuel' cur' hcur' i hi
    obtain rfl : cur' = cur := findGenLoop_unique hcur' hcur
    refine programBytes_outside fun w hw heq => ?_
    have hin := hdata w hw
    have hdis := a.slot_disjoint hcurlt hlt hne.symm (show i < 257 by omega)
    omega

/-- After a power loss before the generation byte of a sync, `eeprom_flash_init` selects the slot
and loads the bytes that it would have before the sync. It does not matter what programming makes
of a byte: whether it stores the new one, or only clears bits of the old one. -/
theorem sync_crash_keeps (a : FlashArea) (h2 : 2 ≤ a.numSlots) (store : Byte → Byte → Byte)
    (s t : FlashEeprom) (fuel : ℕ) (ws : List (ℕ × Byte))
    (hws : s.syncWrites store a fuel = some ws) (k : ℕ) (hk : k ≤ 256)
    (ht : t.flash = programBytes store s.flash (ws.take k)) (fuel' : ℕ) :
    t.findCurrentGen a fuel' = s.findCurrentGen a fuel' ∧
      t.loaded a fuel' = s.loaded a fuel' := by
  obtain ⟨hgen, hdata⟩ := crash_keeps h2 hws hk
  have hfind : t.findCurrentGen a fuel' = s.findCurrentGen a fuel' := by
    refine findGenLoop_congr (fun slot hslot => ?_) 0xFF 0
    rw [ht]
    exact hgen slot hslot
  refine ⟨hfind, ?_⟩
  rcases hcur : s.findCurrentGen a fuel' with _ | cur
  · rw [hcur] at hfind
    simp [loaded, init, hcur, hfind]
  · rw [hcur] at hfind
    obtain ⟨s', hs', hload⟩ := init_eq hcur
    obtain ⟨t', ht', hload'⟩ := init_eq hfind
    rw [loaded, loaded, hs', ht', Option.map_some, Option.map_some, Option.some.injEq]
    funext i
    rw [hload i i.isLt, hload' i i.isLt, ht]
    exact hdata fuel' cur hcur i i.isLt

def unsavedEeprom : FlashEeprom := ⟨fun _ => 0xFF, fun i => .ofNat i, true, []⟩

/-- Power is lost after 100 bytes, in flash that only clears bits. -/
theorem sync_crash_keeps_ch32v203 : ∃ ws,
    unsavedEeprom.syncWrites (· &&& ·) ch32v203Area 16 = some ws ∧
      FlashEeprom.loaded ch32v203Area 16
        { unsavedEeprom with flash := programBytes (· &&& ·) unsavedEeprom.flash (ws.take 100) } =
      unsavedEeprom.loaded ch32v203Area 16 :=
  ⟨_, rfl, (sync_crash_keeps ch32v203Area (by decide) (· &&& ·) unsavedEeprom _ 16 _ rfl 100
    (by decide) rfl 16).2⟩

end Barelog
