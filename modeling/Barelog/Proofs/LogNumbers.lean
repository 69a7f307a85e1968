import Barelog.Proofs.CardLife
import Barelog.Proofs.LogName
import Barelog.Proofs.TornRecord

/-! The numbers of the log files over the life of a device. The number of the next file is in the
EEPROM, which stays when the power goes and when cards are changed: boots that create files save it
with the rest of the configuration, and the recovery record lies behind it. So no number is given
twice until a factory reset. -/

namespace Barelog

open Prog Labelled

variable {e e' : ℕ → Byte} {n m : ℕ} {ns : List ℕ}

def nextNumber (e : ℕ → Byte) : ℕ := le16 e eepromOffLognum

/-- What happens to the EEPROM: a boot creates the log file with number `n` on some card that answers
and has a number left, or a flush stores its recovery record, of which a power loss may leave the first
`k` byte writes. -/
inductive EepromStep (e : ℕ → Byte) : Option ℕ → (ℕ → Byte) → Prop
  | created {env : Env} {fuel n : ℕ} {card : ℕ → Sector} {rxLow : Bool} {l : List ℕ}
      {s s0 : Machine} (hgood : env.Good) (hcard : GoodCard l card) (hfuel : l.length < fuel)
      (hreset : rxLow = true → (storedConfig e).flags &&& cfgFlIgnoreRxRst ≠ 0)
      (hmount : fat32Mount.run (fwStep env) ((Machine.powerUp card e).configured rxLow) = (.ok (), s))
      (hroom : clusWanted s ≤ (freeClus s.ram.vol s.card).length)
      (hleft : NameLeft s (slotsOf s.ram.vol l))
      (hopen : (fat32OpenLog fuel).run (fwStep env) s = (.ok (), s0)) (hwrote : s0.events ≠ s.events)
      (hname : ∀ i, i < 11 → slotByte s0.card (logSlot s0) i = makeLogname n i) (hn : n < 65535) :
      EepromStep e (some n) s0.eeprom
  | flush {env : Env} {fuel : ℕ} {s s' : Machine} (k : ℕ) (hs : s.eeprom = e)
      (hrun : (logFlush fuel).run (fwStep env) s = (.ok (), s')) :
      EepromStep e none (cutEeprom env (logFlush fuel) s k)

/-! Names. -/

theorem makeLogname_digits (n : ℕ) : makeLogname n 7 = .ofNat (0x30 + n % 10) ∧
    makeLogname n 6 = .ofNat (0x30 + n / 10 % 10) ∧
    makeLogname n 5 = .ofNat (0x30 + n / 10 / 10 % 10) ∧
    makeLogname n 4 = .ofNat (0x30 + n / 10 / 10 / 10 % 10) ∧
    makeLogname n 3 = .ofNat (0x30 + n / 10 / 10 / 10 / 10 % 10) :=
  ⟨rfl, rfl, rfl, rfl, rfl⟩

theorem digit_inj {x y : ℕ} (h : (.ofNat (0x30 + x % 10) : Byte) = .ofNat (0x30 + y % 10)) :
    x % 10 = y % 10 := by
  have hnat := congrArg UInt8.toNat h
  simp only [UInt8.toNat_ofNat'] at hnat
  omega

theorem makeLogname_inj (hn : n < 65535) (hm : m < 65535)
    (h : ∀ i, i < 11 → makeLogname n i = makeLogname m i) : n = m := by
  obtain ⟨n7, n6, n5, n4, n3⟩ := makeLogname_digits n
  obtain ⟨m7, m6, m5, m4, m3⟩ := makeLogname_digits m
  have h7 := digit_inj (n7.symm.trans ((h 7 (by decide)).trans m7))
  have h6 := digit_inj (n6.symm.trans ((h 6 (by decide)).trans m6))
  have h5 := digit_inj (n5.symm.trans ((h 5 (by decide)).trans m5))
  have h4 := digit_inj (n4.symm.trans ((h 4 (by decide)).trans m4))
  have h3 := digit_inj (n3.symm.trans ((h 3 (by decide)).trans m3))
  omega

/-! One step. -/

/-- A flush leaves the configuration, also when the power goes in it. -/
theorem flush_config {env : Env} {fuel : ℕ} {s s' : Machine} (k : ℕ)
    (hrun : (logFlush fuel).run (fwStep env) s = (.ok (), s')) :
    storedConfig (cutEeprom env (logFlush fuel) s k) = storedConfig s.eeprom ∧
      (HasConfig (cutEeprom env (logFlush fuel) s k) ↔ HasConfig s.eeprom) := by
  refine storedConfig_congr fun i hi => ?_
  rw [cutEeprom, logFlush_writes hrun]
  exact store_record_outside (List.take_sublist _ _) (.inl (by omega))

/-- A creation saves the configuration, in which it has only changed the number. -/
theorem created_saved {env : Env} {fuel : ℕ} {s s0 : Machine} (hv : Geometry s.ram.vol)
    (hroot : RootOk s.ram.vol s.card)
    (hroom : clusWanted s ≤ (freeClus s.ram.vol s.card).length)
    (hopen : (fat32OpenLog fuel).run (fwStep env) s = (.ok (), s0)) (hwrote : s0.events ≠ s.events) :
    (∃ e', s0.eeprom = savedConfig s0.ram.cfg e') ∧
      s0.ram.cfg = { s.ram.cfg with logNum := s0.ram.cfg.logNum } := by
  obtain ⟨n, _, _, s2, -, hcreated, rfl, -⟩ :=
    (openLog_named hv hroot hroom hopen).resolve_left hwrote
  refine ⟨⟨s2.eeprom, rfl⟩, ?_⟩
  rw [Machine.counted, hcreated.ram]
  rfl

/-- The number of a new file is one that has not been given yet, and it counts as given. -/
theorem created_number {env : Env} {fuel : ℕ} {card : ℕ → Sector} {rxLow : Bool} {l : List ℕ}
    {s s0 : Machine} (hconfig : HasConfig e) (hgood : env.Good) (hcard : GoodCard l card)
    (hfuel : l.length < fuel)
    (hreset : rxLow = true → (storedConfig e).flags &&& cfgFlIgnoreRxRst ≠ 0)
    (hmount : fat32Mount.run (fwStep env) ((Machine.powerUp card e).configured rxLow) = (.ok (), s))
    (hroom : clusWanted s ≤ (freeClus s.ram.vol s.card).length)
    (hleft : NameLeft s (slotsOf s.ram.vol l))
    (hopen : (fat32OpenLog fuel).run (fwStep env) s = (.ok (), s0)) (hwrote : s0.events ≠ s.events)
    (hname : ∀ i, i < 11 → slotByte s0.card (logSlot s0) i = makeLogname n i) (hn : n < 65535) :
    HasConfig s0.eeprom ∧ nextNumber e ≤ n ∧ nextNumber s0.eeprom = n + 1 := by
  have hend := mount_vol hmount
  have hvol : s.ram.vol = volOf card := congrArg Ram.vol hend.ram
  have hsame : s.card = card := hend.card.trans (mountedAs_card card e rxLow)
  have hcfg : s.ram.cfg = storedConfig e :=
    (congrArg Ram.cfg hend.ram).trans (configured_kept hconfig hreset)
  have hv : Geometry s.ram.vol := hvol ▸ hcard.geometry
  have hroot : RootOk s.ram.vol s.card := hvol ▸ hsame ▸ hcard.root
  have hl : RootChain s.ram.vol s.card l := hvol ▸ hsame ▸ hcard.chain
  obtain ⟨k, hle, hk, -, -, -, -, hbytes, -, hsaved⟩ :=
    (hleft.lowest hgood hv hroot hl hfuel hroom).created s0 hopen hwrote
  obtain rfl : n = k := makeLogname_inj hn hk fun i hi => (hname i hi).symm.trans (hbytes i hi)
  rw [hcfg] at hle
  obtain ⟨⟨e', hconfig'⟩, -⟩ := created_saved hv hroot hroom hopen hwrote
  refine ⟨?_, hle, hsaved⟩
  rw [hconfig']
  exact hasConfig_saved _ _

/-- The numbers of the files that a device creates increase over all its power cycles, on whatever
cards: each is at least the number that the EEPROM had at first, and none is given twice. -/
theorem log_numbers_increase (hconfig : HasConfig e) (hrun : Trace EepromStep e ns e') :
    (∀ n ∈ ns, nextNumber e ≤ n ∧ n < nextNumber e') ∧ ns.Pairwise (· < ·) := by
  refine (hrun.increasing (I := HasConfig) (fun s t hs hstep => ?_) (fun s n t hs hstep => ?_)
    hconfig).2
  · cases hstep with
    | flush k he hflush =>
      obtain ⟨hsame, hkept⟩ := flush_config k hflush
      subst he
      exact ⟨hkept.mpr hs, (congrArg Config.logNum hsame).ge⟩
  · cases hstep with
    | created hgood hcard hfuel hreset hmount hroom hleft hopen hwrote hname hn =>
      obtain ⟨hkept, hle, hnext⟩ := created_number hs hgood hcard hfuel hreset hmount hroom hleft
        hopen hwrote hname hn
      exact ⟨hkept, hle, by rw [hnext]; exact Nat.lt_succ_self _⟩

/-! A boot. -/

theorem NewLog.wrote {env : Env} {fuel : ℕ} {s s0 : Machine} {l : List ℕ}
    (h : NewLog env fuel s s0 l) : s0.events ≠ s.events := by
  obtain ⟨_, _, _, s2, -, -, -, -, -, hcreated, rfl⟩ :=
    openLog_new h.geometry h.root h.needs (h.ahead.room h.geometry) h.opened
  obtain ⟨evs, hevents, -⟩ := hcreated.events
  intro hsame
  have hlen := congrArg List.length (hevents.symm.trans hsame)
  simp only [List.length_append, List.length_singleton] at hlen
  change s.events.length + _ + _ + 1 = _ at hlen
  omega

theorem configured_unread (s : Machine) (rxLow : Bool) : (s.configured rxLow).unread = s.unread := by
  have hload : s.loadConfig.unread = s.unread := by
    unfold Machine.loadConfig
    split <;> rfl
  unfold Machine.configured
  dsimp only
  split_ifs <;> exact hload

/-- Nothing is received before the log file is open. -/
theorem StartsLog.unread {env : Env} {fuel : ℕ} {card : ℕ → Sector} {rxLow : Bool} {s s0 : Machine}
    (h : StartsLog env fuel card e rxLow s s0) : s0.unread = 0 := by
  obtain ⟨-, hhead, htail⟩ := (fat32OpenLog_tail fuel).run trivial h.opened
  obtain ⟨-, hhead', htail'⟩ := fat32Mount_tail.run trivial h.mounts
  rw [Machine.unread, hhead, htail, hhead', htail', ← Machine.unread, configured_unread]
  exact show ringCount 0 0 = 0 by decide

theorem bootCard_formatted : Formatted smallVol 19 bootCard := by
  have h : 0x0FFFFFF8 ≤ fatEntry smallVol bootCard 2 ∧
      freeClus smallVol bootCard = List.range' 3 19 ∧
      liveSlots bootCard (slotsOf smallVol [2]) = [] ∧ IsFree bootCard (11, 0) := by
    decide +kernel
  obtain ⟨hend, hfree, hempty, hslot⟩ := h
  refine ⟨bootCard_vol, bootCard_mountable, ?_, hfree, hempty, (11, 0), ?_, hslot⟩
  · exact goodCard_single bootCard_vol smallVol_geometry (by decide) rfl (by decide) (by decide) hend
  · exact List.mem_flatMap.mpr ⟨2, List.mem_singleton_self 2,
      List.mem_flatMap.mpr ⟨0, by decide, by decide⟩⟩

/-- A boot on a card that has just been formatted gives the number that the EEPROM has. -/
theorem bootCard_created {c : Config} (hc : c.Fits) (hcode : c.preallocCode = 0)
    (hnum : c.logNum < 65535) (hconfig : HasConfig e) (hcfg : storedConfig e = c) : ∃ s0 : Machine,
      EepromStep e (some c.logNum) s0.eeprom ∧ HasConfig s0.eeprom ∧
        storedConfig s0.eeprom = { c with logNum := c.logNum + 1 } ∧ s0.unread = 0 := by
  have hgood : Env.ideal.Good := fun _ => rfl
  have hreset : false = true → (storedConfig e).flags &&& cfgFlIgnoreRxRst ≠ 0 := fun h => by cases h
  have hmounted : (mountedAs bootCard e false).ram.cfg = c :=
    (configured_kept hconfig hreset).trans hcfg
  have hclus : clusNeeded smallVol (preallocSectors (mountedAs bootCard e false)) ≤ 19 := by
    rw [preallocSectors, preallocSize, hmounted, hcode]
    decide
  obtain ⟨s, s0, hnew⟩ := bootCard_formatted.starts (by decide : 1 < 64) (by decide)
    (by rw [hmounted]; exact hnum) hclus
  obtain ⟨hlog, hvol, hcard⟩ := hnew.new bootCard_formatted.good
  have hcfg' : s.ram.cfg = c := (congrArg Ram.cfg (mount_vol hnew.mounts).ram).trans hmounted
  have hroom := hlog.ahead.room hlog.geometry
  have hnone : ∀ k, ¬ Named s (slotsOf s.ram.vol [2]) k := by
    rintro k ⟨p, hp, -⟩
    rw [hvol, hcard, bootCard_vol, bootCard_formatted.empty] at hp
    cases hp
  have hleft : NameLeft s (slotsOf s.ram.vol [2]) :=
    .inl ⟨_, le_rfl, by rw [hcfg']; exact hnum, .inl (hnone _)⟩
  obtain ⟨n, hle, hn, -, hnamed, -, -, hname, hnext, -⟩ :=
    (hleft.lowest hgood hlog.geometry hlog.root hlog.chain (by decide) hroom).created s0 hnew.opened
      hlog.wrote
  obtain rfl : s.ram.cfg.logNum = n := by
    by_contra hne
    exact hnone _ (hnamed _ le_rfl (by omega))
  obtain ⟨⟨e', hsaved⟩, hsame⟩ :=
    created_saved hlog.geometry hlog.root hroom hnew.opened hlog.wrote
  rw [hnext, hcfg'] at hsame
  have hfits : s0.ram.cfg.Fits := by
    rw [hsame]
    exact ⟨hc.baud, hc.escCount, show c.logNum + 1 < 2 ^ 16 by omega, hc.preallocCode⟩
  refine ⟨s0, ?_, ?_, ?_, hnew.unread⟩
  · rw [← hcfg']
    exact .created hgood bootCard_formatted.good (by decide) hreset hnew.mounts hroom hleft hnew.opened
      hlog.wrote hname hn
  · rw [hsaved]
    exact hasConfig_saved _ _
  · rw [hsaved, storedConfig_saved hfits, hsame]

/-- Two boots, and between them a flush in which the power goes after two bytes. -/
theorem log_numbers_increase_boots : ∃ e : ℕ → Byte, Trace EepromStep bootEeprom [1, 2] e ∧
    ∀ n ∈ [1, 2], nextNumber bootEeprom ≤ n ∧ n < nextNumber e := by
  have hfits : { configDefaults with preallocCode := 0 }.Fits :=
    ⟨by decide, by decide, by decide, by decide⟩
  obtain ⟨s1, hstep1, hconfig1, hcfg1, hempty⟩ := bootCard_created hfits rfl (by decide)
    (hasConfig_saved _ fun _ => 0xFF) (storedConfig_saved hfits _)
  obtain ⟨_, hflush, -⟩ := logFlush_idle Env.ideal 64 hempty
  obtain ⟨hsame, hkept⟩ := flush_config 2 hflush
  obtain ⟨s2, hstep2, -⟩ := bootCard_created ⟨by decide, by decide, by decide, by decide⟩ rfl
    (by decide) (hkept.mpr hconfig1) (hsame.trans hcfg1)
  have hrun : Trace EepromStep bootEeprom [1, 2] s2.eeprom :=
    ((Trace.start.seen hstep1).silent (.flush 2 rfl hflush)).seen hstep2
  exact ⟨s2.eeprom, hrun, (log_numbers_increase (hasConfig_saved _ _) hrun).1⟩

end Barelog
