import Barelog.Proofs.CommandLog
import Barelog.Proofs.SoundDir

/-! The life of a card: power cycle after power cycle the firmware boots on it, creates log files,
writes to them, runs the commands that are typed and trims the free clusters, and the power may go at
any point of this. Files that were on the card are read as before, and so is what a flush has
committed, and the root directory stays sound. Sessions are those that write to the file they have
created. -/

namespace Barelog

open Prog Labelled Relation

variable {env env' : Env} {s s' s0 t t1 t2 : Machine} {v : Vol} {l : List ℕ}
  {card card' disk : ℕ → Sector} {p : Slot} {fuel : ℕ} {eeprom : ℕ → Byte} {rxLow : Bool}
  {cs ds : List (CommitLog.Call Sector)} {lg : CommitLog.Log Sector}

def mountedAs (card : ℕ → Sector) (eeprom : ℕ → Byte) (rxLow : Bool) : Machine :=
  ((Machine.powerUp card eeprom).configured rxLow).withVol (volOf card)

/-- The boot creates a log file with consecutive clusters: `s` is the machine before
`fat32_open_log` and `s0` after it. -/
structure StartsLog (env : Env) (fuel : ℕ) (card : ℕ → Sector) (eeprom : ℕ → Byte) (rxLow : Bool)
    (s s0 : Machine) : Prop where
  mounts : fat32Mount.run (fwStep env) ((Machine.powerUp card eeprom).configured rxLow) = (.ok (), s)
  needs : NeedsClus s
  ahead : FreeAhead s
  opened : (fat32OpenLog fuel).run (fwStep env) s = (.ok (), s0)

/-- What may be done to a card until the power goes: a boot, logging to a new file and then command
mode, or a trim. -/
inductive CardStep (card : ℕ → Sector) : (ℕ → Sector) → Prop
  | boot {card' : ℕ → Sector} {eeprom : ℕ → Byte} {rxLow : Bool} (env : Env) (fuel : ℕ)
      (hahead : NeedsClus (mountedAs card eeprom rxLow) → FreeAhead (mountedAs card eeprom rxLow))
      (hcrash : CrashCard env (boot fuel rxLow) (.powerUp card eeprom) card') : CardStep card card'
  | session {card' : ℕ → Sector} {env : Env} {fuel : ℕ} {eeprom : ℕ → Byte} {rxLow : Bool}
      {s s0 t : Machine} {cs : List (CommitLog.Call Sector)}
      (hnew : StartsLog env fuel card eeprom rxLow s s0) (hrun : Trace LogStep s0 cs t)
      (hcrash : SessionCrash t card') : CardStep card card'
  | trim {card' : ℕ → Sector} {s : Machine} (env : Env) (hcard : s.card = card)
      (hvol : s.ram.vol = volOf card) (hw : NoWrap s.ram.vol)
      (hcrash : CrashCard env fat32TrimFree s card') : CardStep card card'

/-- A card with a good volume, and the clusters of its root directory. -/
structure GoodCard (l : List ℕ) (card : ℕ → Sector) : Prop where
  geometry : Geometry (volOf card)
  boot : (volOf card).partLba < (volOf card).fatLba
  root : RootOk (volOf card) card
  chain : RootChain (volOf card) card l

/-! One power cycle. -/

theorem GoodCard.kept (h : GoodCard l disk) (hk : KeepsFiles (volOf disk) l disk card) :
    volOf card = volOf disk ∧ GoodCard l card := by
  have hvol := volOf_congr hk.boot h.boot
  have hl := h.chain.kept h.root hk
  refine ⟨hvol, ?_, ?_, ?_, ?_⟩
  · exact hvol ▸ h.geometry
  · exact hvol ▸ h.boot
  · exact hvol ▸ h.root.kept h.chain hl
  · exact hvol ▸ hl

theorem mount_vol (hrun : fat32Mount.run (fwStep env) ((Machine.powerUp card eeprom).configured rxLow) =
    (.ok (), s)) : Scratch (mountedAs card eeprom rxLow) s := by
  have hcard : ((Machine.powerUp card eeprom).configured rxLow).card = card := configured_card _ _
  rcases fat32Mount_cases hrun with ⟨-, -, hend⟩ | ⟨⟨_, hbad⟩, -⟩
  · rwa [hcard] at hend
  · cases hbad

theorem mountedAs_card (card : ℕ → Sector) (eeprom : ℕ → Byte) (rxLow : Bool) :
    (mountedAs card eeprom rxLow).card = card :=
  configured_card _ _

theorem StartsLog.new (hgood : GoodCard l card) (h : StartsLog env fuel card eeprom rxLow s s0) :
    NewLog env fuel s s0 l ∧ s.ram.vol = volOf card ∧ s.card = card := by
  have hend := mount_vol h.mounts
  have hvol : s.ram.vol = volOf card := congrArg Ram.vol hend.ram
  have hcard : s.card = card := hend.card.trans (mountedAs_card card eeprom rxLow)
  refine ⟨⟨?_, ?_, ?_, h.ahead, h.needs, h.opened⟩, hvol, hcard⟩
  · exact hvol ▸ hgood.geometry
  · exact hvol ▸ hcard ▸ hgood.root
  · exact hvol ▸ hcard ▸ hgood.chain

theorem boot_addsFile {r : Except Stop Unit} (hgood : GoodCard l card)
    (hahead : NeedsClus (mountedAs card eeprom rxLow) → FreeAhead (mountedAs card eeprom rxLow))
    (hrun : (boot fuel rxLow).run (fwStep env) (.powerUp card eeprom) = (r, s')) :
    AddsFile (volOf card) l card s'.card := by
  have hcard : ((Machine.powerUp card eeprom).configured rxLow).card = card := configured_card _ _
  rw [boot_run] at hrun
  rcases bind_ended hrun with ⟨_, s, hmount, hopen⟩ | ⟨e, hmount, -⟩
  · have hend := mount_vol hmount
    have hvol : s.ram.vol = volOf card := congrArg Ram.vol hend.ram
    have hcard : s.card = card := hend.card.trans (mountedAs_card card eeprom rxLow)
    have hahead' : NeedsClus s → FreeAhead s := by
      obtain ⟨_, _, _, _, rfl⟩ := hend
      exact hahead
    have hadds := openLog_addsFile (l := l) (hvol ▸ hgood.geometry) (hvol ▸ hcard ▸ hgood.root)
      (hvol ▸ hcard ▸ hgood.chain) hahead' hopen
    rwa [hvol, hcard] at hadds
  · rcases fat32Mount_cases hmount with ⟨hbad, -⟩ | ⟨-, hend, -⟩
    · cases hbad
    · rw [hend.card, hcard]
      exact .refl _ _ _

theorem CardStep.addsFile (hgood : GoodCard l card) (h : CardStep card card') :
    AddsFile (volOf card) l card card' := by
  cases h with
  | boot env fuel hahead hcrash =>
    obtain ⟨env', r, s', hrun, rfl⟩ := hcrash.run
    exact boot_addsFile hgood hahead hrun
  | session hnew hrun hcrash =>
    obtain ⟨hlog, hvol, hcard⟩ := hnew.new hgood
    obtain ⟨ds, t', hds, rfl⟩ := hcrash.trace hlog (by rw [hcard, hvol]) (hvol ▸ hgood.boot) hrun
    have hadds := session_addsFile hlog (hrun.append hds)
    rwa [hvol, hcard] at hadds
  | trim env hcard hvol hw hcrash =>
    obtain ⟨env', r, s', hrun, rfl⟩ := hcrash.run
    have hadds := trim_addsFile (l := l) (hvol ▸ hgood.geometry) (hvol ▸ hcard ▸ hgood.root)
      (hvol ▸ hcard ▸ hgood.chain) hw hrun
    rwa [hvol, hcard] at hadds

/-! All power cycles. -/

theorem life_keeps (hgood : GoodCard l disk) (hlife : ReflTransGen CardStep disk card) :
    KeepsFiles (volOf disk) l disk card := by
  induction hlife with
  | refl => exact .refl _ _ _
  | tail _ hstep ih =>
    obtain ⟨hvol, hgood'⟩ := hgood.kept ih
    have hadds := hstep.addsFile hgood'
    rw [hvol] at hadds
    exact ih.trans hadds.keeps

/-- A file that was on the card is read as before, after any number of power cycles. -/
theorem files_outlive (hgood : GoodCard l disk) (hfile : OtherFile (volOf disk) l disk p)
    (hlife : ReflTransGen CardStep disk card) :
    readFile (volOf card) card p = readFile (volOf disk) disk p := by
  have hkeeps := life_keeps hgood hlife
  rw [(hgood.kept hkeeps).1]
  exact hkeeps.readFile hfile

/-- No cluster comes to be in two files, and no file comes to have a free cluster, after any number
of power cycles. -/
theorem dir_stays_sound (hgood : GoodCard l disk) (hsound : SoundDir (volOf disk) l disk)
    (hlife : ReflTransGen CardStep disk card) : SoundDir (volOf card) l card := by
  induction hlife with
  | refl => exact hsound
  | tail hlife hstep ih =>
    obtain ⟨-, hgood'⟩ := hgood.kept (life_keeps hgood hlife)
    have hadds := hstep.addsFile hgood'
    rw [(hgood'.kept hadds.keeps).1]
    exact ih.adds hgood'.chain hadds

/-! A card with a file. -/

def fileDir : Sector := fun i =>
  [(0, 0x41), (11, 0x20), (26, 0x03), (28, 0x05)].foldl
    (fun b (p : ℕ × Byte) => if i = p.1 then p.2 else b) 0

def fileCard : ℕ → Sector :=
  Function.update (Function.update (Function.update (blankCard (usedFat 4)) 0 partTable) 1 bootRecord)
    11 fileDir

theorem fileCard_vol : volOf fileCard = smallVol := by
  have hsame : ∀ lba, lba < smallVol.fatLba → fileCard lba = bootCard lba := by
    intro lba hlba
    have h10 : lba < 10 := hlba
    simp only [fileCard, bootCard, blankCard, Function.update_apply]
    split_ifs <;> first | rfl | omega
  rw [← bootCard_vol] at hsame
  rw [volOf_congr hsame (by rw [bootCard_vol]; decide), bootCard_vol]

theorem goodCard_single {c : ℕ} (hvol : volOf card = v) (hv : Geometry v)
    (hboot : v.partLba < v.fatLba) (hroot : v.rootClus = c) (hc : IsDataClus v c) (hlink : IsLink c)
    (hend : 0x0FFFFFF8 ≤ fatEntry v card c) : GoodCard [c] card := by
  subst hroot
  refine ⟨?_, ?_, ?_, ?_⟩ <;> rw [hvol]
  · exact hv
  · exact hboot
  · exact rootOk_single hc fun h => absurd h.2 (not_lt.mpr hend)
  · exact ⟨rfl, fun c hc => List.mem_singleton.mp hc ▸ hlink, Links.linked_singleton _ _, hend⟩

theorem fileCard_fat : 0x0FFFFFF8 ≤ fatEntry smallVol fileCard 2 ∧
    0x0FFFFFF8 ≤ fatEntry smallVol fileCard 3 ∧ freeClus smallVol fileCard = List.range' 4 18 := by
  decide +kernel

theorem fileCard_slots : IsEntry fileCard (11, 0) ∧ firstClusOf fileCard (11, 0) = 3 ∧
    ∀ p ∈ slotsOf smallVol [2], IsEntry fileCard p → p = (11, 0) := by
  unfold IsEntry IsFree
  decide +kernel

theorem fileCard_good : GoodCard [2] fileCard :=
  goodCard_single fileCard_vol smallVol_geometry (by decide) rfl (by decide) (by decide) fileCard_fat.1

theorem fileCard_clus : HasClus smallVol fileCard (11, 0) [3] := by
  rw [HasClus, fileCard_slots.2.1]
  exact (Links.linked_singleton _ 3).follow (by decide)
    fun h => absurd h.2 (not_lt.mpr fileCard_fat.2.1)

theorem fileCard_file : OtherFile smallVol [2] fileCard (11, 0) := by
  refine ⟨?_, fileCard_slots.1.1, fun n c hc => ?_⟩
  · exact List.mem_flatMap.mpr ⟨2, List.mem_singleton_self 2,
      List.mem_flatMap.mpr ⟨0, by decide, by decide⟩⟩
  · rw [fileCard_clus n] at hc
    obtain rfl := List.mem_singleton.mp (List.mem_of_mem_take hc)
    have hused := fileCard_fat.2.1
    exact ⟨by decide, by omega, by decide⟩

theorem fileCard_sound : SoundDir smallVol [2] fileCard := by
  have honly := fileCard_slots.2.2
  refine ⟨⟨?_, ?_⟩, ?_⟩
  · rintro p c ⟨hp, hentry⟩ ⟨n, hc⟩
    obtain rfl := honly p hp hentry
    exact fileCard_file.clus n c hc
  · rintro p q c ⟨hp, hentry⟩ ⟨hq, hentry'⟩ - -
    rw [honly p hp hentry, honly q hq hentry']
  · intro p hp hentry
    obtain rfl := honly p hp hentry
    exact ⟨[3], fileCard_clus⟩

def bootedCard (card : ℕ → Sector) : ℕ → Sector :=
  ((boot 64 false).run (fwStep Env.ideal) (.powerUp card bootEeprom)).2.card

theorem bootedCard_step (hahead : FreeAhead (mountedAs card bootEeprom false)) :
    CardStep card (bootedCard card) := by
  obtain ⟨q, hq⟩ := steps_end (h := fwStep Env.ideal) (fun _ _ _ => False) (boot 64 false)
    (Machine.powerUp card bootEeprom)
  exact .boot Env.ideal 64 (fun _ => hahead) ⟨q, _, hq, rfl⟩

theorem freeAhead_mounted {a m : ℕ} (hvol : volOf card = v) (hv : Geometry v)
    (hfree : freeClus v card = List.range' a m)
    (hroom : clusNeeded v (preallocSectors (mountedAs card eeprom rxLow)) ≤ m) :
    FreeAhead (mountedAs card eeprom rxLow) := by
  have hvol' : (mountedAs card eeprom rxLow).ram.vol = v := hvol
  unfold FreeAhead
  rw [clusWanted, firstFree, mountedAs_card, hvol']
  intro j hj
  have hlt : j < m := by omega
  obtain ⟨m, rfl⟩ := Nat.exists_eq_succ_of_ne_zero (Nat.ne_zero_of_lt hlt)
  have hfirst : (freeClus v card).headD 0 = a := by rw [hfree]; rfl
  refine (mem_freeClus hv).mp ?_
  rw [hfirst, hfree, List.mem_range'_1]
  omega

/-- Without a factory reset the configuration is that of the EEPROM. -/
theorem configured_kept (hconfig : HasConfig eeprom)
    (hreset : rxLow = true → (storedConfig eeprom).flags &&& cfgFlIgnoreRxRst ≠ 0) :
    (mountedAs card eeprom rxLow).ram.cfg = storedConfig eeprom := by
  have hload : (Machine.powerUp card eeprom).loadConfig.ram.cfg = storedConfig eeprom := by
    rw [Machine.loadConfig, if_pos (show le32 (Machine.powerUp card eeprom).eeprom eepromOffMagic =
      eepromMagic from hconfig)]
    rfl
  rw [mountedAs, Machine.withVol, Machine.configured]
  dsimp only
  rw [hload, if_neg fun h => hreset h.1 h.2]
  exact hload

theorem bootEeprom_cfg : (mountedAs card bootEeprom false).ram.cfg =
    { configDefaults with preallocCode := 0 } := by
  have hconfig : HasConfig bootEeprom := by
    unfold bootEeprom
    exact hasConfig_saved _ _
  have hstored : storedConfig bootEeprom = { configDefaults with preallocCode := 0 } := by
    unfold bootEeprom
    exact storedConfig_saved ⟨by decide, by decide, by decide, by decide⟩ _
  exact (configured_kept hconfig (fun h => by cases h)).trans hstored

theorem bootEeprom_sectors : preallocSectors (mountedAs card bootEeprom false) = 2048 := by
  rw [preallocSectors, preallocSize, bootEeprom_cfg]
  rfl

theorem fileCard_boots : CardStep fileCard (bootedCard fileCard) := by
  refine bootedCard_step (freeAhead_mounted fileCard_vol smallVol_geometry fileCard_fat.2.2 ?_)
  rw [bootEeprom_sectors]
  decide

/-- The file is read as before when the card has been booted. -/
theorem files_outlive_boot : readFile (volOf (bootedCard fileCard)) (bootedCard fileCard) (11, 0) =
    readFile smallVol fileCard (11, 0) := by
  have hfile : OtherFile (volOf fileCard) [2] fileCard (11, 0) := fileCard_vol.symm ▸ fileCard_file
  rw [files_outlive fileCard_good hfile (.single fileCard_boots), fileCard_vol]

/-- The boot adds the log file to it. -/
theorem dir_stays_sound_boot : SoundDir (volOf (bootedCard fileCard)) [2] (bootedCard fileCard) := by
  have hsound : SoundDir (volOf fileCard) [2] fileCard := fileCard_vol.symm ▸ fileCard_sound
  exact dir_stays_sound fileCard_good hsound (.single fileCard_boots)

/-! The log file of a session. -/

/-- The log file is a file for the sessions that come. -/
theorem LogFile.otherFile (h : NewLog env fuel s s0 l) (hfile : LogFile s0 lg t) :
    OtherFile s.ram.vol l t.card (logSlot s0) := by
  have hplaced := h.placed
  have hlive : slotByte t.card (logSlot s0) 0 = slotByte s0.card (logSlot s0) 0 :=
    hfile.dir _ (.inl (Nat.add_lt_add_left (by decide) _))
  refine (hfile.addsFile h).otherFile h.chain hplaced.mem h.slot_free ?_
  rw [IsFree, hlive]
  exact hplaced.live

/-- What a flush that returned 0 has committed is read at the front of the file after any further
calls and commands, a power loss, and any number of power cycles. -/
theorem committed_outlives (hgood : GoodCard l disk)
    (hnew : StartsLog env fuel disk eeprom rxLow s s0) (hrun : Trace LogStep s0 cs t)
    (hflush : fat32Flush.run (fwStep env') t = (.ok (), t1)) (hrun' : Trace LogStep t1 ds t2)
    (hcrash : SessionCrash t2 card) (hlife : ReflTransGen CardStep card card') :
    (CommitLog.appended cs).flatMap List.ofFn <+: readFile (volOf card') card' (logSlot s0) := by
  obtain ⟨hlog, hvol, hcard⟩ := hnew.new hgood
  have hcommit : LogStep t (some (.commit true)) t1 := .flush env' hflush (by simp)
  obtain ⟨ds', t3, hds, rfl⟩ := hcrash.trace hlog (by rw [hcard, hvol]) (hvol ▸ hgood.boot)
    ((hrun.seen hcommit).append hrun')
  obtain ⟨lg, hfile, hpre⟩ := hlog.committed hrun hflush (hrun'.append hds)
  have hother := hfile.otherFile hlog
  have hkeeps := hfile.keeps hlog
  rw [hvol, hcard] at hkeeps
  rw [hvol] at hpre hother
  obtain ⟨hvol', hgood'⟩ := hgood.kept hkeeps
  rw [← hvol'] at hpre hother
  have hlater := life_keeps hgood' hlife
  rw [(hgood'.kept hlater).1, hlater.readFile hother]
  exact hpre

/-! A session on a card that has just been formatted, and another boot of the card. -/

/-- A card with an empty root directory of one cluster, and the clusters behind it free. -/
structure Formatted (v : Vol) (n : ℕ) (card : ℕ → Sector) : Prop where
  vol : volOf card = v
  mountable : Mountable card
  good : GoodCard [2] card
  free : freeClus v card = List.range' 3 n
  empty : liveSlots card (slotsOf v [2]) = []
  slot : ∃ p ∈ slotsOf v [2], IsFree card p

/-- In a directory without a live entry the first name is free. -/
theorem findsName_first (hv : Geometry s.ram.vol) (hroot : RootOk s.ram.vol s.card)
    (hl : RootChain s.ram.vol s.card l) (hlive : liveSlots s.card (slotsOf s.ram.vol l) = [])
    (hp : p ∈ slotsOf s.ram.vol l) (hfree : IsFree s.card p) (hlt : s.ram.cfg.logNum < 65535) :
    ∃ sc, FindsName s s.ram.cfg.logNum sc ∧ sc.emptyLba ≠ 0 := by
  obtain ⟨b, sc, s', -, -, hto⟩ := scanRootDir_returns (fun _ => rfl : Env.ideal.Good) hl
    (Nat.lt_succ_self _) (makeLogname s.ram.cfg.logNum)
  have hflat := hto.flat hl (hl.ne_zero hv hroot)
  have hb : b = false := by
    by_contra hb
    obtain ⟨q, hq, -⟩ := hflat.found_iff.mp (Bool.eq_true_of_not_eq_false hb)
    rw [hlive] at hq
    cases hq
  subst hb
  refine ⟨sc, ⟨hlt, le_rfl, fun k hk hk' => by omega, hto⟩, fun hlba => ?_⟩
  exact (hflat.none_iff rfl).mp hlba p hp hfree

theorem Formatted.starts {n : ℕ} (h : Formatted v n card) (hlen : 1 < fuel) (hfuel : clusCount v < fuel)
    (hlt : (mountedAs card eeprom rxLow).ram.cfg.logNum < 65535)
    (hroom : clusNeeded v (preallocSectors (mountedAs card eeprom rxLow)) ≤ n) :
    ∃ s s0, StartsLog Env.ideal fuel card eeprom rxLow s s0 := by
  have hgood : Env.ideal.Good := fun _ => rfl
  have hcard0 : ((Machine.powerUp card eeprom).configured rxLow).card = card := configured_card _ _
  obtain ⟨s, hmount, -⟩ := fat32Mount_good hgood (hcard0.symm ▸ h.mountable)
  have hend := mount_vol hmount
  have hvol : s.ram.vol = volOf card := congrArg Ram.vol hend.ram
  have hcard : s.card = card := hend.card.trans (mountedAs_card card eeprom rxLow)
  have hcfg : s.ram.cfg = (mountedAs card eeprom rxLow).ram.cfg := congrArg Ram.cfg hend.ram
  have hgeo : Geometry v := h.vol ▸ h.good.geometry
  have hahead : FreeAhead s := by
    have hahead' := freeAhead_mounted h.vol hgeo h.free hroom
    obtain ⟨_, _, _, _, rfl⟩ := hend
    exact hahead'
  have hv : Geometry s.ram.vol := hvol ▸ h.good.geometry
  have hroot : RootOk s.ram.vol s.card := hvol ▸ hcard ▸ h.good.root
  have hl : RootChain s.ram.vol s.card [2] := hvol ▸ hcard ▸ h.good.chain
  obtain ⟨p, hp, hfree⟩ := h.slot
  obtain ⟨sc, hfinds, hempty⟩ := findsName_first hv hroot hl (by rw [hvol, h.vol, hcard]; exact h.empty)
    (by rw [hvol, h.vol]; exact hp) (by rw [hcard]; exact hfree) (by rw [hcfg]; exact hlt)
  have hneeds : NeedsClus s :=
    ⟨_, sc, .inl ⟨_, hfinds.lt, hfinds.le, hfinds.skips, rfl, hfinds.scan⟩, hempty⟩
  have hfuel' : clusCount s.ram.vol < fuel := by rwa [hvol, h.vol]
  obtain ⟨s0, hopen⟩ := openLog_returns hgood hv hroot hl hlen (hahead.room hv) hfuel' hneeds
  exact ⟨s, s0, hmount, hneeds, hahead, hopen⟩

/-- The session leaves the clusters behind those of its file free. -/
theorem LogFile.freeClus (h : NewLog env fuel s s0 l) (hfile : LogFile s0 lg t) :
    Barelog.freeClus s.ram.vol t.card = (Barelog.freeClus s.ram.vol s.card).filter
      (· ∉ List.range' (firstFree s) (clusWanted s)) := by
  refine (h.placed.chained hfile).freeBelow (fun h0 => ?_) _
  obtain ⟨j, hj, hzero⟩ := List.mem_range'.mp h0
  have h2 := (h.data hj).1
  omega

/-- A volume with room for two files of 1 MB. -/
def wideVol : Vol := { smallVol with totSec := 5130 }

def wideCard : ℕ → Sector := Function.update bootCard 1 (Function.update bootRecord 33 0x14)

theorem wideVol_geometry : Geometry wideVol := by decide

theorem wideCard_formatted : Formatted wideVol 39 wideCard := by
  have h : ((volOf wideCard).fatLba = 10 ∧ (volOf wideCard).fatSz32 = 1 ∧
      (volOf wideCard).dataLba = 11 ∧ (volOf wideCard).rootClus = 2 ∧ (volOf wideCard).partLba = 1 ∧
      (volOf wideCard).totSec = 5130 ∧ (volOf wideCard).secPerClus = 128 ∧
      (volOf wideCard).numFats = 1) ∧ (partLbaOf wideCard ≠ 0 ∧
      le16 (wideCard (partLbaOf wideCard)).byte 11 = 512 ∧
      le16 (wideCard (partLbaOf wideCard)).byte 22 = 0 ∧
      le32 (wideCard (partLbaOf wideCard)).byte 36 ≠ 0) ∧
      0x0FFFFFF8 ≤ fatEntry wideVol wideCard 2 ∧ freeClus wideVol wideCard = List.range' 3 39 ∧
      liveSlots wideCard (slotsOf wideVol [2]) = [] ∧ IsFree wideCard (11, 0) := by
    decide +kernel
  obtain ⟨hfields, ⟨hpart, hbytes, hsz16, hsz32⟩, hend, hfree, hempty, hslot⟩ := h
  have hvol : volOf wideCard = wideVol := by
    generalize volOf wideCard = v at hfields
    obtain ⟨_, _, _, _, _, _, _, _⟩ := v
    obtain ⟨rfl, rfl, rfl, rfl, rfl, rfl, rfl, rfl⟩ := hfields
    rfl
  refine ⟨hvol, ⟨hpart, hbytes, hsz16, hsz32⟩, ?_, hfree, hempty, (11, 0), ?_, hslot⟩
  · exact goodCard_single hvol wideVol_geometry (by decide) rfl (by decide) (by decide) hend
  · exact List.mem_flatMap.mpr ⟨2, List.mem_singleton_self 2,
      List.mem_flatMap.mpr ⟨0, by decide, by decide⟩⟩

/-- A session with a sector committed and another one appended, and the next boot. -/
theorem committed_outlives_boot : ∃ (s s0 : Machine) (d : Sector) (card : ℕ → Sector),
    StartsLog Env.ideal 64 wideCard bootEeprom false s s0 ∧ CardStep card (bootedCard card) ∧
      [d].flatMap List.ofFn <+: readFile (volOf (bootedCard card)) (bootedCard card) (logSlot s0) := by
  obtain ⟨hwide, -, hgood, hfree, -⟩ := wideCard_formatted
  obtain ⟨s, s0, hnew⟩ := wideCard_formatted.starts (by decide : 1 < 64) (by decide)
    (by rw [bootEeprom_cfg]; decide) (by rw [bootEeprom_sectors]; decide)
  obtain ⟨hlog, hvol, hcard⟩ := hnew.new hgood
  rw [hwide] at hvol
  have hsec : preallocSectors s = 2048 := by
    have hram := (mount_vol hnew.mounts).ram
    rw [preallocSectors, preallocSize, hram, bootEeprom_cfg]
    rfl
  have hwant : clusWanted s = 16 := by
    rw [clusWanted, hsec, hvol]
    rfl
  have hfirst : firstFree s = 3 := by
    rw [firstFree, hvol, hcard, hfree]
    rfl
  obtain ⟨u, t, t2, hrun, hflush, hrun'⟩ := hlog.session (fun _ => rfl : Env.ideal.Good)
    (by rw [hsec]; decide) highCall rfl
  have hcommit : LogStep u (some (.commit true)) t := .flush Env.ideal hflush (by simp)
  have hall := (hrun.seen hcommit).append hrun'
  obtain ⟨lg, -, hfile⟩ := hlog.placed.empty.start.run hlog.placed.empty hall
  have hmounted := hlog.mounted (by rw [hcard, hvol, hwide]) (by rw [hvol]; decide) hall
  have hrest := hfile.freeClus hlog
  rw [hvol, hcard, hfirst, hwant, hfree,
    show (List.range' 3 39).filter (· ∉ List.range' 3 16) = List.range' 19 23 by decide] at hrest
  have hlater : CardStep t2.card (bootedCard t2.card) := by
    refine bootedCard_step (freeAhead_mounted (hmounted.1.trans (hmounted.2.trans hvol))
      wideVol_geometry hrest ?_)
    rw [bootEeprom_sectors]
    decide
  have hcrash : SessionCrash t2 t2.card := .call (.flush Env.ideal ⟨_, t2, .start, rfl⟩)
  have hrecords : CommitLog.appended [.append (highCall.block s0) true] = [highCall.block s0] := rfl
  have houtlives := committed_outlives hgood hnew hrun hflush hrun' hcrash (.single hlater)
  rw [hrecords] at houtlives
  exact ⟨s, s0, highCall.block s0, t2.card, hnew, hlater, houtlives⟩

end Barelog
