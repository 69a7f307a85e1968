import Barelog.Proofs.Buffer
import Barelog.Proofs.Create

/-! The extension of a log file by one cluster, and the append with or without it. -/

namespace Barelog

open Prog

variable {env : Env} {s0 s s' t : Machine} {v : Vol} {fat : ℕ → ℕ} {c : ℕ}

structure Extended (s0 : Machine) (c : ℕ) (s' : Machine) : Prop where
  ram : s'.ram = { s0.ram with logfile := { s0.ram.logfile with
    endLba := u32 (clusToLba s0.ram.vol c + s0.ram.vol.secPerClus)
    lastClus := c } }
  eeprom : s'.eeprom = s0.eeprom
  free : IsFirstFree s0.ram.vol (fatTable s0.ram.vol s0.card) c
  table : fatTable s0.ram.vol s'.card = Function.update
    (Function.update (fatTable s0.ram.vol s0.card) s0.ram.logfile.lastClus c) c eoc
  events : ∃ evs, s'.events = s0.events ++ evs ++
      clearEvents (clusToLba s0.ram.vol c) s0.ram.vol.secPerClus ∧
    ∀ e ∈ evs, ∃ x, IsDataClus s0.ram.vol x ∧ IsFatWrite s0.ram.vol x e
  outside : ∀ lba, ¬ InFat s0.ram.vol lba →
    (lba < clusToLba s0.ram.vol c ∨ clusToLba s0.ram.vol c + s0.ram.vol.secPerClus ≤ lba) →
    s'.card lba = s0.card lba
  zeros : ∀ lba, clusToLba s0.ram.vol c ≤ lba →
    lba < clusToLba s0.ram.vol c + s0.ram.vol.secPerClus → s'.card lba = fun _ => 0

theorem mem_freeClus (hv : Geometry v) {disk : ℕ → Sector} :
    c ∈ freeClus v disk ↔ IsDataClus v c ∧ fatEntry v disk c = 0 := by
  rw [freeClus, mem_freeBelow]
  constructor
  · rintro ⟨hlt, h2, hzero⟩
    have hc : IsDataClus v c := ⟨h2, by omega⟩
    exact ⟨hc, hc.fatTable hv ▸ hzero⟩
  · rintro ⟨hc, hzero⟩
    exact ⟨by have := hc.2; omega, hc.1, (hc.fatTable hv).trans hzero⟩

theorem linkNew_cases {r : Except Stop Unit} {last : ℕ} (hv : Geometry s0.ram.vol)
    (hs : Edited s0 fat s) (hlast : IsDataClus s0.ram.vol last) (hc : IsDataClus s0.ram.vol c)
    (hrun : Prog.run (fwStep env) (do fatWriteEntry last c; fatWriteEntry c 0x0FFFFFFF) s =
      (r, s')) :
    (r = .ok () ∧ Edited s0 (Function.update (Function.update fat last c) c eoc) s') ∨
      ∃ n fat', r = .error (.code n) ∧ Edited s0 fat' s' ∧
        (Grown s0.ram.vol fat fat') := by
  have hgrown : Grown s0.ram.vol fat fat := fun x => .inl rfl
  have hlink := hgrown.update hlast (.inl hc)
  rcases bind_ended hrun with ⟨_, s1, h1, h2⟩ | ⟨e, h1, rfl⟩
  · rcases hs.write hv hlast (hv.clus_lt hc) h1 with ⟨_, hs1⟩ | ⟨_, hbad, _⟩
    · rcases hs1.write hv hc (by decide) h2 with ⟨rfl, hs2⟩ | ⟨n, rfl, hs2 | hs2⟩
      · exact .inl ⟨rfl, hs2⟩
      · exact .inr ⟨n, _, rfl, hs2, hlink⟩
      · exact .inr ⟨n, _, rfl, hs2, hlink.update hc (.inr rfl)⟩
    · cases hbad
  · rcases hs.write hv hlast (hv.clus_lt hc) h1 with ⟨hbad, _⟩ | ⟨n, he, hs1 | hs1⟩
    · cases hbad
    · cases he
      exact .inr ⟨n, _, rfl, hs1, hgrown⟩
    · cases he
      exact .inr ⟨n, _, rfl, hs1, hlink⟩

theorem extendWith_eq (r : Ram) (c : ℕ) : extendWith r c = (do
    (do fatWriteEntry r.logfile.lastClus c; fatWriteEntry c 0x0FFFFFFF)
    clearSectors (clusToLba r.vol c) r.vol.secPerClus
    setLogfile fun l => { l with
      endLba := u32 (clusToLba r.vol c + r.vol.secPerClus), lastClus := c }) := by
  simp only [extendWith, clearSectors, bind_assoc]

theorem findFree_scratch {fuel n : ℕ} {r : Except Stop ℕ}
    (hrun : (findFree fuel n).run (fwStep env) s = (r, s')) : Scratch s s' := by
  induction fuel generalizing n s with
  | zero =>
    cases hrun
    exact .refl _
  | succ fuel ih =>
    rw [findFree] at hrun
    rcases bind_ended hrun with ⟨val, s1, hread, hrest⟩ | ⟨e, hread, rfl⟩
    · have hs := (fatReadEntry_cases hread).2
      split at hrest
      · cases hrest
        exact hs
      · exact hs.trans (ih hrest)
    · exact (fatReadEntry_cases hread).2

/-- What is behind the two entries of an extension: the zero-fill, and the new `end_lba` and
`last_clus`. -/
theorem clearNew_cases {r : Except Stop Unit} (hv : Geometry v) (hc : IsDataClus v c)
    (hrun : Prog.run (fwStep env) (do
      clearSectors (clusToLba v c) v.secPerClus
      setLogfile fun l => { l with
        endLba := u32 (clusToLba v c + v.secPerClus), lastClus := c }) s = (r, s')) :
    (r = .ok () ∧ ∃ t, Cleared s (clusToLba v c) v.secPerClus
        (u32 (clusToLba v c + v.secPerClus)) t ∧
      s' = t.withLogfile { t.ram.logfile with
        endLba := u32 (clusToLba v c + v.secPerClus), lastClus := c }) ∨
      ∃ n k, r = .error (.code n) ∧ Cleared s (clusToLba v c) v.secPerClus k s' := by
  have hspc := hv.secPerClus
  have hend := hv.clus_end hc
  have hwrap := hv.wrap
  rcases bind_ended hrun with ⟨_, t, hclear, hset⟩ | ⟨e, hclear, rfl⟩
  · rcases clearSectors_cases (clusToLba_lt _ _) hspc (by omega) hclear with
      ⟨_, ht⟩ | ⟨_, hbad, _⟩
    · rw [setLogfile_run] at hset
      obtain ⟨rfl, rfl⟩ := Prod.mk.inj hset
      exact .inl ⟨rfl, t, ht, rfl⟩
    · cases hbad
  · rcases clearSectors_cases (clusToLba_lt _ _) hspc (by omega) hclear with
      ⟨hbad, _⟩ | ⟨_, he, ⟨n, rfl⟩, k, _, ht⟩
    · cases hbad
    · cases he
      exact .inr ⟨n, k, rfl, ht⟩

/-- An extension with a free data cluster: the search finds the lowest one or fails, and then come
the two entries and the rest. -/
theorem extendLog_parts {fuel : ℕ} {r : Except Stop Unit} (hv : Geometry s0.ram.vol)
    (hfree : freeClus s0.ram.vol s0.card ≠ [])
    (hrun : (extendLog fuel).run (fwStep env) s0 = (r, s')) :
    (∃ e, r = .error e ∧ ((∃ n, e = .code n) ∨ e = .hang ∧ fuel ≤ clusCount s0.ram.vol) ∧
      Scratch s0 s') ∨
    ∃ c s1 r2 s2, IsFirstFree s0.ram.vol (fatTable s0.ram.vol s0.card) c ∧ Scratch s0 s1 ∧
      Prog.run (fwStep env) (do
        fatWriteEntry s0.ram.logfile.lastClus c
        fatWriteEntry c 0x0FFFFFFF) s1 = (r2, s2) ∧
      ((∃ e, r2 = .error e ∧ r = .error e ∧ s' = s2) ∨ r2 = .ok () ∧
        Prog.run (fwStep env) (do
          clearSectors (clusToLba s0.ram.vol c) s0.ram.vol.secPerClus
          setLogfile fun l => { l with
            endLba := u32 (clusToLba s0.ram.vol c + s0.ram.vol.secPerClus), lastClus := c }) s2 =
          (r, s')) := by
  obtain ⟨x, hx⟩ := List.exists_mem_of_ne_nil _ hfree
  obtain ⟨hxd, hxz⟩ := (mem_freeClus hv).mp hx
  have hexists : ∃ y, 2 ≤ y ∧ IsDataClus s0.ram.vol y ∧ fatTable s0.ram.vol s0.card y = 0 :=
    ⟨x, hxd.1, hxd, (hxd.fatTable hv).trans hxz⟩
  rw [extendLog_eq, getRam_bind] at hrun
  rcases bind_ended hrun with ⟨c, s1, hfind, hrest⟩ | ⟨e, hfind, rfl⟩
  · obtain ⟨_, ⟨_, hc, hfirst⟩ | ⟨_, hbad⟩ | ⟨hbad, _⟩⟩ :=
      findFree_cases hv (.refl s0) le_rfl (fun y h1 h2 => by omega) hexists hfind
    · cases hc
      rw [extendWith_eq] at hrest
      refine .inr ⟨c, s1, ?_⟩
      rcases bind_ended hrest with ⟨_, s2, hlink, hclear⟩ | ⟨e, hlink, rfl⟩
      · exact ⟨_, s2, hfirst, findFree_scratch hfind, hlink, .inr ⟨rfl, hclear⟩⟩
      · exact ⟨_, s', hfirst, findFree_scratch hfind, hlink, .inl ⟨e, rfl, rfl, rfl⟩⟩
    · cases hbad
    · cases hbad
  · refine .inl ⟨e, rfl, ?_, findFree_scratch hfind⟩
    obtain ⟨_, ⟨_, hbad, _⟩ | ⟨n, he⟩ | ⟨he, hfuel⟩⟩ :=
      findFree_cases hv (.refl s0) le_rfl (fun y h1 h2 => by omega) hexists hfind
    · cases hbad
    · cases he
      exact .inl ⟨n, rfl⟩
    · cases he
      exact .inr ⟨rfl, by omega⟩

/-- With a free data cluster the extension takes the lowest one, or stops with a FAT in which
only data clusters have been linked. -/
theorem extendLog_cases {fuel : ℕ} {r : Except Stop Unit} (hv : Geometry s0.ram.vol)
    (hlast : IsDataClus s0.ram.vol s0.ram.logfile.lastClus)
    (hfree : freeClus s0.ram.vol s0.card ≠ [])
    (hrun : (extendLog fuel).run (fwStep env) s0 = (r, s')) :
    (∃ c, r = .ok () ∧ Extended s0 c s') ∨
      ∃ e, r = .error e ∧ ((∃ n, e = .code n) ∨ e = .hang ∧ fuel ≤ clusCount s0.ram.vol) ∧
        s'.ram = s0.ram ∧
        Grown s0.ram.vol (fatTable s0.ram.vol s0.card) (fatTable s0.ram.vol s'.card) := by
  rcases extendLog_parts hv hfree hrun with ⟨e, rfl, he, hs⟩ | ⟨c, s1, r2, s2, hfirst, hs1, hlink, hrest⟩
  · exact .inr ⟨e, rfl, he, hs.ram, hs.card ▸ fun x => .inl rfl⟩
  have hedit : Edited s0 (fatTable s0.ram.vol s0.card) s1 := (Edited.refl s0).scratch hs1
  rcases linkNew_cases hv hedit hlast hfirst.1 hlink with ⟨rfl, hs2⟩ | ⟨n, fat, rfl, hs2, hgrown⟩
  swap
  · rcases hrest with ⟨_, he, rfl, rfl⟩ | ⟨hbad, _⟩
    · cases he
      exact .inr ⟨_, rfl, .inl ⟨n, rfl⟩, hs2.ram, hs2.table ▸ hgrown⟩
    · cases hbad
  obtain ⟨_, hbad, _⟩ | ⟨_, hclear⟩ := hrest
  · cases hbad
  have hlba := hv.dataLba_le hfirst.1
  have hgrown : Grown s0.ram.vol (fatTable s0.ram.vol s0.card) (fatTable s0.ram.vol s2.card) := by
    rw [hs2.table]
    have hsame : Grown s0.ram.vol (fatTable s0.ram.vol s0.card) (fatTable s0.ram.vol s0.card) :=
      fun x => .inl rfl
    exact (hsame.update hlast (.inl hfirst.1)).update hfirst.1 (.inr rfl)
  rcases clearNew_cases hv hfirst.1 hclear with ⟨rfl, s3, hs3, hset⟩ | ⟨n, k, rfl, hs3⟩
  swap
  · exact .inr ⟨_, rfl, .inl ⟨n, rfl⟩, hs3.ram.trans hs2.ram, (hs3.table hv hlba).symm ▸ hgrown⟩
  have hram : s3.ram = s0.ram := hs3.ram.trans hs2.ram
  have hcard : s'.card = s3.card := by rw [hset, Machine.withLogfile]
  have heeprom : s'.eeprom = s3.eeprom := by rw [hset, Machine.withLogfile]
  have hevents : s'.events = s3.events := by rw [hset, Machine.withLogfile]
  refine .inl ⟨c, rfl, ?_, heeprom.trans (hs3.eeprom.trans hs2.eeprom), hfirst, ?_, ?_,
    fun lba hlba hout => ?_, fun lba hlo hhi => ?_⟩
  · rw [hset, Machine.withLogfile, hram]
  · rw [hcard]
    exact (hs3.table hv hlba).trans hs2.table
  · obtain ⟨card, evs, hreach, hevs, _⟩ := hs2.reach
    have hevs2 : s2.events = s0.events ++ evs := hreach.events
    refine ⟨evs, ?_, hevs⟩
    rw [hevents, ← hevs2]
    exact hs3.events
  · rw [hcard]
    exact (hs3.outside hout).trans (hs2.rest hlba)
  · obtain ⟨card, hreach, _, hzeros⟩ := hs3
    have hend := hv.clus_end hfirst.1
    have hwrap := hv.wrap
    have hnowrap : u32 (clusToLba s0.ram.vol c + s0.ram.vol.secPerClus) =
        clusToLba s0.ram.vol c + s0.ram.vol.secPerClus := Nat.mod_eq_of_lt (by omega)
    have hcard3 : s3.card = card := hreach.card
    rw [hcard, hcard3]
    exact hzeros lba hlo (by omega)

/-! The append. -/

section Append

variable {fuel spanA lenA : ℕ} {spanB : Option ℕ} {lenB : ℕ} {r : Except Stop Unit}

def Logfile.advance (l : Logfile) (n : ℕ) : Logfile :=
  { l with curLba := u32 (l.curLba + 1), bytesWritten := u32 (l.bytesWritten + n) }

def Machine.logged (s : Machine) (lba : ℕ) (d : Sector) : Machine :=
  s.onCard (Function.update s.card lba d) [.write lba d]

/-- An append first makes room; then the spans are sent to the sector at the cursor. -/
theorem append_cases
    (hrun : (fat32AppendSector fuel spanA lenA spanB lenB).run (fwStep env) s = (r, s')) :
    (∃ t, (makeRoom fuel s.ram.logfile).run (fwStep env) s = (.ok (), t) ∧
      ((r = .ok () ∧ Scratch ((t.logged s.ram.logfile.curLba
          (spanSector t.ring spanA lenA spanB lenB)).withLogfile
            (t.ram.logfile.advance (lenA + lenB))) s') ∨
        ∃ n, r = .error (.code n) ∧ (Scratch t s' ∨ Scratch (t.logged s.ram.logfile.curLba
          (spanSector t.ring spanA lenA spanB lenB)) s'))) ∨
    ∃ e, r = .error e ∧ (makeRoom fuel s.ram.logfile).run (fwStep env) s = (.error e, s') := by
  rw [append_eq, getRam_bind] at hrun
  rcases bind_ended hrun with ⟨_, t, hroom, hrest⟩ | ⟨e, hroom, rfl⟩
  swap
  · exact .inr ⟨e, rfl, hroom⟩
  refine .inl ⟨t, hroom, ?_⟩
  rcases bind_ended hrest with ⟨_, t1, hsend, hset⟩ | ⟨e, hsend, rfl⟩
  · rw [sdWriteSectorZc_run] at hsend
    cases send_cases hsend with
    | ok n =>
      rw [setLogfile_run] at hset
      cases hset
      exact .inl ⟨rfl, (scratch_wrote t _ _ _ n).withLogfile _⟩
  · rw [sdWriteSectorZc_run] at hsend
    cases send_cases hsend with
    | landed a n => exact .inr ⟨a, rfl, .inr (scratch_wrote t _ _ _ n)⟩
    | lost a n => exact .inr ⟨a, rfl, .inl (scratch_unwritten _ _)⟩

theorem makeRoom_cases (hrun : (makeRoom fuel s.ram.logfile).run (fwStep env) s = (r, s')) :
    (s.ram.logfile.curLba < s.ram.logfile.endLba ∧ r = .ok () ∧ s' = s) ∨
      (s.ram.logfile.endLba ≤ s.ram.logfile.curLba ∧
        (extendLog fuel).run (fwStep env) s = (r, s')) := by
  rw [makeRoom, doIf] at hrun
  split at hrun
  · exact .inr ⟨‹_›, hrun⟩
  · cases hrun
    exact .inl ⟨by omega, rfl, rfl⟩

end Append

end Barelog
