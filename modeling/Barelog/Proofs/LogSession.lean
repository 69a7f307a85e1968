import Barelog.Lib.CommitLog
import Barelog.Proofs.ReadFile
import Barelog.Proofs.Reopen
import Barelog.Proofs.TrimFrame

/-! A log file in use is a log that grows. `fat32_append_sector` appends a sector to it,
`fat32_flush` commits what has been appended, by the size in the directory entry, and what a program
that reads the card finds is the sectors of the last commit. `fat32_trim_free` may run between the
calls: the log file does not see it. Any request may fail in any call; the calls are those before the
end of the pre-allocation. -/

namespace Barelog

open Prog Labelled

variable {env : Env} {s s' s0 t : Machine} {l l' : CommitLog.Log Sector} {r : Except Stop Unit}

/-- What is done between two calls leaves the card, the volume and the log file as they are. -/
def Apart (s s' : Machine) : Prop :=
  s'.ram.vol = s.ram.vol ∧ s'.ram.logfile = s.ram.logfile ∧ s'.card = s.card

/-- One call, or something between two calls. -/
inductive LogStep : Machine → Option (CommitLog.Call Sector) → Machine → Prop
  | append {s s' : Machine} {r : Except Stop Unit} {ack : Bool} (env : Env) (c : AppendCall)
      (hlen : c.lenA + c.lenB = 512) (hroom : s.ram.logfile.curLba < s.ram.logfile.endLba)
      (hcall : c.code.run (fwStep env) s = (r, s')) (hack : ack = true ↔ r = .ok ()) :
      LogStep s (some (.append (c.block s) ack)) s'
  | flush {s s' : Machine} {r : Except Stop Unit} {ack : Bool} (env : Env)
      (hcall : fat32Flush.run (fwStep env) s = (r, s')) (hack : ack = true ↔ r = .ok ()) :
      LogStep s (some (.commit ack)) s'
  | trim {s s' : Machine} {r : Except Stop Unit} (env : Env) (hw : NoWrap s.ram.vol)
      (hcall : fat32TrimFree.run (fwStep env) s = (r, s')) : LogStep s none s'
  | apart {s s' : Machine} (h : Apart s s') : LogStep s none s'

def logSlot (s : Machine) : Slot := (s.ram.logfile.dirLba, s.ram.logfile.dirOffset)

/-- A log file with nothing in it yet, in data sectors that are in use, and its directory entry in a
sector of its own. -/
structure EmptyLog (s0 : Machine) : Prop where
  geometry : Geometry s0.ram.vol
  bytes : s0.ram.logfile.bytesWritten = 0
  room : s0.ram.logfile.curLba ≤ s0.ram.logfile.endLba
  wrap : s0.ram.logfile.endLba < 2 ^ 32
  small : 512 * (s0.ram.logfile.endLba - s0.ram.logfile.curLba) < 2 ^ 32
  slot : s0.ram.logfile.dirOffset + 32 ≤ 512
  apart : s0.ram.logfile.dirLba < s0.ram.logfile.curLba ∨
    s0.ram.logfile.endLba ≤ s0.ram.logfile.dirLba
  data : s0.ram.vol.dataLba ≤ s0.ram.logfile.curLba
  used : ∀ lba, s0.ram.logfile.curLba ≤ lba → lba < s0.ram.logfile.endLba →
    ¬ InFree s0.ram.vol s0.card lba
  dirData : s0.ram.vol.dataLba ≤ s0.ram.logfile.dirLba
  dirUsed : ¬ InFree s0.ram.vol s0.card s0.ram.logfile.dirLba

/-- The log file of `s0`, with `l` in it: the sectors from the cursor of `s0` on are the records, the
entry has the size of the last commit, and the rest of the card is that of `s0`, but for free
clusters. -/
structure LogFile (s0 : Machine) (l : CommitLog.Log Sector) (s : Machine) : Prop where
  vol : s.ram.vol = s0.ram.vol
  logfile : s.ram.logfile = { s0.ram.logfile with
    curLba := s0.ram.logfile.curLba + l.records.length
    bytesWritten := 512 * l.records.length }
  used : s0.ram.logfile.curLba + l.records.length ≤ s0.ram.logfile.endLba
  blocks : ∀ k (hk : k < l.records.length), s.card (s0.ram.logfile.curLba + k) = l.records[k]
  size : fileSize s.card (logSlot s0) =
    (l.committed.map (512 * ·)).getD (fileSize s0.card (logSlot s0))
  dir : ∀ i, i < s0.ram.logfile.dirOffset + deFileSize ∨ s0.ram.logfile.dirOffset + 32 ≤ i →
    (s.card s0.ram.logfile.dirLba).byte i = (s0.card s0.ram.logfile.dirLba).byte i
  rest : ∀ lba, lba ≠ s0.ram.logfile.dirLba →
    (lba < s0.ram.logfile.curLba ∨ s0.ram.logfile.endLba ≤ lba) →
    ¬ InFree s0.ram.vol s0.card lba → s.card lba = s0.card lba

/-! The flush. -/

theorem putSize_inSector {off : ℕ} (hoff : off + 4 ≤ 512) (n : ℕ) :
    InSector fun b => putSize b off n where
  outside b i hi := by
    simp only [putSize, Function.update_apply]
    repeat rw [if_neg (by omega)]
  inside b b' h i hi := putSize_congr (h i hi) off n

/-- The directory sector is written with the size, or could not be read or written. -/
theorem flush_cases (hoff : s.ram.logfile.dirOffset + 32 ≤ 512)
    (hrun : fat32Flush.run (fwStep env) s = (r, s')) :
    let d := sizedSector (s.card s.ram.logfile.dirLba) s.ram.logfile
    (r = .ok () ∧ Scratch (s.onCard (Function.update s.card s.ram.logfile.dirLba d)
        [.write s.ram.logfile.dirLba d]) s') ∨
      ∃ n, r = .error (.code n) ∧ (Scratch s s' ∨
        Scratch (s.onCard (Function.update s.card s.ram.logfile.dirLba d)
          [.write s.ram.logfile.dirLba d]) s') := by
  have hset : ∀ u : Machine, (ringSet32 (s.ram.logfile.dirOffset + deFileSize)
      s.ram.logfile.bytesWritten).run (fwStep env) u = (.ok (), u.withRing (putSize u.ring
        (s.ram.logfile.dirOffset + deFileSize) s.ram.logfile.bytesWritten)) := fun _ => rfl
  rw [fat32Flush, getRam_bind] at hrun
  exact rewrite_cases (putSize_inSector (by unfold deFileSize; omega) _) hset hrun

theorem sizedSector_byte (d : Sector) (lf : Logfile) {i : ℕ}
    (hi : i < lf.dirOffset + deFileSize ∨ lf.dirOffset + 32 ≤ i) :
    (sizedSector d lf).byte i = d.byte i := by
  by_cases hlt : i < 512
  · have hsame : putSize d.byte (lf.dirOffset + deFileSize) lf.bytesWritten i = d.byte i := by
      unfold deFileSize at hi ⊢
      simp only [putSize, Function.update_apply]
      repeat rw [if_neg (by omega)]
    rw [Sector.byte, dif_pos hlt]
    exact hsame
  · rw [Sector.byte, Sector.byte, dif_neg hlt, dif_neg hlt]

/-! The steps. -/

theorem EmptyLog.start (h : EmptyLog s0) : LogFile s0 .empty s0 := by
  have hlog : s0.ram.logfile = { s0.ram.logfile with
      curLba := s0.ram.logfile.curLba + 0, bytesWritten := 512 * 0 } := by
    rw [Nat.add_zero, Nat.mul_zero, ← h.bytes]
  exact ⟨rfl, hlog, h.room, fun k hk => absurd hk (Nat.not_lt_zero k), rfl, fun _ _ => rfl,
    fun _ _ _ _ => rfl⟩

theorem LogFile.apart (h : LogFile s0 l s) (hs : Apart s s') : LogFile s0 l s' := by
  obtain ⟨hvol, hlog, hcard⟩ := hs
  exact ⟨hvol.trans h.vol, hlog.trans h.logfile, h.used, hcard ▸ h.blocks, hcard ▸ h.size,
    hcard ▸ h.dir, hcard ▸ h.rest⟩

theorem Scratch.apart (h : Scratch s s') : Apart s s' := by
  obtain ⟨_, _, _, _, rfl⟩ := h
  exact ⟨rfl, rfl, rfl⟩

theorem LogFile.stored (h0 : EmptyLog s0) (h : LogFile s0 l s)
    (hroom : s.ram.logfile.curLba < s.ram.logfile.endLba) (d : Sector) :
    LogFile s0 l (s.logged s.ram.logfile.curLba d) := by
  have hcur : s.ram.logfile.curLba = s0.ram.logfile.curLba + l.records.length := by
    rw [h.logfile]
  have hend : s.ram.logfile.endLba = s0.ram.logfile.endLba := by rw [h.logfile]
  have hdir : s0.ram.logfile.dirLba ≠ s.ram.logfile.curLba := by
    have := h0.apart
    omega
  have hcard : ∀ lba, lba ≠ s.ram.logfile.curLba →
      (s.logged s.ram.logfile.curLba d).card lba = s.card lba :=
    fun lba hlba => Function.update_of_ne hlba _ _
  refine ⟨h.vol, h.logfile, h.used, fun k hk => ?_, ?_, fun i hi => ?_, fun lba hlba hout hfree => ?_⟩
  · rw [hcard _ (by omega)]
    exact h.blocks k hk
  · rw [fileSize, le32_slotByte]
    change le32 ((s.logged s.ram.logfile.curLba d).card s0.ram.logfile.dirLba).byte _ = _
    rw [hcard _ hdir]
    have hsize := h.size
    rwa [fileSize, le32_slotByte] at hsize
  · rw [hcard _ hdir]
    exact h.dir i hi
  · rw [hcard _ (by omega)]
    exact h.rest lba hlba hout hfree

theorem LogFile.advance (h0 : EmptyLog s0) (h : LogFile s0 l s)
    (hroom : s.ram.logfile.curLba < s.ram.logfile.endLba) (d : Sector) :
    LogFile s0 ⟨l.records ++ [d], l.committed⟩
      ((s.logged s.ram.logfile.curLba d).withLogfile (s.ram.logfile.advance 512)) := by
  have hcur : s.ram.logfile.curLba = s0.ram.logfile.curLba + l.records.length := by
    rw [h.logfile]
  have hend : s.ram.logfile.endLba = s0.ram.logfile.endLba := by rw [h.logfile]
  have hbytes : s.ram.logfile.bytesWritten = 512 * l.records.length := by rw [h.logfile]
  have hstored := h.stored h0 hroom d
  have hwrap := h0.wrap
  have hsmall := h0.small
  have hlog : s.ram.logfile.advance 512 = { s0.ram.logfile with
      curLba := s0.ram.logfile.curLba + (l.records ++ [d]).length
      bytesWritten := 512 * (l.records ++ [d]).length } := by
    rw [Logfile.advance, hcur, hbytes, h.logfile, List.length_append, List.length_singleton,
      u32_of_lt (by omega), u32_of_lt (by omega)]
    rfl
  refine ⟨h.vol, hlog, ?_, fun k hk => ?_, hstored.size, hstored.dir, hstored.rest⟩
  · simp only [List.length_append, List.length_singleton]
    omega
  · simp only [List.length_append, List.length_singleton] at hk
    change (s.logged s.ram.logfile.curLba d).card (s0.ram.logfile.curLba + k) = (l.records ++ [d])[k]
    by_cases hlast : k < l.records.length
    · rw [List.getElem_append_left hlast]
      exact hstored.blocks k hlast
    · obtain rfl : k = l.records.length := by omega
      rw [List.getElem_concat_length rfl, ← hcur]
      exact Function.update_self _ _ _

theorem LogFile.sized (h0 : EmptyLog s0) (h : LogFile s0 l s) :
    let d := sizedSector (s.card s.ram.logfile.dirLba) s.ram.logfile
    LogFile s0 ⟨l.records, some l.records.length⟩
      (s.onCard (Function.update s.card s.ram.logfile.dirLba d) [.write s.ram.logfile.dirLba d]) := by
  intro d
  have hdir : s.ram.logfile.dirLba = s0.ram.logfile.dirLba := by rw [h.logfile]
  have hoff : s.ram.logfile.dirOffset = s0.ram.logfile.dirOffset := by rw [h.logfile]
  have hbytes : s.ram.logfile.bytesWritten = 512 * l.records.length := by rw [h.logfile]
  have hused := h.used
  have hapart := h0.apart
  have hsmall := h0.small
  have hslot := h0.slot
  have hcard : ∀ lba, lba ≠ s0.ram.logfile.dirLba →
      Function.update s.card s.ram.logfile.dirLba d lba = s.card lba :=
    fun lba hlba => Function.update_of_ne (hdir ▸ hlba) _ _
  have hself : Function.update s.card s.ram.logfile.dirLba d s0.ram.logfile.dirLba = d := by
    rw [hdir]
    exact Function.update_self _ _ _
  refine ⟨h.vol, h.logfile, h.used, fun k hk => ?_, ?_, fun i hi => ?_, fun lba hlba hout hfree => ?_⟩
  · have hlt : k < l.records.length := hk
    exact (hcard _ (by omega)).trans (h.blocks k hlt)
  · have hsize := sizedSector_size (s.card s.ram.logfile.dirLba) s.ram.logfile (by omega)
    rw [hoff, hbytes, Nat.mod_eq_of_lt (by omega)] at hsize
    rw [fileSize, le32_slotByte]
    change le32 (Function.update s.card s.ram.logfile.dirLba d s0.ram.logfile.dirLba).byte _ = _
    rw [hself]
    exact hsize
  · change (Function.update s.card s.ram.logfile.dirLba d s0.ram.logfile.dirLba).byte i = _
    rw [hself, sizedSector_byte _ _ (by rwa [hoff]), hdir]
    exact h.dir i hi
  · exact (hcard _ hlba).trans (h.rest lba hlba hout hfree)

theorem LogFile.table (h0 : EmptyLog s0) (h : LogFile s0 l s) :
    fatTable s0.ram.vol s.card = fatTable s0.ram.vol s0.card := by
  have hdata := h0.data
  have hdir := h0.dirData
  refine fatTable_congr h0.geometry fun lba hlba => h.rest lba (by omega) (.inl (by omega)) ?_
  intro hfree
  have := hfree.data
  omega

theorem LogFile.trim (h0 : EmptyLog s0) (h : LogFile s0 l s) (hw : NoWrap s.ram.vol)
    (hrun : fat32TrimFree.run (fwStep env) s = (r, s')) : LogFile s0 l s' := by
  have hv : TrimGeometry s.ram.vol := h.vol ▸ h0.geometry.trim
  have hram := trim_ram hv hw hrun
  have htable := h.table h0
  have hsame : ∀ lba, ¬ InFree s0.ram.vol s0.card lba → s'.card lba = s.card lba := by
    intro lba hlba
    refine trim_frame hv hw hrun fun hfree => hlba ?_
    rw [h.vol] at hfree
    exact hfree.mono fun x hx => htable ▸ hx
  have hdir := hsame _ h0.dirUsed
  have hused := h.used
  refine ⟨(congrArg Ram.vol hram).trans h.vol, (congrArg Ram.logfile hram).trans h.logfile, h.used,
    fun k hk => ?_, ?_, fun i hi => ?_, fun lba hlba hout hfree => ?_⟩
  · rw [hsame _ (h0.used _ (Nat.le_add_right _ _) (by omega))]
    exact h.blocks k hk
  · have hsize := h.size
    rw [fileSize, le32_slotByte] at hsize ⊢
    change le32 (s'.card s0.ram.logfile.dirLba).byte _ = _
    rw [hdir]
    exact hsize
  · rw [hdir]
    exact h.dir i hi
  · rw [hsame lba hfree]
    exact h.rest lba hlba hout hfree

theorem LogFile.silent (h0 : EmptyLog s0) (h : LogFile s0 l s) (hstep : LogStep s none s') :
    LogFile s0 l s' := by
  cases hstep with
  | trim env hw hcall => exact h.trim h0 hw hcall
  | apart hs => exact h.apart hs

theorem LogFile.step {c : CommitLog.Call Sector} (h0 : EmptyLog s0) (h : LogFile s0 l s)
    (hstep : LogStep s (some c) s') : ∃ l', CommitLog.Step l c l' ∧ LogFile s0 l' s' := by
  cases hstep with
  | append env call hlen hroom hcall hack =>
    rcases append_cases hcall with ⟨t, hmake, hrest⟩ | ⟨e, rfl, hmake⟩
    swap
    · rcases makeRoom_cases hmake with ⟨-, hbad, -⟩ | ⟨hfull, -⟩
      · cases hbad
      · omega
    rcases makeRoom_cases hmake with ⟨-, -, rfl⟩ | ⟨hfull, -⟩
    swap
    · omega
    rcases hrest with ⟨rfl, hs⟩ | ⟨n, rfl, hs⟩
    · rw [hlen] at hs
      rw [hack.mpr rfl]
      exact ⟨_, .append l _, (h.advance h0 hroom _).apart hs.apart⟩
    · obtain rfl : _ = false := Bool.eq_false_iff.mpr fun ht => by cases hack.mp ht
      refine ⟨l, .lost l _, ?_⟩
      rcases hs with hs | hs
      · exact h.apart hs.apart
      · exact (h.stored h0 hroom _).apart hs.apart
  | flush env hcall hack =>
    have hoff : s.ram.logfile.dirOffset + 32 ≤ 512 := by
      rw [h.logfile]
      exact h0.slot
    rcases flush_cases hoff hcall with ⟨-, hs⟩ | ⟨n, rfl, hs | hs⟩
    · exact ⟨_, .commit l _, (h.sized h0).apart hs.apart⟩
    · obtain rfl : _ = false := Bool.eq_false_iff.mpr fun ht => by cases hack.mp ht
      exact ⟨l, .ignored l, h.apart hs.apart⟩
    · exact ⟨_, .commit l _, (h.sized h0).apart hs.apart⟩

theorem LogFile.run {cs : List (CommitLog.Call Sector)} (h0 : EmptyLog s0) (h : LogFile s0 l s)
    (hrun : Trace LogStep s cs t) : ∃ l', CommitLog.Run l cs l' ∧ LogFile s0 l' t := by
  exact hrun.simulate (fun l s s' h hstep => h.silent h0 hstep)
    (fun l s c s' h hstep => h.step h0 hstep) h

end Barelog
