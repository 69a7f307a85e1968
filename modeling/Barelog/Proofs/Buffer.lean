import Barelog.Proofs.FatEntry
import Barelog.Spec.FatLog
import Barelog.Spec.Uart

/-! The sector buffer is the first half of the ring. The functions of the FAT driver use no
other ring cells, and what they read from a FAT sector does not depend on what the buffer held
before, so an append that extends the file replaces all of ring[0..511] before it sends the
spans. -/

namespace Barelog

open Prog

variable {env : Env} {s s' t : Machine} {d : ℕ}

/-- The operations of the FAT driver: it uses ring cells below 512 only, and keeps the place
`d` of the directory entry in its sector. -/
def Driver (d : ℕ) : FwOp → Prop
  | .ringGet i => i < 512
  | .ringSet i _ => i < 512
  | .getHead => False
  | .getTail => False
  | .setTail _ => False
  | .disableRx => False
  | .setRam r => r.logfile.dirOffset = d
  | .eepromGet _ => False
  | .eepromSet _ _ => False
  | _ => True

/-- The reply to `getRam` has the directory entry at `d`. -/
def SameSlot (d : ℕ) : (o : FwOp) → o.Reply → Prop
  | .getRam, r => r.logfile.dirOffset = d
  | _, _ => True

abbrev InBuffer (d : ℕ) {α : Type} (p : Fw α) : Prop := p.Only (SameSlot d) (Driver d)

/-- The replies are in `SameSlot d` as long as the state is. -/
theorem driver_slot (env : Env) (o : FwOp) (s : Machine) (ho : Driver d o)
    (hs : s.ram.logfile.dirOffset = d) :
    SameSlot d o (fwStep env o s).1 ∧ (fwStep env o s).2.ram.logfile.dirOffset = d := by
  cases o with
  | getRam => exact ⟨hs, hs⟩
  | setRam r => exact ⟨trivial, ho⟩
  | writeDone lba =>
    refine ⟨trivial, ?_⟩
    simp only [fwStep, Machine.finish]
    split <;> exact hs
  | zeroDone lba =>
    refine ⟨trivial, ?_⟩
    simp only [fwStep, Machine.finish]
    split <;> exact hs
  | _ => exact ⟨trivial, hs⟩

def splice (low high : ℕ → Byte) : ℕ → Byte := fun i => if i < 512 then low i else high i

def Machine.withRing (s : Machine) (ring : ℕ → Byte) : Machine := { s with ring := ring }

theorem splice_low {low high : ℕ → Byte} {i : ℕ} (hi : i < 512) : splice low high i = low i :=
  if_pos hi

theorem splice_high {low high : ℕ → Byte} {i : ℕ} (hi : 512 ≤ i) : splice low high i = high i :=
  if_neg (by omega)

theorem splice_update {low high : ℕ → Byte} {i : ℕ} (hi : i < 512) (b : Byte) :
    splice (Function.update low i b) high = Function.update (splice low high) i b := by
  funext j
  by_cases hj : j = i
  · rw [hj, splice_low hi, Function.update_self, Function.update_self]
  · simp only [splice, Function.update_of_ne hj]

theorem finish_withRing (s : Machine) (ring : ℕ → Byte) (a : SdAnswer) (lba : ℕ) (e : CardEvent) :
    (s.withRing ring).finish a lba e =
      ((s.finish a lba e).1, (s.finish a lba e).2.withRing ring) := by
  unfold Machine.finish
  cases a.landed <;> rfl

theorem finish_ring (s : Machine) (a : SdAnswer) (lba : ℕ) (e : CardEvent) :
    (s.finish a lba e).2.ring = s.ring := by
  unfold Machine.finish
  cases a.landed <;> rfl

theorem fwStep_splice (env : Env) (high : ℕ → Byte) (o : FwOp) (s : Machine) (ho : Driver d o) :
    fwStep env o (s.withRing (splice s.ring high)) =
      ((fwStep env o s).1, (fwStep env o s).2.withRing (splice (fwStep env o s).2.ring high)) := by
  cases o with
  | ringGet i => exact Prod.ext (splice_low ho) rfl
  | ringSet i b =>
    refine Prod.ext rfl ?_
    simp only [fwStep, Machine.withRing, splice_update (show i < 512 from ho)]
  | writeDone lba =>
    rw [show (fwStep env (.writeDone lba) s).2.ring = s.ring from finish_ring _ _ _ _]
    exact finish_withRing s _ _ _ _
  | zeroDone lba =>
    rw [show (fwStep env (.zeroDone lba) s).2.ring = s.ring from finish_ring _ _ _ _]
    exact finish_withRing s _ _ _ _
  | _ => rfl

/-- Code that stays in the buffer does not see the rest of the ring. -/
theorem run_splice (env : Env) (s : Machine) {α : Type} {p : Fw α}
    (hp : InBuffer s.ram.logfile.dirOffset p) (high : ℕ → Byte) :
    p.run (fwStep env) (s.withRing (splice s.ring high)) =
      ((p.run (fwStep env) s).1, (p.run (fwStep env) s).2.withRing
        (splice (p.run (fwStep env) s).2.ring high)) :=
  hp.run_map (f := fun s => s.withRing (splice s.ring high)) (driver_slot env)
    (fun o s ho => fwStep_splice env high o s ho) rfl

theorem load_eq_splice (ring ring' : ℕ → Byte) (d : Sector) :
    load ring' 0 d 512 = splice (load ring 0 d 512) ring' := by
  funext i
  by_cases hi : i < 512
  · rw [splice_low hi, load_inside hi, load_inside hi]
  · rw [splice_high (by omega), load_outside (by omega)]

/-- Code that begins by reading a sector into the buffer does not see what was in it. -/
theorem read_forgets {α : Type} {lba : ℕ} {p : Fw α} {a : α}
    (hp : InBuffer s.ram.logfile.dirOffset p)
    (ring : ℕ → Byte) (hrun : (sdReadSector lba 0 >>= fun _ => p).run (fwStep env) s = (.ok a, t)) :
    (sdReadSector lba 0 >>= fun _ => p).run (fwStep env) (s.withRing ring) =
      (.ok a, t.withRing (splice t.ring ring)) := by
  rw [run_bind, sdReadSector_run] at hrun ⊢
  by_cases hgood : env.answer s.reqs = .good
  · rw [if_pos hgood] at hrun
    rw [if_pos (show env.answer (s.withRing ring).reqs = .good from hgood)]
    have hload : ({ (s.withRing ring).asked with
          ring := load (s.withRing ring).ring 0 ((s.withRing ring).card lba) 512 } : Machine) =
        Machine.withRing { s.asked with ring := load s.ring 0 (s.card lba) 512 }
          (splice (load s.ring 0 (s.card lba) 512) ring) := by
      rw [← load_eq_splice]
      rfl
    have hsplice := run_splice env { s.asked with ring := load s.ring 0 (s.card lba) 512 } hp ring
    simp only [hload]
    simp only at hrun
    rw [hrun] at hsplice
    exact hsplice
  · rw [if_neg hgood] at hrun
    cases hrun

/-! The functions of the driver stay in the buffer. -/

theorem check_low (ret : ℤ) : InBuffer d (check ret) :=
  only_ite (fun _ => trivial) fun _ => trivial

theorem sdReadSector_low (lba : ℕ) : InBuffer d (sdReadSector lba 0) := by
  refine only_bind (only_perform trivial) fun ret => only_bind (check_low ret) fun _ => ?_
  refine only_forUp fun i _ hi => only_bind (only_perform trivial) fun b => ?_
  exact only_perform (show 0 + i < 512 by omega)

theorem sdWriteSector_low (lba : ℕ) : InBuffer d (sdWriteSector lba 0) := by
  refine only_bind (only_perform trivial) fun ret => only_bind (check_low ret) fun _ => ?_
  refine only_bind (only_forUp fun i _ hi => ?_) fun _ =>
    only_bind (only_perform trivial) check_low
  exact only_bind (only_perform (show 0 + i < 512 by omega)) fun b =>
    only_perform trivial

theorem sdWriteZeroSector_low (lba : ℕ) : InBuffer d (sdWriteZeroSector lba) := by
  refine only_bind (only_perform trivial) fun ret => only_bind (check_low ret) fun _ => ?_
  exact only_bind (only_forUp fun i _ _ => only_perform trivial) fun _ =>
    only_bind (only_perform trivial) check_low

theorem ringGet_low {i : ℕ} (hi : i < 512) : InBuffer d (ringGet i) := only_perform hi

theorem ringSet_low {i : ℕ} (hi : i < 512) (b : Byte) : InBuffer d (ringSet i b) :=
  only_perform hi

theorem getRam_low : InBuffer d getRam := only_perform trivial

theorem getRam_bind_low {α : Type} {f : Ram → Fw α}
    (hf : ∀ r, r.logfile.dirOffset = d → InBuffer d (f r)) : InBuffer d (getRam >>= f) :=
  ⟨trivial, hf⟩

/-- What `fat_read_entry` does after the read. -/
def entryOf (off : ℕ) : Fw ℕ := do
  let b0 ← ringGet off
  let b1 ← ringGet (off + 1)
  let b2 ← ringGet (off + 2)
  let b3 ← ringGet (off + 3)
  pure (entryValue b0 b1 b2 b3)

theorem entryOf_low {off : ℕ} (hoff : off + 3 < 512) : InBuffer d (entryOf off) := by
  refine only_bind (ringGet_low (by omega)) fun _ => ?_
  refine only_bind (ringGet_low (by omega)) fun _ => ?_
  refine only_bind (ringGet_low (by omega)) fun _ => ?_
  exact only_bind (ringGet_low hoff) fun _ => trivial

theorem fatReadEntry_eq (c : ℕ) : fatReadEntry c = (do
    let r ← getRam
    sdReadSector (fatSector r.vol c) 0
    entryOf (fatOffset c)) := rfl

theorem fatReadEntry_low (c : ℕ) : InBuffer d (fatReadEntry c) :=
  only_bind getRam_low fun _ => only_bind (sdReadSector_low _) fun _ =>
    entryOf_low (fatOffset_lt c)

theorem putEntry_low {off : ℕ} (hoff : off + 3 < 512) (val : ℕ) :
    InBuffer d (putEntry off val) := by
  refine only_bind (ringSet_low (by omega) _) fun _ => ?_
  refine only_bind (ringSet_low (by omega) _) fun _ => ?_
  refine only_bind (ringSet_low (by omega) _) fun _ => ?_
  exact only_bind (ringGet_low hoff) fun _ => ringSet_low hoff _

theorem fatWriteEntry_low (c val : ℕ) : InBuffer d (fatWriteEntry c val) := by
  refine only_bind getRam_low fun r => only_forUp fun f _ _ => ?_
  exact only_bind (sdReadSector_low _) fun _ =>
    only_bind (putEntry_low (fatOffset_lt c) val) fun _ => sdWriteSector_low _

theorem findFree_low (fuel c : ℕ) : InBuffer d (findFree fuel c) := by
  induction fuel generalizing c with
  | zero => trivial
  | succ fuel ih =>
    exact only_bind (fatReadEntry_low c) fun val =>
      only_ite (fun _ => trivial) fun _ => ih _

theorem zeroFill_low (lo hi : ℕ) : InBuffer d (zeroFill lo hi) :=
  only_forUp fun i _ _ => sdWriteZeroSector_low i

theorem setLogfile_low {f : Logfile → Logfile} (hf : ∀ l, (f l).dirOffset = l.dirOffset) :
    InBuffer d (setLogfile f) :=
  getRam_bind_low fun r hr => only_perform (show (f r.logfile).dirOffset = d from
    (hf r.logfile).trans hr)

/-- The extension once it has its cluster `c`. -/
def extendWith (r : Ram) (c : ℕ) : Fw Unit := do
  fatWriteEntry r.logfile.lastClus c
  fatWriteEntry c 0x0FFFFFFF
  let lba := clusToLba r.vol c
  let endLba := u32 (lba + r.vol.secPerClus)
  sdErase lba (u32 (endLba + 2 ^ 32 - 1))
  zeroFill lba endLba
  setLogfile fun l => { l with endLba := endLba, lastClus := c }

/-- The search for a free cluster once the entry of cluster 2 is known. -/
def searchOn (fuel val : ℕ) : Fw ℕ := if val = 0 then pure 2 else findFree fuel (u32 (2 + 1))

theorem extendLog_eq (fuel : ℕ) : extendLog fuel = (do
    let r ← getRam
    let c ← findFree fuel 2
    extendWith r c) := rfl

theorem extendWith_low (r : Ram) (c : ℕ) : InBuffer d (extendWith r c) := by
  refine only_bind (fatWriteEntry_low _ _) fun _ => only_bind (fatWriteEntry_low _ _) fun _ => ?_
  exact only_bind (only_perform trivial) fun _ =>
    only_bind (zeroFill_low _ _) fun _ => setLogfile_low fun _ => rfl

/-- The extension does the same whatever the ring holds, and leaves the same in the buffer. -/
theorem extendLog_forgets {fuel : ℕ} (ring : ℕ → Byte)
    (hrun : (extendLog fuel).run (fwStep env) s = (.ok (), t)) :
    (extendLog fuel).run (fwStep env) (s.withRing ring) =
      (.ok (), t.withRing (splice t.ring ring)) := by
  cases fuel with
  | zero => cases hrun
  | succ fuel =>
    have heq : ∀ u : Machine, u.ram = s.ram → (extendLog (fuel + 1)).run (fwStep env) u =
        Prog.run (fwStep env) (sdReadSector (fatSector s.ram.vol 2) 0 >>= fun _ => do
          let val ← entryOf (fatOffset 2)
          let c ← searchOn fuel val
          extendWith s.ram c) u := by
      intro u hu
      rw [extendLog_eq, getRam_bind, findFree, fatReadEntry_eq, hu]
      simp only [bind_assoc]
      rw [getRam_bind, hu]
      rfl
    rw [heq s rfl] at hrun
    rw [heq (s.withRing ring) rfl]
    refine read_forgets ?_ ring hrun
    refine only_bind (entryOf_low (fatOffset_lt 2)) fun val => only_bind ?_ fun c =>
      extendWith_low _ c
    exact only_ite (fun _ => trivial) fun _ => findFree_low _ _

/-- What `fat32_append_sector` does first. -/
def makeRoom (fuel : ℕ) (l : Logfile) : Fw Unit := doIf (l.curLba ≥ l.endLba) (extendLog fuel)

theorem append_eq (fuel spanA lenA : ℕ) (spanB : Option ℕ) (lenB : ℕ) :
    fat32AppendSector fuel spanA lenA spanB lenB = (do
      let r ← getRam
      makeRoom fuel r.logfile
      sdWriteSectorZc r.logfile.curLba spanA lenA spanB lenB
      setLogfile fun l => { l with
        curLba := u32 (l.curLba + 1)
        bytesWritten := u32 (l.bytesWritten + (lenA + lenB)) }) := rfl

theorem makeRoom_idle {env : Env} {fuel : ℕ} {l : Logfile} (h : l.curLba < l.endLba) (t : Machine) :
    (makeRoom fuel l).run (fwStep env) t = (.ok (), t) := by
  rw [makeRoom, doIf, if_neg (not_le.mpr h)]
  rfl

def spanSector (ring : ℕ → Byte) (spanA lenA : ℕ) (spanB : Option ℕ) (lenB : ℕ) : Sector :=
  sectorOf (spanBytes ring spanA lenA spanB lenB)

/-- The append that returned 0 made room and then sent the spans as they were by then. -/
theorem append_returned {fuel spanA lenA : ℕ} {spanB : Option ℕ} {lenB : ℕ}
    (hrun : (fat32AppendSector fuel spanA lenA spanB lenB).run (fwStep env) s = (.ok (), s')) :
    ∃ t, (makeRoom fuel s.ram.logfile).run (fwStep env) s = (.ok (), t) ∧
      env.answer t.reqs ≠ .refuse ∧ env.answer (t.reqs + 1) = .good ∧
      s'.ring = t.ring ∧ s'.card = Function.update t.card s.ram.logfile.curLba
        (spanSector t.ring spanA lenA spanB lenB) ∧
      s'.ram = { t.ram with logfile := { t.ram.logfile with
        curLba := u32 (t.ram.logfile.curLba + 1)
        bytesWritten := u32 (t.ram.logfile.bytesWritten + (lenA + lenB)) } } ∧
      s'.reqs = t.reqs + 2 ∧ s'.ringHead = t.ringHead ∧ s'.ringTail = t.ringTail ∧
      s'.events = t.events ++
        [.write s.ram.logfile.curLba (spanSector t.ring spanA lenA spanB lenB)] := by
  rw [append_eq, getRam_bind] at hrun
  obtain ⟨_, t, hroom, hrun⟩ := bind_returned hrun
  obtain ⟨_, t1, hsend, hrun⟩ := bind_returned hrun
  rw [sdWriteSectorZc_run] at hsend
  refine ⟨t, hroom, ?_⟩
  unfold Machine.send at hsend
  split at hsend
  · cases hsend
  rename_i hcmd
  split at hsend
  · rename_i hdone
    cases hrun
    rw [hdone] at hsend
    cases hsend
    exact ⟨hcmd, hdone, rfl, rfl, rfl, rfl, rfl, rfl, rfl⟩
  · cases hsend

theorem append_of_room {fuel spanA lenA : ℕ} {spanB : Option ℕ} {lenB : ℕ}
    (hroom : (makeRoom fuel s.ram.logfile).run (fwStep env) s = (.ok (), t))
    (hcmd : env.answer t.reqs ≠ .refuse) (hdone : env.answer (t.reqs + 1) = .good) :
    ∃ s', (fat32AppendSector fuel spanA lenA spanB lenB).run (fwStep env) s = (.ok (), s') := by
  have hsend : (sdWriteSectorZc s.ram.logfile.curLba spanA lenA spanB lenB).run (fwStep env) t =
      (.ok (), t.wrote s.ram.logfile.curLba (spanSector t.ring spanA lenA spanB lenB)
        (.write s.ram.logfile.curLba (spanSector t.ring spanA lenA spanB lenB)) (t.reqs + 2)) := by
    rw [sdWriteSectorZc_run, Machine.send, if_neg hcmd, if_pos hdone, hdone]
    rfl
  rw [append_eq, getRam_bind, run_bind_ok hroom, run_bind_ok hsend]
  exact ⟨_, rfl⟩

/-! The two spans of an append. -/

structure SpansOk (spanA lenA : ℕ) (spanB : Option ℕ) (lenB : ℕ) : Prop where
  inA : spanA + lenA ≤ 1024
  inB : ∀ b, spanB = some b → b + lenB ≤ 1024
  noB : spanB = none → lenB = 0
  total : lenA + lenB = 512

def InSpans (spanA lenA : ℕ) (spanB : Option ℕ) (lenB i : ℕ) : Prop :=
  (spanA ≤ i ∧ i < spanA + lenA) ∨ ∃ b, spanB = some b ∧ b ≤ i ∧ i < b + lenB

def IsUnread (s : Machine) (i : ℕ) : Prop := ∃ j, j < s.unread ∧ i = (s.ringTail + j) % 1024

section Spans

variable {ring ring' : ℕ → Byte} {spanA lenA : ℕ} {spanB : Option ℕ} {lenB : ℕ}

theorem spanSector_congr (h : ∀ i, InSpans spanA lenA spanB lenB i → ring i = ring' i) :
    spanSector ring spanA lenA spanB lenB = spanSector ring' spanA lenA spanB lenB := by
  unfold spanSector spanBytes
  congr 2
  · refine List.map_congr_left fun k hk => h _ (.inl ?_)
    have := List.mem_range.mp hk
    omega
  · cases spanB with
    | none => rfl
    | some b =>
      refine List.map_congr_left fun k hk => h _ (.inr ⟨b, rfl, ?_⟩)
      have := List.mem_range.mp hk
      omega

theorem spanBytes_first (ring : ℕ → Byte) (spanB : Option ℕ) (lenB : ℕ) {k : ℕ} (hk : k < lenA) :
    (spanBytes ring spanA lenA spanB lenB).getD k 0 = ring (spanA + k) := by
  simp [spanBytes, List.getD_eq_getElem?_getD, List.getElem?_append, hk]

theorem spanBytes_second (ring : ℕ → Byte) (b : ℕ) {k : ℕ} (hk : k < lenB) :
    (spanBytes ring spanA lenA (some b) lenB).getD (lenA + k) 0 = ring (b + k) := by
  simp [spanBytes, List.getD_eq_getElem?_getD, hk]

/-- Each byte of the spans is a byte of the sector. -/
theorem spanSector_inj (hspans : SpansOk spanA lenA spanB lenB)
    (h : spanSector ring spanA lenA spanB lenB = spanSector ring' spanA lenA spanB lenB) {i : ℕ}
    (hi : InSpans spanA lenA spanB lenB i) : ring i = ring' i := by
  have htotal := hspans.total
  rcases hi with ⟨hlo, hhi⟩ | ⟨b, rfl, hlo, hhi⟩
  · obtain ⟨k, rfl⟩ := Nat.exists_eq_add_of_le hlo
    have hk : k < lenA := by omega
    have hbyte := congrFun h ⟨k, by omega⟩
    rw [← spanBytes_first ring spanB lenB hk, ← spanBytes_first ring' spanB lenB hk]
    exact hbyte
  · obtain ⟨k, rfl⟩ := Nat.exists_eq_add_of_le hlo
    have hk : k < lenB := by omega
    have hbyte := congrFun h ⟨lenA + k, by omega⟩
    have hread : ∀ r : ℕ → Byte, (spanBytes r spanA lenA (some b) lenB).getD (lenA + k) 0 =
        r (b + k) := fun r => spanBytes_second r b hk
    rw [← hread ring, ← hread ring']
    exact hbyte

end Spans

/-- The append sends the spans as they were at the call, and leaves the unread bytes. -/
def AppendKeeps (env : Env) (fuel spanA lenA : ℕ) (spanB : Option ℕ) (lenB : ℕ) (s : Machine) :
    Prop :=
  ∀ s', (fat32AppendSector fuel spanA lenA spanB lenB).run (fwStep env) s = (.ok (), s') →
    s'.card s.ram.logfile.curLba = spanSector s.ring spanA lenA spanB lenB ∧
      ∀ i, IsUnread s i → s'.ring i = s.ring i

section Keeps

variable {fuel spanA lenA : ℕ} {spanB : Option ℕ} {lenB : ℕ}

theorem appendKeeps_of_room (hroom : s.ram.logfile.curLba < s.ram.logfile.endLba) :
    AppendKeeps env fuel spanA lenA spanB lenB s := by
  intro s' hrun
  obtain ⟨t, ht, _, _, hring, hcard, _⟩ := append_returned hrun
  rw [makeRoom_idle hroom] at ht
  cases ht
  rw [hcard, Function.update_self, hring]
  exact ⟨rfl, fun _ _ => rfl⟩

theorem extendLog_high {i : ℕ} (hrun : (extendLog fuel).run (fwStep env) s = (.ok (), t))
    (hi : 512 ≤ i) : t.ring i = s.ring i := by
  have hsame := extendLog_forgets s.ring hrun
  rw [show s.withRing s.ring = s from rfl, hrun] at hsame
  have hring : t.ring = splice t.ring s.ring := congrArg (fun x => x.2.ring) hsame
  rw [hring, splice_high hi]

theorem appendKeeps_of_high (hhigh : ∀ i, i < 512 → ¬ InSpans spanA lenA spanB lenB i ∧
    ¬ IsUnread s i) : AppendKeeps env fuel spanA lenA spanB lenB s := by
  intro s' hrun
  by_cases hroom : s.ram.logfile.curLba < s.ram.logfile.endLba
  · exact appendKeeps_of_room hroom s' hrun
  obtain ⟨t, ht, _, _, hring, hcard, _⟩ := append_returned hrun
  rw [makeRoom, doIf, if_pos (by omega)] at ht
  rw [hcard, Function.update_self, hring]
  constructor
  · refine spanSector_congr fun i hi => extendLog_high ht ?_
    by_contra hlow
    exact (hhigh i (by omega)).1 hi
  · refine fun i hi => extendLog_high ht ?_
    by_contra hlow
    exact (hhigh i (by omega)).2 hi

def otherByte (b : Byte) : Byte := if b = 0 then 1 else 0

theorem otherByte_ne (b : Byte) : otherByte b ≠ b := by
  unfold otherByte
  split
  · rename_i h
    rw [h]
    decide
  · exact fun h => by simp_all

/-- With an extension, a span or an unread byte in the buffer is lost for some ring. -/
theorem append_clobbers (hspans : SpansOk spanA lenA spanB lenB)
    (hret : ∃ s', (fat32AppendSector fuel spanA lenA spanB lenB).run (fwStep env) s = (.ok (), s'))
    (hfull : s.ram.logfile.endLba ≤ s.ram.logfile.curLba) {i : ℕ} (hi : i < 512)
    (hused : InSpans spanA lenA spanB lenB i ∨ IsUnread s i) :
    ∃ ring, ¬ AppendKeeps env fuel spanA lenA spanB lenB (s.withRing ring) := by
  obtain ⟨s', hrun⟩ := hret
  obtain ⟨t, ht, hcmd, hdone, _⟩ := append_returned hrun
  have hext : ∀ ring, (makeRoom fuel s.ram.logfile).run (fwStep env) (s.withRing ring) =
      (.ok (), t.withRing (splice t.ring ring)) := by
    intro ring
    rw [makeRoom, doIf, if_pos hfull] at ht ⊢
    exact extendLog_forgets ring ht
  set ring := Function.update s.ring i (otherByte (t.ring i)) with hring0
  refine ⟨ring, fun hkeeps => ?_⟩
  obtain ⟨s2, hrun2⟩ : ∃ s2, (fat32AppendSector fuel spanA lenA spanB lenB).run (fwStep env)
      (s.withRing ring) = (.ok (), s2) := append_of_room (hext ring) hcmd hdone
  obtain ⟨t2, ht2, _, _, hring2, hcard2, _⟩ := append_returned hrun2
  obtain rfl : t2 = t.withRing (splice t.ring ring) :=
    congrArg Prod.snd (ht2.symm.trans (hext ring))
  obtain ⟨hsent, hunread⟩ := hkeeps s2 hrun2
  have hne : splice t.ring ring i ≠ ring i := by
    rw [splice_low hi, hring0, Function.update_self]
    exact (otherByte_ne _).symm
  rcases hused with hspan | hun
  · rw [hcard2] at hsent
    exact hne (spanSector_inj hspans ((Function.update_self _ _ _).symm.trans hsent) hspan)
  · have := hunread i hun
    rw [hring2] at this
    exact hne this

/-- An append that returns 0 keeps the spans and the unread bytes, whatever the ring holds,
exactly when it does not extend the file or neither is in ring[0..511]. -/
theorem append_keeps_iff (env : Env) (fuel spanA lenA : ℕ) (spanB : Option ℕ) (lenB : ℕ)
    (s : Machine) (hspans : SpansOk spanA lenA spanB lenB)
    (hret : ∃ s', (fat32AppendSector fuel spanA lenA spanB lenB).run (fwStep env) s =
      (.ok (), s')) :
    (∀ ring, AppendKeeps env fuel spanA lenA spanB lenB (s.withRing ring)) ↔
      s.ram.logfile.curLba < s.ram.logfile.endLba ∨
        ∀ i, i < 512 → ¬ InSpans spanA lenA spanB lenB i ∧ ¬ IsUnread s i := by
  constructor
  · intro hkeeps
    by_contra hnot
    rw [not_or, not_lt] at hnot
    obtain ⟨hfull, hlow⟩ := hnot
    push Not at hlow
    obtain ⟨i, hi, hused⟩ := hlow
    obtain ⟨ring, hbad⟩ := append_clobbers hspans hret hfull hi (or_iff_not_imp_left.mpr hused)
    exact hbad (hkeeps ring)
  · rintro (hroom | hhigh) ring
    · exact appendKeeps_of_room hroom
    · exact appendKeeps_of_high hhigh

end Keeps

/-- A full log file, on a volume whose FAT is all 0. -/
def fullFile : Machine :=
  let s := Machine.mounted tinyVol fun _ _ => 0
  { s with
    ring := fun _ => 0x41
    ringTail := 512
    ram := { s.ram with logfile := ⟨3, 13, 13, 12, 0, 512, 512, 3⟩ } }

/-- The one call that survives an extension: `log_process` with the tail at 512 and the head
at 0. -/
theorem append_keeps_upper_half : AppendKeeps Env.ideal 1 512 512 none 0 fullFile := by
  have hret : (fat32AppendSector 1 512 512 none 0).returns Env.ideal fullFile = true := by
    decide +kernel
  obtain ⟨_, hrun⟩ := Fw.returns_run hret
  refine (append_keeps_iff Env.ideal 1 512 512 none 0 fullFile ⟨by decide, by simp, fun _ => rfl,
    rfl⟩ ⟨_, hrun⟩).mpr (.inr fun i hi => ⟨?_, ?_⟩) fullFile.ring
  · rintro (⟨hlo, _⟩ | ⟨b, hb, _⟩)
    · omega
    · cases hb
  · rintro ⟨j, hj, rfl⟩
    have hj512 : j < 512 := hj
    have htail : fullFile.ringTail = 512 := rfl
    omega

/-- `log_flush` appends the 512 bytes at the start of the ring, here all 0x41; the card gets the
FAT sector that was read over them. -/
theorem append_sends_fat_sector :
    ∃ s', (fat32AppendSector 1 0 512 none 0).run (fwStep Env.ideal) fullFile = (.ok (), s') ∧
      s'.card 13 0 = 0 ∧ spanSector fullFile.ring 0 512 none 0 0 = 0x41 := by
  have hret : (fat32AppendSector 1 0 512 none 0).returns Env.ideal fullFile = true := by
    decide +kernel
  obtain ⟨_, hrun⟩ := Fw.returns_run hret
  exact ⟨_, hrun, by decide +kernel, by decide +kernel⟩

end Barelog
