import Barelog.Proofs.LogCursor

/-! The counters of a log file over a run of appends, and a log of 4 GiB: on a card that answers each
append takes at most one free cluster, so a large volume takes 2 ^ 23 of them, and the byte count
wraps to 0. -/

namespace Barelog

open Prog

variable {env env0 : Env} {s s' t t' : Machine} {v : Vol} {a b off n fuel : ℕ}

/-- The clusters from `b` on are free, and the log file ends below. -/
structure Roomy (v : Vol) (b : ℕ) (t : Machine) : Prop where
  vol : t.ram.vol = v
  last : IsDataClus v t.ram.logfile.lastClus
  below : t.ram.logfile.lastClus < b
  free : ∀ c, b ≤ c → IsDataClus v c → fatTable v t.card c = 0

theorem Roomy.logged (hv : Geometry v) (h : Roomy v b t) {lba k : ℕ} {d : Sector}
    (hlba : v.dataLba ≤ lba)
    (hend : Scratch ((t.logged lba d).withLogfile (t.ram.logfile.advance k)) t') : Roomy v b t' := by
  have hram : t'.ram = { t.ram with logfile := t.ram.logfile.advance k } := hend.ram
  have htable : fatTable v t'.card = fatTable v t.card := by
    rw [hend.card]
    exact fatTable_update hv hlba d
  refine ⟨?_, ?_, ?_, fun c hc hdata => ?_⟩
  · rw [hram]
    exact h.vol
  · rw [hram]
    exact h.last
  · rw [hram]
    exact h.below
  · rw [htable]
    exact h.free c hc hdata

theorem Roomy.extend (h : Roomy v b t) (h2 : IsDataClus v b) {c : ℕ}
    (hext : Extended t c t') : Roomy v (b + 1) t' := by
  have hfirst := hext.free
  have htable := hext.table
  rw [h.vol] at hfirst htable
  have hle : c ≤ b := by
    by_contra hlt
    exact hfirst.2.2 b h2.1 (by omega) (h.free b le_rfl h2)
  have hbelow := h.below
  refine ⟨?_, ?_, ?_, fun x hx hdata => ?_⟩
  · rw [hext.ram]
    exact h.vol
  · rw [hext.ram]
    exact hfirst.1
  · rw [hext.ram]
    exact Nat.lt_succ_of_le hle
  · rw [htable, Function.update_of_ne (by omega), Function.update_of_ne (by omega)]
    exact h.free x (by omega) hdata

theorem Roomy.makeRoom {fuel : ℕ} (hgood : env.Good) (hv : Geometry v) (h : Roomy v b t)
    (hb : IsDataClus v b) (hfuel : clusCount v < fuel) :
    ∃ u, (makeRoom fuel t.ram.logfile).run (fwStep env) t = (.ok (), u) ∧ Roomy v (b + 1) u ∧
      u.ram.logfile.curLba = t.ram.logfile.curLba := by
  have hvt : Geometry t.ram.vol := by
    rw [h.vol]
    exact hv
  obtain ⟨r, u, hrun⟩ : ∃ r u,
      (Barelog.makeRoom fuel t.ram.logfile).run (fwStep env) t = (r, u) := ⟨_, _, rfl⟩
  rcases makeRoom_cases hrun with ⟨-, rfl, rfl⟩ | ⟨-, hext⟩
  · refine ⟨u, hrun, ⟨h.vol, h.last, ?_, fun c hc => h.free c (by omega)⟩, rfl⟩
    have := h.below
    omega
  have hfree : freeClus t.ram.vol t.card ≠ [] := by
    have hmem : b ∈ freeClus t.ram.vol t.card := by
      rw [mem_freeClus hvt, h.vol]
      exact ⟨hb, (hb.fatTable hv).symm.trans (h.free b le_rfl hb)⟩
    exact List.ne_nil_of_mem hmem
  have hlast : IsDataClus t.ram.vol t.ram.logfile.lastClus := by
    rw [h.vol]
    exact h.last
  rcases extendLog_cases hvt hlast hfree hext with
    ⟨c, rfl, hnew⟩ | ⟨e, rfl, hcode | ⟨-, hle⟩, -⟩
  · have hcur : u.ram.logfile.curLba = t.ram.logfile.curLba := by simp only [hnew.ram]
    exact ⟨u, hrun, h.extend hb hnew, hcur⟩
  · exact absurd hcode (extendLog_noCode hgood fuel t e u hext)
  · rw [h.vol] at hle
    omega

theorem Roomy.append (call : AppendCall) (hgood : env.Good) (hv : Geometry v) (h : Roomy v b t)
    (hb : IsDataClus v b) (hfuel : clusCount v < call.fuel)
    (hcur : v.dataLba ≤ t.ram.logfile.curLba) :
    ∃ t', call.code.run (fwStep env) t = (.ok (), t') ∧ Roomy v (b + 1) t' := by
  obtain ⟨u, hmake, hu, -⟩ := h.makeRoom hgood hv hb hfuel
  obtain ⟨t', hcall⟩ := append_succeeds hgood call hmake
  refine ⟨t', hcall, ?_⟩
  rcases append_cases hcall with ⟨u', hmake', ⟨-, hend⟩ | ⟨_, hbad, -⟩⟩ | ⟨_, hbad, -⟩
  · obtain ⟨-, rfl⟩ := Prod.mk.inj (hmake.symm.trans hmake')
    exact hu.logged hv hcur hend
  · cases hbad
  · cases hbad

/-- A card that answers takes appends as long as there are free clusters. -/
theorem Roomy.run (hgood : env.Good) (hv : Geometry v) (h : Roomy v b s)
    (hs : Counted v a off 0 s) (hlow : v.dataLba ≤ clusToLba v a)
    (hn : b + n ≤ clusCount v + 2) (hwrap : clusToLba v a + n ≤ 2 ^ 32) :
    ∃ t, LogCalls env s n t ∧ Roomy v (b + n) t := by
  induction n with
  | zero => exact ⟨s, .opened, h⟩
  | succ n ih =>
    obtain ⟨t, hrun, ht⟩ := ih (by omega) (by omega)
    have hcur : v.dataLba ≤ t.ram.logfile.curLba := by
      rw [(hrun.counted hs).cursor, u32_of_lt (by omega)]
      omega
    have h2 := h.last.1
    have hbelow := h.below
    have hdata : IsDataClus v (b + n) := ⟨by omega, by omega⟩
    let call : AppendCall := ⟨clusCount v + 1, 512, 512, none, 0⟩
    obtain ⟨t', hcall, ht'⟩ := ht.append call hgood hv hdata (Nat.lt_succ_self _) hcur
    exact ⟨t', hrun.append call rfl hcall, ht'⟩

theorem mem_freeClus_of_free (hv : Geometry s.ram.vol)
    (hfree : ∀ c, 3 ≤ c → IsDataClus s.ram.vol c → fatEntry s.ram.vol s.card c = 0) {c : ℕ}
    (h3 : 3 ≤ c) (hle : c ≤ clusCount s.ram.vol + 1) : c ∈ freeClus s.ram.vol s.card := by
  have hc : IsDataClus s.ram.vol c := ⟨by omega, hle⟩
  exact (mem_freeClus hv).mpr ⟨hc, hfree c h3 hc⟩

theorem room_of_free (hv : Geometry s.ram.vol)
    (hfree : ∀ c, 3 ≤ c → IsDataClus s.ram.vol c → fatEntry s.ram.vol s.card c = 0)
    (hwant : clusWanted s + 1 ≤ clusCount s.ram.vol) :
    clusWanted s ≤ (freeClus s.ram.vol s.card).length := by
  have hsub : List.range' 3 (clusWanted s) ⊆ freeClus s.ram.vol s.card := by
    intro c hc
    rw [List.mem_range'_1] at hc
    exact mem_freeClus_of_free hv hfree hc.1 (by omega)
  have hlen := (List.subperm_of_subset List.nodup_range' hsub).length_le
  rwa [List.length_range'] at hlen

theorem firstFree_low (hv : Geometry s.ram.vol)
    (hfree : ∀ c, 3 ≤ c → IsDataClus s.ram.vol c → fatEntry s.ram.vol s.card c = 0)
    (hwant : clusWanted s + 1 ≤ clusCount s.ram.vol) :
    IsDataClus s.ram.vol (firstFree s) ∧ fatEntry s.ram.vol s.card (firstFree s) = 0 ∧
      firstFree s ≤ 3 := by
  have hpos : 0 < clusWanted s := clusNeeded_pos hv.secPerClus (preallocSectors_pos s)
  obtain ⟨rest, hl⟩ := freeClus_cons (room_of_free hv hfree hwant) hpos
  have ha : firstFree s ∈ freeClus s.ram.vol s.card := by
    rw [hl]
    exact List.mem_cons_self
  obtain ⟨hdata, hzero⟩ := (mem_freeClus hv).mp ha
  refine ⟨hdata, hzero, ?_⟩
  by_contra hlt
  have h3 := (mem_freeBelow.mp (mem_freeClus_of_free hv hfree le_rfl (by omega))).2
  have hmem3 : 3 ∈ freeBelow (fatTable s.ram.vol s.card) (firstFree s) :=
    mem_freeBelow.mpr ⟨by omega, h3⟩
  rw [freeBelow_head hl] at hmem3
  cases hmem3

/-- A file created on a card with all clusters from 3 on free takes the lowest ones. -/
theorem creates_roomy (fuel : ℕ) (hgood : env.Good) (hv : Geometry s.ram.vol)
    (hroot : RootOk s.ram.vol s.card)
    (hfree : ∀ c, 3 ≤ c → IsDataClus s.ram.vol c → fatEntry s.ram.vol s.card c = 0)
    (hwant : clusWanted s + 1 ≤ clusCount s.ram.vol) (hfuel : clusCount s.ram.vol < fuel)
    (hsearch : searchesSlot env fuel s = true) :
    ∃ s' a off, Creates env fuel s s' ∧ IsDataClus s.ram.vol a ∧ a ≤ 3 ∧
      Counted s.ram.vol a off 0 s' ∧ Roomy s.ram.vol (a + clusWanted s) s' := by
  have hpos : 0 < clusWanted s := clusNeeded_pos hv.secPerClus (preallocSectors_pos s)
  have hroom := room_of_free hv hfree hwant
  obtain ⟨hdata, hzero, hlow⟩ := firstFree_low hv hfree hwant
  have h2 := hdata.1
  have hahead : FreeAhead s := by
    intro j hj
    have hj2 : IsDataClus s.ram.vol (firstFree s + j) := ⟨by omega, by omega⟩
    cases j with
    | zero => exact ⟨hj2, hzero⟩
    | succ j => exact ⟨hj2, hfree _ (by omega) hj2⟩
  obtain ⟨hneeds, s', hopen⟩ := openLog_succeeds fuel hgood hv hroot hroom hfuel hsearch
  obtain ⟨name, p, u, -, hslot⟩ := searchesSlot_run hsearch
  have hcreates : Creates env fuel s s' := ⟨⟨name, p, u, hslot⟩, hopen⟩
  obtain ⟨v, a, off, -, hcounted⟩ := hcreates.counted
  obtain ⟨_, _, _, _, -, -, -, -, -, hnew, rfl⟩ := openLog_new hv hroot hneeds hroom hopen
  have hlaid := hnew.laid hv hroom (hahead.taken hv hroom hpos)
  obtain rfl : v = s.ram.vol := hcounted.vol.symm.trans hlaid.vol
  obtain rfl : a = firstFree s := hcounted.first.symm.trans hlaid.first
  refine ⟨_, firstFree s, off, hcreates, hdata, hlow, hcounted, hlaid.vol, ?_, ?_,
    fun c hc hcd => ?_⟩
  · rw [hlaid.last]
    exact hlaid.data _ le_rfl
  · rw [hlaid.last]
    omega
  · have hout : c ∉ List.range' (firstFree s) (clusWanted s - 1 + 1) := by
      rw [List.mem_range'_1]
      omega
    rw [hlaid.chain.rest c hout, hcd.fatTable hv]
    exact hfree c (by omega) hcd

/-! A volume of 4 GiB. -/

/-- 8396000 clusters of one sector, and a FAT of 65600 sectors. -/
def bigVol : Vol where
  fatLba := 10
  fatSz32 := 65600
  dataLba := 65610
  rootClus := 2
  partLba := 1
  totSec := 8461609
  secPerClus := 1
  numFats := 1

theorem bigVol_geometry : Geometry bigVol := by decide +kernel

/-- Only the root directory has a cluster. -/
def bigDisk : Machine :=
  let s := Machine.mounted bigVol (blankCard (usedFat 3))
  { s with ram := { s.ram with cfg := { configDefaults with preallocCode := 0 } } }

def bigFuel : ℕ := 9000000

theorem bigDisk_root : RootOk bigDisk.ram.vol bigDisk.card :=
  rootOk_single (by decide +kernel) (by decide +kernel)

theorem bigDisk_free {c : ℕ} (h3 : 3 ≤ c) (hc : IsDataClus bigVol c) :
    fatEntry bigVol bigDisk.card c = 0 := by
  have hcount : clusCount bigVol = 8396000 := by decide +kernel
  have hc2 := hc.2
  have hsec : fatSector bigVol c = 10 + c / 128 := Nat.mod_eq_of_lt (by
    change 10 + c / 128 < 2 ^ 32
    omega)
  have hbyte : ∀ i, i < 4 → (bigDisk.card (10 + c / 128)).byte (fatOffset c + i) = 0 := by
    intro i hi
    have hlt : fatOffset c + i < 512 := by
      unfold fatOffset
      omega
    rw [Sector.byte, dif_pos hlt]
    change blankCard (usedFat 3) (10 + c / 128) _ = 0
    by_cases h0 : c / 128 = 0
    · rw [h0]
      change usedFat 3 _ = 0
      rw [usedFat, if_neg]
      change ¬ fatOffset c + i < 12
      unfold fatOffset
      omega
    · rw [blankCard, Function.update_of_ne (by omega)]
  rw [fatEntry, hsec]
  have h0 := hbyte 0 (by decide)
  rw [Nat.add_zero] at h0
  simp only [h0, hbyte 1 (by decide), hbyte 2 (by decide), hbyte 3 (by decide)]
  rfl

theorem bigDisk_runs (hn : n ≤ 2 ^ 23) : ∃ s t, Creates Env.ideal bigFuel bigDisk s ∧
    LogCalls Env.ideal s n t ∧ t.ram.logfile.bytesWritten = u32 (512 * n) := by
  have hgood : Env.ideal.Good := fun _ => rfl
  have hcount : clusCount bigVol = 8396000 := by decide +kernel
  have hwanted : clusWanted bigDisk = 2048 := by decide +kernel
  obtain ⟨s, a, off, hcreates, hdata, hlow, hcounted, hroomy⟩ := creates_roomy bigFuel hgood
    bigVol_geometry bigDisk_root (fun c h3 hc => bigDisk_free h3 hc) (by decide +kernel)
    (by decide +kernel) (by decide +kernel)
  change IsDataClus bigVol a at hdata
  change Counted bigVol a off 0 s at hcounted
  change Roomy bigVol (a + clusWanted bigDisk) s at hroomy
  have hlba : clusToLba bigVol a ≤ 65611 := by
    have h2 := hdata.1
    have hsum : clusToLba bigVol a ≤ 65610 + u32 (u32 (a + 2 ^ 32 - 2) * 1) := u32_le _
    have hoff := u32_le (u32 (a + 2 ^ 32 - 2) * 1)
    have hidx : u32 (a + 2 ^ 32 - 2) = a - 2 := by
      rw [u32]
      omega
    omega
  rw [hwanted] at hroomy
  obtain ⟨t, hrun, -⟩ := hroomy.run hgood bigVol_geometry hcounted
    (bigVol_geometry.dataLba_le hdata) (show a + 2048 + n ≤ clusCount bigVol + 2 by omega)
    (by omega)
  exact ⟨s, t, hcreates, hrun, (hrun.counted hcounted).bytes⟩

/-- On a file created by `fat32_open_log` the counters are exact after a run of calls exactly if
fewer than 2 ^ 23 appends have returned 0. -/
theorem log_cursor_iff (hopen : Creates env0 fuel s s') (hrun : LogCalls env s' n t) :
    CursorOk n t ↔ n < 2 ^ 23 := by
  obtain ⟨v, a, off, hoff, hcounted⟩ := hopen.counted
  exact (hrun.counted hcounted).ok_iff hoff

theorem log_cursor_three : ∃ s t, Creates Env.ideal bigFuel bigDisk s ∧ LogCalls Env.ideal s 3 t ∧
    (CursorOk 3 t ↔ 3 < 2 ^ 23) := by
  obtain ⟨s, t, hcreates, hrun, -⟩ := bigDisk_runs (n := 3) (by decide)
  exact ⟨s, t, hcreates, hrun, log_cursor_iff hcreates hrun⟩

/-- The append that fills the last sector of 4 GiB wraps the byte count to 0. -/
theorem log_cursor_wraps : ∃ s t, Creates Env.ideal bigFuel bigDisk s ∧
    LogCalls Env.ideal s (2 ^ 23) t ∧ t.ram.logfile.bytesWritten = 0 ∧ ¬ CursorOk (2 ^ 23) t := by
  obtain ⟨s, t, hcreates, hrun, hbytes⟩ := bigDisk_runs (n := 2 ^ 23) le_rfl
  have hzero : t.ram.logfile.bytesWritten = 0 := hbytes
  refine ⟨s, t, hcreates, hrun, hzero, fun hok => ?_⟩
  have hexact := hok.bytes
  rw [hzero] at hexact
  omega

end Barelog
