import Barelog.Proofs.Reopen

/-! The cursor of the log file. An append that returns 0 advances `cur_lba` and `bytes_written`
together, so each can be computed from the other until the byte count wraps. -/

namespace Barelog

open Prog

variable {env env0 : Env} {s s' t t' : Machine} {fuel n : ℕ}

/-- The calls on an open log file, each of which may fail at any request to the card; `n` appends
have returned 0. -/
inductive LogCalls (env : Env) (s : Machine) : ℕ → Machine → Prop
  | opened : LogCalls env s 0 s
  | idle {n : ℕ} {t t' : Machine} (ht : LogCalls env s n t) (hidle : Idle t t') : LogCalls env s n t'
  | append {n : ℕ} {t t' : Machine} (call : AppendCall) (ht : LogCalls env s n t)
      (hlen : call.lenA + call.lenB = 512) (hrun : call.code.run (fwStep env) t = (.ok (), t')) :
      LogCalls env s (n + 1) t'
  | refused {n : ℕ} {t t' : Machine} {e : Stop} (call : AppendCall) (ht : LogCalls env s n t)
      (hlen : call.lenA + call.lenB = 512) (hrun : call.code.run (fwStep env) t = (.error e, t')) :
      LogCalls env s n t'
  | flush {n : ℕ} {t t' : Machine} {r : Except Stop Unit} (ht : LogCalls env s n t)
      (hrun : fat32Flush.run (fwStep env) t = (r, t')) : LogCalls env s n t'

/-- The counters after `n` appends: the bytes written, the cursor that the resume path would compute
from them, and the size that `fat32_flush` would store in the directory entry. -/
structure CursorOk (n : ℕ) (t : Machine) : Prop where
  bytes : t.ram.logfile.bytesWritten = 512 * n
  cursor : t.ram.logfile.curLba =
    u32 (clusToLba t.ram.vol t.ram.logfile.firstClus + t.ram.logfile.bytesWritten / 512)
  size : le32 (sizedSector (t.card t.ram.logfile.dirLba) t.ram.logfile).byte
    (t.ram.logfile.dirOffset + deFileSize) = 512 * n

structure Counted (v : Vol) (a off n : ℕ) (t : Machine) : Prop where
  vol : t.ram.vol = v
  first : t.ram.logfile.firstClus = a
  offset : t.ram.logfile.dirOffset = off
  bytes : t.ram.logfile.bytesWritten = u32 (512 * n)
  cursor : t.ram.logfile.curLba = u32 (clusToLba v a + n)

variable {v : Vol} {a off : ℕ}

/-! What a call does to the counters. -/

theorem Counted.idle (h : Counted v a off n t) (hidle : Idle t t') :
    Counted v a off n t' := by
  obtain ⟨_, _, _, _, _, _, rfl⟩ := hidle
  exact ⟨h.vol, h.first, h.offset, h.bytes, h.cursor⟩

theorem Counted.of_ram (h : Counted v a off n t) (hram : t'.ram = t.ram) :
    Counted v a off n t' := by
  constructor
  · rw [hram, h.vol]
  · rw [hram, h.first]
  · rw [hram, h.offset]
  · rw [hram, h.bytes]
  · rw [hram, h.cursor]

theorem Counted.makeRoom {fuel : ℕ} {l : Logfile} {r : Except Stop Unit}
    (h : Counted v a off n t)
    (hrun : (makeRoom fuel l).run (fwStep env) t = (r, t')) : Counted v a off n t' := by
  obtain ⟨⟨endLba, lastClus, hram⟩, -⟩ := makeRoom_keeps hrun
  constructor
  · rw [hram]
    exact h.vol
  · rw [hram]
    exact h.first
  · rw [hram]
    exact h.offset
  · rw [hram]
    exact h.bytes
  · rw [hram]
    exact h.cursor

theorem Counted.append {call : AppendCall} {r : Except Stop Unit} (h : Counted v a off n t)
    (hlen : call.lenA + call.lenB = 512) (hrun : call.code.run (fwStep env) t = (r, t')) :
    (r = .ok () ∧ Counted v a off (n + 1) t') ∨ r ≠ .ok () ∧ Counted v a off n t' := by
  have hstop : ∀ e, (.error e : Except Stop Unit) ≠ .ok () := fun _ h => by cases h
  rcases append_cases hrun with ⟨u, hroom, ⟨rfl, hend⟩ | ⟨c, rfl, hend | hend⟩⟩ | ⟨e, rfl, hroom⟩
  · have hu := h.makeRoom hroom
    refine .inl ⟨rfl, ?_, ?_, ?_, ?_, ?_⟩
    · rw [hend.ram]
      exact hu.vol
    · rw [hend.ram]
      exact hu.first
    · rw [hend.ram]
      exact hu.offset
    · rw [hend.ram]
      change u32 (u.ram.logfile.bytesWritten + (call.lenA + call.lenB)) = _
      rw [hu.bytes, hlen, u32, u32, u32]
      omega
    · rw [hend.ram]
      change u32 (u.ram.logfile.curLba + 1) = _
      rw [hu.cursor, u32, u32, u32]
      omega
  · exact .inr ⟨hstop _, (h.makeRoom hroom).of_ram hend.ram⟩
  · exact .inr ⟨hstop _, (h.makeRoom hroom).of_ram hend.ram⟩
  · exact .inr ⟨hstop _, h.makeRoom hroom⟩

theorem Counted.flush {r : Except Stop Unit} (h : Counted v a off n t)
    (hrun : fat32Flush.run (fwStep env) t = (r, t')) : Counted v a off n t' := by
  obtain ⟨r1, t1, hrun1, -, hram, -⟩ := fat32Flush_run env t
  obtain ⟨rfl, rfl⟩ := Prod.mk.inj (hrun.symm.trans hrun1)
  exact h.of_ram hram

theorem LogCalls.counted (hs : Counted v a off 0 s) (h : LogCalls env s n t) :
    Counted v a off n t := by
  induction h with
  | opened => exact hs
  | idle ht hidle ih => exact ih.idle hidle
  | append call ht hlen hrun ih =>
    rcases ih.append hlen hrun with ⟨-, hend⟩ | ⟨hbad, -⟩
    · exact hend
    · exact absurd rfl hbad
  | refused call ht hlen hrun ih =>
    rcases ih.append hlen hrun with ⟨hbad, -⟩ | ⟨-, hend⟩
    · cases hbad
    · exact hend
  | flush ht hrun ih => exact ih.flush hrun

/-- The counters are exact as long as the byte count has not wrapped. -/
theorem Counted.ok_iff (h : Counted v a off n t) (hoff : off + 32 ≤ 512) :
    CursorOk n t ↔ n < 2 ^ 23 := by
  have hbytes := h.bytes
  have hsize := sizedSector_size (t.card t.ram.logfile.dirLba) t.ram.logfile (by rwa [h.offset])
  rw [u32] at hbytes
  constructor
  · intro hok
    have hexact := hok.bytes
    omega
  · intro hn
    have hexact : t.ram.logfile.bytesWritten = 512 * n := by omega
    refine ⟨hexact, ?_, ?_⟩
    · rw [h.cursor, h.vol, h.first, hexact, Nat.mul_div_cancel_left n (by decide)]
    · rw [hsize, hexact]
      omega

/-! A new file. -/

/-- The counters of a file that has just been created. -/
theorem createLog_counted {preallocSz nSectors nClus : ℕ} {name : Name} {p : Slot}
    (hrun : (createLog fuel preallocSz nSectors nClus name p.1 p.2).run (fwStep env) s =
      (.ok (), s')) : ∃ a, Counted s.ram.vol a p.2 0 s' := by
  rw [createLog_eq] at hrun
  obtain ⟨al, u1, halloc, hrun⟩ := bind_returned hrun
  obtain ⟨_, u2, hclear, henter⟩ := bind_returned hrun
  have hkept1 : RamKept (fun r => r.vol = s.ram.vol) (allocChain fuel nClus) := allocChain_ram _ _
  obtain ⟨hvol, -⟩ := hkept1.run rfl halloc
  rw [clearLog_run] at hclear
  generalize hl : u1.withLogfile _ = u at hclear
  have hu : Counted s.ram.vol al.firstClus p.2 0 u := by
    rw [← hl]
    refine ⟨hvol, rfl, rfl, rfl, ?_⟩
    change clusToLba u1.ram.vol al.firstClus = _
    rw [hvol, Nat.add_zero, u32_of_lt (clusToLba_lt _ _)]
  have hkept2 : RamKept (fun r => r = u.ram) (clearSectors (clusToLba u1.ram.vol al.firstClus)
      nSectors) := clearSectors_ram _ _
  have hkept3 : RamKept (fun r => r = u.ram) (enterLog preallocSz name p al) := enterLog_ram _ _ _ _
  obtain ⟨hram2, -⟩ := hkept2.run rfl hclear
  obtain ⟨hram3, -⟩ := hkept3.run hram2 henter
  exact ⟨al.firstClus, hu.of_ram hram3⟩

theorem Creates.counted (h : Creates env fuel s s') :
    ∃ v a off, off + 32 ≤ 512 ∧ Counted v a off 0 s' := by
  obtain ⟨name, p, u, m, t, hoff, -, -, hcreate, rfl⟩ := h.created
  obtain ⟨a, hcounted⟩ := createLog_counted hcreate
  exact ⟨_, a, p.2, hoff, hcounted.vol, hcounted.first, hcounted.offset, hcounted.bytes,
    hcounted.cursor⟩

end Barelog
