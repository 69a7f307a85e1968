import Barelog.Proofs.Alloc

/-! The creation of a log file: the lowest free clusters become its chain, the sectors from the
first cluster on are erased and zero-filled, and the directory slot is written. -/

namespace Barelog

open Prog Links

/-- The table `fat` has the new chain `l`, and for the rest is `fat0`. -/
structure NewChain (fat0 fat : ℕ → ℕ) (l : List ℕ) : Prop where
  linked : Linked fat l
  ends : fat (l.getLastD 0) = eoc
  rest : ∀ x, x ∉ l → fat x = fat0 x

def taken (s : Machine) (nClus : ℕ) : List ℕ := (freeClus s.ram.vol s.card).take nClus

def newLog (v : Vol) (preallocSz nSectors : ℕ) (l : List ℕ) (p : Slot) : Logfile where
  firstClus := l.headD 0
  lastClus := l.getLastD 0
  curLba := clusToLba v (l.headD 0)
  endLba := u32 (clusToLba v (l.headD 0) + nSectors)
  dirLba := p.1
  dirOffset := p.2
  bytesWritten := 0
  preallocSize := preallocSz

def entryByte (name : Name) (firstClus preallocSz i : ℕ) : Byte :=
  if i < 11 then name i
  else if i = deAttr then 0x20
  else if i = deFstClusHi then .ofNat (firstClus / 2 ^ 16)
  else if i = deFstClusHi + 1 then .ofNat (firstClus / 2 ^ 16 / 2 ^ 8)
  else if i = deFstClusLo then .ofNat (firstClus % 2 ^ 16)
  else if i = deFstClusLo + 1 then .ofNat (firstClus % 2 ^ 16 / 2 ^ 8)
  else if i = deFileSize then .ofNat preallocSz
  else if i = deFileSize + 1 then .ofNat (preallocSz / 2 ^ 8)
  else if i = deFileSize + 2 then .ofNat (preallocSz / 2 ^ 16)
  else if i = deFileSize + 3 then .ofNat (preallocSz / 2 ^ 16 / 2 ^ 8)
  else 0

def stored (b : ℕ → Byte) (off n : ℕ) (f : ℕ → Byte) : ℕ → Byte := fun i =>
  if off ≤ i ∧ i < off + n then f (i - off) else b i

def withEntry (d : Sector) (off : ℕ) (entry : ℕ → Byte) : Sector :=
  fun i => stored d.byte off 32 entry i

def allocChain (fuel nClus : ℕ) : Fw Alloc := do
  let a ← allocLoop nClus fuel 2 ⟨0, 0, 0, 0⟩
  doIf (a.foundClus < nClus) (.fail (.code (-1)))
  fatWriteEntry a.lastClus 0x0FFFFFFF
  pure a

def clearLog (preallocSz nSectors : ℕ) (p : Slot) (a : Alloc) : Fw Unit := do
  let r ← getRam
  let curLba := clusToLba r.vol a.firstClus
  let endLba := u32 (curLba + nSectors)
  setLogfile fun _ => {
    firstClus := a.firstClus
    lastClus := a.lastClus
    curLba := curLba
    endLba := endLba
    dirLba := p.1
    dirOffset := p.2
    bytesWritten := 0
    preallocSize := preallocSz }
  sdErase curLba (u32 (endLba + 2 ^ 32 - 1))
  zeroFill curLba endLba

def enterLog (preallocSz : ℕ) (name : Name) (p : Slot) (a : Alloc) : Fw Unit := do
  sdReadSector p.1 0
  putDirEntry name p.2 a.firstClus preallocSz
  sdWriteSector p.1 0

theorem createLog_eq (fuel preallocSz nSectors nClus : ℕ) (name : Name) (p : Slot) :
    createLog fuel preallocSz nSectors nClus name p.1 p.2 = (do
      let a ← allocChain fuel nClus
      clearLog preallocSz nSectors p a
      enterLog preallocSz name p a) := by
  simp only [createLog, allocChain, clearLog, enterLog, bind_assoc, pure_bind]

variable {env : Env} {s0 s s' : Machine} {I F : Machine → Prop} {v : Vol} {disk card : ℕ → Sector}
  {fat0 fat : ℕ → ℕ}
  {l : List ℕ} {c x val : ℕ} {name : Name} {p : Slot}

/-! The chain. -/

theorem mem_taken {nClus : ℕ} (hx : x ∈ taken s nClus) :
    IsDataClus s.ram.vol x ∧ fatTable s.ram.vol s.card x = 0 := by
  have hmem := List.mem_of_mem_take hx
  exact ⟨.of_freeBelow le_rfl hmem, (mem_freeBelow.mp hmem).2.2⟩

theorem taken_length {nClus : ℕ} (hroom : nClus ≤ (freeClus s.ram.vol s.card).length) :
    (taken s nClus).length = nClus := by
  rw [taken, List.length_take, Nat.min_eq_left hroom]

theorem taken_ne_nil {nClus : ℕ} (hroom : nClus ≤ (freeClus s.ram.vol s.card).length)
    (hn : 0 < nClus) : taken s nClus ≠ [] :=
  List.ne_nil_of_length_pos (by rwa [taken_length hroom])

theorem AllocAt.taken {a : Alloc} {nClus : ℕ} (h : AllocAt s0 c a s) (hn : a.foundClus = nClus) :
    freeBelow (fatTable s0.ram.vol s0.card) c = taken s0 nClus := by
  rw [Barelog.taken, freeClus, ← hn, h.found]
  exact List.prefix_iff_eq_take.mp (freeBelow_initial h.le)

theorem getLastD_mem {l : List ℕ} (hl : l ≠ []) : l.getLastD 0 ∈ l := by
  rw [List.getLastD_eq_getLast?, List.getLast?_eq_some_getLast hl, Option.getD_some]
  exact List.getLast_mem hl

theorem headD_mem {l : List ℕ} (hl : l ≠ []) : l.headD 0 ∈ l := by
  cases l with
  | nil => exact absurd rfl hl
  | cons a l => exact List.mem_cons_self

theorem Built.ends (h : Built fat0 fat l) (hl : l ≠ []) (hnodup : l.Nodup) :
    NewChain fat0 (Function.update fat (l.getLastD 0) eoc) l := by
  rcases List.eq_nil_or_concat l with rfl | ⟨l, p, rfl⟩
  · exact absurd rfl hl
  · rw [List.concat_eq_append] at h hnodup ⊢
    rw [List.getLastD_concat]
    refine ⟨h.1.congr fun x hx => Function.update_of_ne ?_ _ _, ?_, fun x hx => ?_⟩
    · rw [List.dropLast_concat] at hx
      rintro rfl
      exact (List.nodup_append.mp hnodup).2.2 x hx x (List.mem_singleton_self x) rfl
    · rw [List.getLastD_concat, Function.update_self]
    · rw [Function.update_of_ne fun he => hx (by simp [he])]
      exact h.2 x fun hmem => hx (List.mem_of_mem_dropLast hmem)

theorem NewChain.grown (h : NewChain fat0 fat l) (hl : ∀ x ∈ l, IsDataClus v x) (hne : l ≠ []) :
    Grown v fat0 fat := by
  intro x
  by_cases hx : x ∈ l
  · refine .inr ⟨hl x hx, ?_⟩
    by_cases hlast : x ∈ l.dropLast
    · exact .inl (hl _ (h.linked.next_mem hlast))
    · have hx' : x = l.getLastD 0 := by
        rw [← List.dropLast_append_getLast hne, List.mem_append, List.mem_singleton] at hx
        rw [List.getLastD_eq_getLast?, List.getLast?_eq_some_getLast hne]
        exact hx.resolve_left hlast
      exact .inr (hx' ▸ h.ends)
  · exact .inl (h.rest x hx)

theorem allocChain_cases {fuel nClus : ℕ} {r : Except Stop Alloc} (hv : Geometry s0.ram.vol)
    (hcarry : Carried env s0 I F) (hI : I s0)
    (hroom : nClus ≤ (freeClus s0.ram.vol s0.card).length) (hn : 0 < nClus)
    (hrun : (allocChain fuel nClus).run (fwStep env) s0 = (r, s')) :
    (∃ a fat, r = .ok a ∧ Edited s0 fat s' ∧
      NewChain (fatTable s0.ram.vol s0.card) fat (taken s0 nClus) ∧
      a.firstClus = (taken s0 nClus).headD 0 ∧ a.lastClus = (taken s0 nClus).getLastD 0 ∧ I s') ∨
    ∃ e fat, r = .error e ∧ Edited s0 fat s' ∧
      Grown s0.ram.vol (fatTable s0.ram.vol s0.card) fat ∧ F s' ∧
      ((∃ n, e = .code n) ∨ e = .hang ∧ fuel ≤ clusCount s0.ram.vol) := by
  have hne := taken_ne_nil hroom hn
  have hdata : ∀ x ∈ taken s0 nClus, IsDataClus s0.ram.vol x := fun x hx => (mem_taken hx).1
  rw [allocChain] at hrun
  rcases bind_ended hrun with ⟨a, s1, hloop, hrest⟩ | ⟨e, hloop, rfl⟩
  · rcases allocLoop_cases hv hcarry hroom (.start s0) hI (Nat.zero_le _) hloop with
      ⟨_, c, ha, hat, hI1, hfound⟩ | ⟨_, _, hbad, _⟩
    · cases ha
      have htaken := hat.taken hfound
      obtain ⟨⟨fat, hedit, hbuilt⟩, hfirst, hlast, _⟩ := hat
      rw [htaken] at hbuilt hfirst hlast
      rw [doIf, if_neg (by omega)] at hrest
      have hp := hdata _ (getLastD_mem hne)
      have hfree := (mem_taken (getLastD_mem hne)).2
      have hnodup : (taken s0 nClus).Nodup := htaken ▸ freeBelow_nodup _ _
      rw [pure_bind, hlast] at hrest
      rcases bind_ended hrest with ⟨_, s2, hwrite, hpure⟩ | ⟨e, hwrite, rfl⟩
      · have hI2 := (hcarry.write hI1 hedit.ram hp hfree (by decide) hwrite).1 rfl
        rcases hedit.write hv hp (by decide) hwrite with ⟨_, hedit2⟩ | ⟨_, hbad, _⟩
        · cases hpure
          exact .inl ⟨a, _, rfl, hedit2, hbuilt.ends hne hnodup, hfirst, hlast, hI2⟩
        · cases hbad
      · have hgrown := hbuilt.grown hdata
        have hF := (hcarry.write hI1 hedit.ram hp hfree (by decide) hwrite).2
        rcases hedit.write hv hp (by decide) hwrite with ⟨hbad, _⟩ | ⟨n, he, hedit2⟩
        · cases hbad
        · cases he
          rcases hedit2 with hedit2 | hedit2
          · exact .inr ⟨_, _, rfl, hedit2, hgrown, hF, .inl ⟨n, rfl⟩⟩
          · exact .inr ⟨_, _, rfl, hedit2, hgrown.update hp (.inr rfl), hF, .inl ⟨n, rfl⟩⟩
    · cases hbad
  · rcases allocLoop_cases hv hcarry hroom (.start s0) hI (Nat.zero_le _) hloop with
      ⟨_, _, hbad, _⟩ | ⟨_, fat, he, hedit, hgrown, hF, hend⟩
    · cases hbad
    · cases he
      refine .inr ⟨_, fat, rfl, hedit, hgrown, hF, hend.imp id fun h => ⟨h.1, ?_⟩⟩
      have := h.2
      omega

/-! The sectors of the file. -/

/-- Sectors `lba` to `lba + n - 1` have been erased, and filled with zeros up to `k`. -/
structure Cleared (s : Machine) (lba n k : ℕ) (s' : Machine) : Prop where
  reach : ∃ card, Scratch (s.onCard card (.erase lba (u32 (u32 (lba + n) + 2 ^ 32 - 1)) ::
      (List.range' lba (k - lba)).map .zero)) s' ∧
    (∀ x, x < lba ∨ lba + n ≤ x → card x = s.card x) ∧ ∀ x, lba ≤ x → x < k → card x = fun _ => 0

/-- `sd_erase` and the zero-fill of `n` sectors, as in a creation and in an extension. -/
def clearSectors (lba n : ℕ) : Fw Unit := do
  sdErase lba (u32 (u32 (lba + n) + 2 ^ 32 - 1))
  zeroFill lba (u32 (lba + n))

theorem Cleared.scratch {lba n k : ℕ} (h : Cleared s lba n k s') {s1 : Machine}
    (hs : Scratch s' s1) : Cleared s lba n k s1 := by
  obtain ⟨card, hreach, hrest⟩ := h
  exact ⟨card, hreach.trans hs, hrest⟩

theorem u32_le (n : ℕ) : u32 n ≤ n := Nat.mod_le _ _

theorem u32_of_lt {n : ℕ} (h : n < 2 ^ 32) : u32 n = n := Nat.mod_eq_of_lt h

theorem u32_lt (n : ℕ) : u32 n < 2 ^ 32 := Nat.mod_lt _ (by decide)

theorem sdErase_run (env : Env) (a b : ℕ) (s : Machine) :
    (sdErase a b).run (fwStep env) s = (.ok (), s.eraseRange env a b) := rfl

theorem cleared_erase {lba n : ℕ} (env : Env) (hlba : lba < 2 ^ 32) (hn : 0 < n)
    (hn32 : n < 2 ^ 32) :
    Cleared s lba n lba (s.eraseRange env lba (u32 (u32 (lba + n) + 2 ^ 32 - 1))) := by
  set s1 := s.eraseRange env lba (u32 (u32 (lba + n) + 2 ^ 32 - 1)) with hs1
  have hreach : Scratch (s.onCard s1.card [.erase lba (u32 (u32 (lba + n) + 2 ^ 32 - 1))]) s1 :=
    ⟨s.ring, s.block, s.reqs + 1, fun _ _ => rfl, rfl⟩
  refine ⟨s1.card, ?_, fun x hx => ?_, fun x h1 h2 => absurd h2 (by omega)⟩
  · rwa [Nat.sub_self]
  · refine if_neg fun hin => ?_
    unfold u32 at hin
    omega

theorem Cleared.zero {lba n k : ℕ} {r : Except Stop Unit} (h : Cleared s lba n k s')
    (hk : lba ≤ k) (hlt : k < lba + n) {s1 : Machine}
    (hrun : (sdWriteZeroSector k).run (fwStep env) s' = (r, s1)) :
    (r = .ok () ∧ Cleared s lba n (k + 1) s1) ∨
      ∃ e, r = .error e ∧ (∃ m, e = .code m) ∧ (Cleared s lba n k s1 ∨ Cleared s lba n (k + 1) s1) := by
  have hwrote : ∀ m, Cleared s lba n (k + 1) (s'.wrote k (fun _ => 0) (.zero k) m) := by
    intro m
    obtain ⟨card, hreach, hout, hin⟩ := h
    refine ⟨Function.update card k fun _ => 0, ?_, fun x hx => ?_, fun x h1 h2 => ?_⟩
    · rw [show k + 1 - lba = k - lba + 1 by omega, List.range'_concat, Nat.one_mul,
        show lba + (k - lba) = k by omega, List.map_append, List.map_singleton,
        ← List.cons_append, ← onCard_onCard]
      have hcard : s'.card = card := hreach.card
      refine (hreach.onCard _ _).trans ?_
      rw [← hcard]
      exact scratch_wrote s' k _ _ m
    · rw [Function.update_of_ne (by omega)]
      exact hout x hx
    · by_cases hx : x = k
      · rw [hx, Function.update_self]
      · rw [Function.update_of_ne hx]
        exact hin x h1 (by omega)
  rw [sdWriteZeroSector_run] at hrun
  cases send_cases hrun with
  | ok m => exact .inl ⟨rfl, hwrote m⟩
  | landed a m => exact .inr ⟨_, rfl, ⟨a, rfl⟩, .inr (hwrote m)⟩
  | lost a m => exact .inr ⟨_, rfl, ⟨a, rfl⟩, .inl (h.scratch (scratch_unwritten _ _))⟩

theorem clearSectors_cases {lba n : ℕ} {r : Except Stop Unit} (hlba : lba < 2 ^ 32) (hn : 0 < n)
    (hn32 : n < 2 ^ 32) (hrun : (clearSectors lba n).run (fwStep env) s = (r, s')) :
    (r = .ok () ∧ Cleared s lba n (u32 (lba + n)) s') ∨
      ∃ e, r = .error e ∧ (∃ m, e = .code m) ∧ ∃ k, k ≤ lba + n ∧ Cleared s lba n k s' := by
  have hstart := cleared_erase (s := s) env hlba hn hn32
  have hend : u32 (lba + n) ≤ lba + n := u32_le _
  rw [clearSectors, run_bind_ok (sdErase_run _ _ _ _), zeroFill] at hrun
  have hstep : ∀ k t r t', lba ≤ k → k < lba + (u32 (lba + n) - lba) → Cleared s lba n k t →
      (sdWriteZeroSector k).run (fwStep env) t = (r, t') →
      (r = .ok () ∧ Cleared s lba n (k + 1) t') ∨
        ∃ e, r = .error e ∧ (∃ m, e = .code m) ∧ ∃ k, k ≤ lba + n ∧ Cleared s lba n k t' := by
    intro k t r t' h1 h2 ht hrun
    refine (ht.zero h1 (by omega) hrun).imp id ?_
    rintro ⟨e, rfl, he, hk | hk⟩
    · exact ⟨e, rfl, he, k, by omega, hk⟩
    · exact ⟨e, rfl, he, k + 1, by omega, hk⟩
  refine (forUp_ended hstep hstart hrun).imp (fun h => ⟨h.1, ?_⟩) id
  by_cases hle : lba ≤ u32 (lba + n)
  · have := h.2
    rwa [show lba + (u32 (lba + n) - lba) = u32 (lba + n) by omega] at this
  · -- the end has wrapped: no sector is filled
    have := h.2
    rw [show lba + (u32 (lba + n) - lba) = lba by omega] at this
    obtain ⟨card, hreach, hout, _⟩ := this
    rw [Nat.sub_self] at hreach
    refine ⟨card, ?_, hout, fun x h1 h2 => by omega⟩
    rwa [show u32 (lba + n) - lba = 0 by omega]

theorem clearLog_run (preallocSz nSectors : ℕ) (p : Slot) (a : Alloc) (s : Machine) :
    (clearLog preallocSz nSectors p a).run (fwStep env) s =
      (clearSectors (clusToLba s.ram.vol a.firstClus) nSectors).run (fwStep env) (s.withLogfile {
        firstClus := a.firstClus
        lastClus := a.lastClus
        curLba := clusToLba s.ram.vol a.firstClus
        endLba := u32 (clusToLba s.ram.vol a.firstClus + nSectors)
        dirLba := p.1
        dirOffset := p.2
        bytesWritten := 0
        preallocSize := preallocSz }) := by
  rw [clearLog, getRam_bind, run_bind_ok (setLogfile_run _ _ _), clearSectors]

/-! The directory slot. -/

theorem ringFill_run (env : Env) (off n : ℕ) (f : ℕ → Byte) (s : Machine) :
    Prog.run (fwStep env) (Prog.forUp 0 n fun i => ringSet (off + i) (f i)) s =
      (.ok (), { s with ring := stored s.ring off n f }) := by
  have hstep : ∀ k, 0 ≤ k → k < 0 + n → (ringSet (off + k) (f k)).run (fwStep env)
      { s with ring := stored s.ring off k f } =
        (.ok (), { s with ring := stored s.ring off (k + 1) f }) := by
    intro k _ _
    have hring : Function.update (stored s.ring off k f) (off + k) (f k) =
        stored s.ring off (k + 1) f := by
      funext i
      unfold stored
      by_cases hi : i = off + k
      · rw [hi, Function.update_self, if_pos (by omega), Nat.add_sub_cancel_left]
      · rw [Function.update_of_ne hi]
        congr 1
        exact propext ⟨fun h => ⟨h.1, by omega⟩, fun h => ⟨h.1, by omega⟩⟩
    rw [ringSet_run, hring]
  have hloop := forUp_run (fun k => { s with ring := stored s.ring off k f }) hstep
  have hzero : stored s.ring off 0 f = s.ring := funext fun i => if_neg (by omega)
  rwa [hzero, Nat.zero_add] at hloop

theorem putDirEntry_run (env : Env) (name : Name) (off firstClus preallocSz : ℕ) (s : Machine) :
    (putDirEntry name off firstClus preallocSz).run (fwStep env) s =
      (.ok (), { s with ring := stored s.ring off 32 (entryByte name firstClus preallocSz) }) := by
  rw [putDirEntry, run_bind_ok (ringFill_run env off 32 (fun _ => 0) s),
    run_bind_ok (ringFill_run env off 11 name _)]
  simp only [ringSet16, ringSet32, run_bind, ringSet_run, Prod.mk.injEq, true_and]
  congr 1
  funext i
  by_cases hin : off ≤ i ∧ i < off + 32
  · obtain ⟨k, rfl⟩ := Nat.exists_eq_add_of_le hin.1
    have hk : k < 32 := by omega
    simp only [Function.update_apply, stored, Nat.add_assoc, Nat.add_left_cancel_iff,
      Nat.le_add_right, true_and, Nat.add_lt_add_iff_left, Nat.add_sub_cancel_left, hk, if_true,
      deAttr, deFstClusHi, deFstClusLo, deFileSize, entryByte]
    interval_cases k <;> simp
  · -- no store is outside the slot
    have hne : ∀ k, k < 32 → i ≠ off + k := fun k hk he => hin (by omega)
    rw [stored, if_neg hin]
    simp only [Nat.add_assoc]
    rw [Function.update_of_ne (hne _ (by decide)), Function.update_of_ne (hne _ (by decide)),
      Function.update_of_ne (hne _ (by decide)), Function.update_of_ne (hne _ (by decide)),
      Function.update_of_ne (hne _ (by decide)), Function.update_of_ne (hne _ (by decide)),
      Function.update_of_ne (hne _ (by decide)), Function.update_of_ne (hne _ (by decide)),
      Function.update_of_ne (hne _ (by decide)), stored, if_neg (by omega), stored, if_neg hin]

theorem stored_inSector {off n : ℕ} (hoff : off + n ≤ 512) (f : ℕ → Byte) :
    InSector fun b => stored b off n f where
  outside b i hi := if_neg (by omega)
  inside b b' h i hi := by
    unfold stored
    rw [h i hi]

/-- The directory slot is written, or the sector could not be read or written. -/
theorem enterLog_cases {preallocSz : ℕ} {a : Alloc} {r : Except Stop Unit} (hoff : p.2 + 32 ≤ 512)
    (hrun : (enterLog preallocSz name p a).run (fwStep env) s = (r, s')) :
    let d := withEntry (s.card p.1) p.2 (entryByte name a.firstClus preallocSz)
    (r = .ok () ∧ Scratch (s.onCard (Function.update s.card p.1 d) [.write p.1 d]) s') ∨
      ∃ n, r = .error (.code n) ∧ (Scratch s s' ∨
        Scratch (s.onCard (Function.update s.card p.1 d) [.write p.1 d]) s') := by
  exact rewrite_cases (stored_inSector hoff _) (putDirEntry_run env _ _ _ _) hrun

/-! The whole creation. -/

def clearEvents (lba n : ℕ) : List CardEvent :=
  .erase lba (u32 (u32 (lba + n) + 2 ^ 32 - 1)) ::
    (List.range' lba (u32 (lba + n) - lba)).map .zero

/-- A file with the clusters `l` has been created from `s0`. -/
structure Created (s0 : Machine) (preallocSz nSectors : ℕ) (l : List ℕ) (name : Name) (p : Slot)
    (s' : Machine) : Prop where
  ram : s'.ram = { s0.ram with logfile := newLog s0.ram.vol preallocSz nSectors l p }
  eeprom : s'.eeprom = s0.eeprom
  chain : NewChain (fatTable s0.ram.vol s0.card) (fatTable s0.ram.vol s'.card) l
  events : ∃ evs, s'.events = s0.events ++ evs ++
      clearEvents (clusToLba s0.ram.vol (l.headD 0)) nSectors ++ [.write p.1 (s'.card p.1)] ∧
    ∀ e ∈ evs, ∃ c, IsDataClus s0.ram.vol c ∧ IsFatWrite s0.ram.vol c e
  outside : ∀ lba, ¬ InFat s0.ram.vol lba → lba ≠ p.1 →
    (lba < clusToLba s0.ram.vol (l.headD 0) ∨
      clusToLba s0.ram.vol (l.headD 0) + nSectors ≤ lba) → s'.card lba = s0.card lba
  slot : ∃ d, s'.card p.1 = withEntry d p.2 (entryByte name (l.headD 0) preallocSz) ∧
    (p.1 < clusToLba s0.ram.vol (l.headD 0) ∨
      clusToLba s0.ram.vol (l.headD 0) + nSectors ≤ p.1 → d = s0.card p.1)

theorem fatTable_congr (hv : Geometry v) (h : ∀ lba, lba < v.dataLba → card lba = disk lba) :
    fatTable v card = fatTable v disk := by
  funext x
  unfold fatTable
  split
  · rename_i hx
    have hsec : fatSector v x < v.dataLba := by
      obtain ⟨heq, hlt⟩ := hv.fatCopySector_eq hx hv.numFats
      rw [hv.fatSector_eq hx]
      omega
    rw [fatEntry, fatEntry, h _ hsec]
  · rfl

theorem fatTable_update (hv : Geometry v) {lba : ℕ} (hlba : v.dataLba ≤ lba) (d : Sector) :
    fatTable v (Function.update card lba d) = fatTable v card :=
  fatTable_congr hv fun x hx => Function.update_of_ne (by omega) _ _

theorem Cleared.ram {lba n k : ℕ} (h : Cleared s lba n k s') : s'.ram = s.ram := by
  obtain ⟨_, hreach, _⟩ := h
  exact hreach.ram

theorem Cleared.eeprom {lba n k : ℕ} (h : Cleared s lba n k s') : s'.eeprom = s.eeprom := by
  obtain ⟨_, hreach, _⟩ := h
  exact hreach.eeprom

theorem Cleared.outside {lba n k : ℕ} (h : Cleared s lba n k s') (hx : x < lba ∨ lba + n ≤ x) :
    s'.card x = s.card x := by
  obtain ⟨card, hreach, hout, _⟩ := h
  rw [hreach.card]
  exact hout x hx

theorem Cleared.events {lba n : ℕ} (h : Cleared s lba n (u32 (lba + n)) s') :
    s'.events = s.events ++ clearEvents lba n := by
  obtain ⟨_, hreach, _⟩ := h
  exact hreach.events

theorem Cleared.table {lba n k : ℕ} (hv : Geometry v) (h : Cleared s lba n k s')
    (hlba : v.dataLba ≤ lba) : fatTable v s'.card = fatTable v s.card :=
  fatTable_congr hv fun x hx => h.outside (.inl (by omega))

theorem clusToLba_lt (v : Vol) (c : ℕ) : clusToLba v c < 2 ^ 32 := u32_lt _

theorem Edited.created {preallocSz nSectors : ℕ} {s1 s2 : Machine} (hv : Geometry s0.ram.vol)
    (hedit : Edited s0 fat s1)
    (hchain : NewChain (fatTable s0.ram.vol s0.card) (fatTable s0.ram.vol s1.card) l)
    (hlba : s0.ram.vol.dataLba ≤ clusToLba s0.ram.vol (l.headD 0))
    (hs2 : Cleared (s1.withLogfile (newLog s0.ram.vol preallocSz nSectors l p))
      (clusToLba s0.ram.vol (l.headD 0)) nSectors
      (u32 (clusToLba s0.ram.vol (l.headD 0) + nSectors)) s2)
    (hp : s0.ram.vol.dataLba ≤ p.1)
    (hs' : Scratch (s2.onCard (Function.update s2.card p.1 (withEntry (s2.card p.1) p.2
        (entryByte name (l.headD 0) preallocSz))) [.write p.1 (withEntry (s2.card p.1) p.2
        (entryByte name (l.headD 0) preallocSz))]) s') :
    Created s0 preallocSz nSectors l name p s' := by
  have htable := hs2.table hv hlba
  have hcard := hs'.card
  have hram := hs'.ram.trans hs2.ram
  have heeprom := hs'.eeprom.trans hs2.eeprom
  rw [Machine.onCard] at hcard
  rw [Machine.withLogfile] at htable hram heeprom
  have hself : s'.card p.1 = withEntry (s2.card p.1) p.2
      (entryByte name (l.headD 0) preallocSz) := by
    rw [hcard]
    exact Function.update_self _ _ _
  refine ⟨?_, heeprom.trans hedit.eeprom, ?_, ?_, fun x hx hxp hout => ?_, _, hself, ?_⟩
  · rw [hram, hedit.ram]
  · rwa [hcard, fatTable_update hv hp, htable]
  · obtain ⟨card, evs, hreach, hevs, _⟩ := hedit.reach
    have hevs1 : s1.events = s0.events ++ evs := hreach.events
    have hevs2 : s2.events = s1.events ++ _ := hs2.events
    refine ⟨evs, ?_, hevs⟩
    rw [hself, ← hevs1, ← hevs2]
    exact hs'.events
  · rw [hcard]
    exact (Function.update_of_ne hxp _ _).trans ((hs2.outside hout).trans (hedit.rest hx))
  · exact fun hout => (hs2.outside hout).trans (hedit.rest fun h => absurd h.2 (by omega))

/-- A creation with free data clusters enough succeeds, or stops with a FAT in which only data
clusters have been linked. -/
theorem createLog_cases {fuel preallocSz nSectors nClus : ℕ} {r : Except Stop Unit}
    (hv : Geometry s0.ram.vol) (hroom : nClus ≤ (freeClus s0.ram.vol s0.card).length)
    (hn : 0 < nClus) (hsec : 0 < nSectors) (hsec32 : nSectors < 2 ^ 32)
    (hp : s0.ram.vol.dataLba ≤ p.1) (hoff : p.2 + 32 ≤ 512)
    (hrun : (createLog fuel preallocSz nSectors nClus name p.1 p.2).run (fwStep env) s0 = (r, s')) :
    (r = .ok () ∧ Created s0 preallocSz nSectors (taken s0 nClus) name p s') ∨
      ∃ e, r = .error e ∧ ((∃ n, e = .code n) ∨ e = .hang ∧ fuel ≤ clusCount s0.ram.vol) ∧
        Grown s0.ram.vol (fatTable s0.ram.vol s0.card) (fatTable s0.ram.vol s'.card) := by
  have hne := taken_ne_nil hroom hn
  have hdata : ∀ x ∈ taken s0 nClus, IsDataClus s0.ram.vol x := fun x hx => (mem_taken hx).1
  rw [createLog_eq] at hrun
  rcases bind_ended hrun with ⟨a, s1, halloc, hrest⟩ | ⟨e, halloc, rfl⟩
  swap
  · rcases allocChain_cases hv (carried_nothing env s0) trivial hroom hn halloc with
      ⟨_, _, hbad, _⟩ | ⟨_, fat, he, hedit, hgrown, -, hend⟩
    · cases hbad
    · cases he
      exact .inr ⟨_, rfl, hend, hedit.table ▸ hgrown⟩
  rcases allocChain_cases hv (carried_nothing env s0) trivial hroom hn halloc with
    ⟨_, fat, ha, hedit, hchain, hfirst, hlast, -⟩ | ⟨_, _, hbad, _⟩
  swap
  · cases hbad
  cases ha
  have hgrown := hchain.grown hdata hne
  have hlba := hv.dataLba_le (hdata _ (headD_mem hne))
  rw [← hedit.table] at hgrown hchain
  rcases bind_ended hrest with ⟨_, s2, hclear, henter⟩ | ⟨e, hclear, rfl⟩
  swap
  · rw [clearLog_run, hedit.ram, hfirst] at hclear
    rcases clearSectors_cases (clusToLba_lt _ _) hsec hsec32 hclear with ⟨hbad, _⟩ | ⟨_, he, hcode, k, _, hk⟩
    · cases hbad
    · cases he
      exact .inr ⟨_, rfl, .inl hcode, (hk.table hv hlba).symm ▸ hgrown⟩
  rw [clearLog_run, hedit.ram, hfirst, hlast] at hclear
  rcases clearSectors_cases (clusToLba_lt _ _) hsec hsec32 hclear with ⟨_, hs2⟩ | ⟨_, hbad, _⟩
  swap
  · cases hbad
  have htable := hs2.table hv hlba
  rw [Machine.withLogfile] at htable
  rcases enterLog_cases hoff henter with ⟨rfl, hs'⟩ | ⟨n, rfl, hs' | hs'⟩
  · rw [hfirst] at hs'
    exact .inl ⟨rfl, hedit.created hv hchain hlba hs2 hp hs'⟩
  · rw [hs'.card, htable]
    exact .inr ⟨_, rfl, .inl ⟨n, rfl⟩, hgrown⟩
  · have hcard := hs'.card
    rw [Machine.onCard] at hcard
    rw [hcard, fatTable_update hv hp, htable]
    exact .inr ⟨_, rfl, .inl ⟨n, rfl⟩, hgrown⟩

end Barelog
