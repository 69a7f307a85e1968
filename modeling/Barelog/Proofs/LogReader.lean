import Barelog.Proofs.LogSession

/-! What a program that reads the card finds in a log file: after any calls, failed ones among them,
the sectors of the last commit. A power loss takes nothing away from that. -/

namespace Barelog

open Prog Labelled

variable {env : Env} {s s' s0 t t1 t2 : Machine} {l : List ℕ} {lg : CommitLog.Log Sector} {fuel : ℕ}
  {card : ℕ → Sector} {v : Vol} {p : Slot} {d : Sector}

/-- `fat32_open_log` returns 0 after the creation of a file with consecutive clusters, on a good
volume with the root directory clusters `l`. -/
structure NewLog (env : Env) (fuel : ℕ) (s s0 : Machine) (l : List ℕ) : Prop where
  geometry : Geometry s.ram.vol
  root : RootOk s.ram.vol s.card
  chain : RootChain s.ram.vol s.card l
  ahead : FreeAhead s
  needs : NeedsClus s
  opened : (fat32OpenLog fuel).run (fwStep env) s = (.ok (), s0)

structure Placed (s s0 : Machine) (l : List ℕ) : Prop where
  vol : s0.ram.vol = s.ram.vol
  cursor : s0.ram.logfile.curLba = clusToLba s.ram.vol (firstFree s)
  limit : s0.ram.logfile.endLba = clusToLba s.ram.vol (firstFree s) + preallocSectors s
  mem : logSlot s0 ∈ slotsOf s.ram.vol l
  live : ¬ IsFree s0.card (logSlot s0)
  data : ∀ j, j < clusWanted s → IsDataClus s.ram.vol (firstFree s + j)
  chain : NewChain (fatTable s.ram.vol s.card) (fatTable s.ram.vol s0.card)
    (List.range' (firstFree s) (clusWanted s))
  first : firstClusOf s0.card (logSlot s0) = firstFree s
  size : fileSize s0.card (logSlot s0) = preallocSize s
  slots : ∀ q ∈ slotsOf s.ram.vol l, q ≠ logSlot s0 → ∀ i, i < 32 →
    slotByte s0.card q i = slotByte s.card q i
  rest : ∀ lba, ¬ InFat s.ram.vol lba → lba ≠ s0.ram.logfile.dirLba →
    (lba < s0.ram.logfile.curLba ∨ s0.ram.logfile.endLba ≤ lba) → s0.card lba = s.card lba
  empty : EmptyLog s0

/-- A reader finds the records of the last commit. Before the first one the entry has the size of the
pre-allocation, and the file starts with the records. -/
def ReadsAs (v : Vol) (card : ℕ → Sector) (p : Slot) (lg : CommitLog.Log Sector) : Prop :=
  match lg.view with
  | some r => readFile v card p = r.flatMap List.ofFn
  | none => lg.records.flatMap List.ofFn <+: readFile v card p

/-- The states of the card at some point of a call on the log file, or of a trim. -/
inductive LogCrash (s : Machine) (card : ℕ → Sector) : Prop
  | append (env : Env) (c : AppendCall) (hlen : c.lenA + c.lenB = 512)
      (hroom : s.ram.logfile.curLba < s.ram.logfile.endLba) (h : CrashCard env c.code s card)
  | flush (env : Env) (h : CrashCard env fat32Flush s card)
  | trim (env : Env) (hw : NoWrap s.ram.vol) (h : CrashCard env fat32TrimFree s card)

/-! The new file. -/

theorem Unnamed.name {name : Name} {sc : Scan} (h : Unnamed s name sc) : ∃ n, name = makeLogname n := by
  rcases h with ⟨m, _, _, _, hname, _⟩ | ⟨_, _, hname, _⟩
  · exact ⟨m, hname⟩
  · exact ⟨_, hname⟩

theorem Unnamed.mem {name : Name} {sc : Scan} (h : Unnamed s name sc) (hlba : sc.emptyLba ≠ 0)
    (hl : RootChain s.ram.vol s.card l) : sc.slot ∈ slotsOf s.ram.vol l := by
  obtain ⟨b, hscan⟩ : ∃ b, ScansTo s.ram.vol s.card name b sc := by
    rcases h with ⟨_, _, _, _, _, hscan⟩ | ⟨_, _, _, hscan⟩
    · exact ⟨_, hscan⟩
    · exact ⟨_, hscan⟩
  exact hl.isRootSlot.mp (hscan.sound.2.resolve_left hlba).1

theorem Unnamed.free {name : Name} {sc : Scan} (h : Unnamed s name sc) (hlba : sc.emptyLba ≠ 0) :
    IsFree s.card sc.slot := by
  obtain ⟨b, hscan⟩ : ∃ b, ScansTo s.ram.vol s.card name b sc := by
    rcases h with ⟨_, _, _, _, _, hscan⟩ | ⟨_, _, _, hscan⟩
    · exact ⟨_, hscan⟩
    · exact ⟨_, hscan⟩
  exact (hscan.sound.2.resolve_left hlba).2

theorem NewChain.zero {fat0 fat : ℕ → ℕ} {x : ℕ} (h : NewChain fat0 fat l) (h0 : 0 ∉ l)
    (hx : fat x = 0) : fat0 x = 0 := by
  by_cases hmem : x ∈ l
  · exact absurd hx (h.ne_zero h0 hmem)
  · rwa [← h.rest x hmem]

theorem NewLog.want (h : NewLog env fuel s s0 l) : 0 < clusWanted s :=
  clusNeeded_pos h.geometry.secPerClus (preallocSectors_pos s)

theorem NewLog.data (h : NewLog env fuel s s0 l) {j : ℕ} (hj : j < clusWanted s) :
    IsDataClus s.ram.vol (firstFree s + j) :=
  (h.ahead j hj).1

theorem NewLog.not_zero (h : NewLog env fuel s s0 l) :
    0 ∉ List.range' (firstFree s) (clusWanted s) := fun h0 => by
  have := (h.data h.want).1
  have := (List.mem_range'_1.mp h0).1
  omega

/-- What the creation has made: the entry `name` in slot `p`, and the chain. -/
structure NewEntry (s s0 : Machine) (l : List ℕ) (name : Name) (p : Slot) : Prop where
  vol : s0.ram.vol = s.ram.vol
  logfile : s0.ram.logfile =
    newLog s.ram.vol (preallocSize s) (preallocSectors s) (taken s (clusWanted s)) p
  mem : p ∈ slotsOf s.ram.vol l
  free : IsFree s.card p
  off : p.2 + 32 ≤ 512
  slots : ∀ q ∈ slotsOf s.ram.vol l, q ≠ p → ∀ i, i < 32 → slotByte s0.card q i = slotByte s.card q i
  entry : HoldsEntry s0.card p (entryByte name (firstFree s) (preallocSize s))
  chain : NewChain (fatTable s.ram.vol s.card) (fatTable s.ram.vol s0.card)
    (List.range' (firstFree s) (clusWanted s))
  rest : ∀ lba, ¬ InFat s.ram.vol lba → lba ≠ p.1 →
    (lba < clusToLba s.ram.vol (firstFree s) ∨
      clusToLba s.ram.vol (firstFree s) + preallocSectors s ≤ lba) → s0.card lba = s.card lba

theorem NewLog.made (h : NewLog env fuel s s0 l) : ∃ n p, NewEntry s s0 l (makeLogname n) p := by
  obtain ⟨hv, hroot, hl, hahead, hneeds, hopen⟩ := id h
  have hroom := hahead.room hv
  have hhead := taken_head hroom h.want
  obtain ⟨name, sc, m, s2, hunnamed, hlba, -, -, -, hcreated, rfl⟩ :=
    openLog_new hv hroot hneeds hroom hopen
  obtain ⟨n, rfl⟩ := hunnamed.name
  have hmem := hunnamed.mem hlba hl
  obtain ⟨hkept, hholds⟩ := hcreated.frame hv hroot hl hahead hmem
  refine ⟨n, sc.slot, ?_, ?_, hmem, hunnamed.free hlba, (hunnamed.slot hv hroot hlba).2, hkept, hholds,
    hahead.taken hv hroom h.want ▸ hcreated.chain, fun lba hfat hne hout => ?_⟩
  · simp only [Machine.counted, hcreated.ram, Machine.withLogNum]
  · simp only [Machine.counted, hcreated.ram, Machine.withLogNum]
  · refine hcreated.outside lba hfat hne ?_
    rw [hhead]
    exact hout

section NewEntry

variable {name : Name}

theorem NewEntry.slot_eq (hm : NewEntry s s0 l name p) : logSlot s0 = p := by
  rw [logSlot, hm.logfile]
  rfl

theorem NewEntry.dirLba (hm : NewEntry s s0 l name p) : s0.ram.logfile.dirLba = p.1 := by
  rw [hm.logfile]
  rfl

theorem NewEntry.cursor (h : NewLog env fuel s s0 l) (hm : NewEntry s s0 l name p) :
    s0.ram.logfile.curLba = clusToLba s.ram.vol (firstFree s) := by
  rw [hm.logfile, newLog, taken_head (h.ahead.room h.geometry) h.want]

theorem NewLog.row_end (h : NewLog env fuel s s0 l) :
    clusToLba s.ram.vol (firstFree s) + preallocSectors s < 2 ^ 32 := by
  have hend := clus_run_end h.geometry (h.data h.want).1 (preallocSectors_pos s) fun j hj => h.data hj
  exact hend.trans_lt h.geometry.wrap

theorem NewEntry.limit (h : NewLog env fuel s s0 l) (hm : NewEntry s s0 l name p) :
    s0.ram.logfile.endLba = clusToLba s.ram.vol (firstFree s) + preallocSectors s := by
  simp only [hm.logfile, newLog, taken_head (h.ahead.room h.geometry) h.want]
  exact u32_of_lt h.row_end

theorem NewEntry.empty (h : NewLog env fuel s s0 l) (hm : NewEntry s s0 l name p) : EmptyLog s0 := by
  have hv := h.geometry
  have hps : preallocSectors s ≤ 65536 := (prealloc_bounds s.ram.cfg.preallocCode).2.1
  have hcur := hm.cursor h
  have hlim := hm.limit h
  have hend := h.row_end
  obtain ⟨c, -, hc, hcdata, hin, -, -⟩ := h.chain.place hv h.root hm.mem
  refine ⟨?_, by rw [hm.logfile]; rfl, by omega, by omega, by omega, ?_, ?_, ?_, ?_, ?_, ?_⟩
  · exact hm.vol ▸ hv
  · rw [hm.logfile]
    exact hm.off
  · rw [hcur, hlim, hm.dirLba]
    exact h.ahead.root_outside hv h.chain hc hcdata hin
  · rw [hm.vol, hcur]
    exact hv.dataLba_le (h.data h.want)
  · intro lba hlo hhi
    rw [hcur] at hlo
    rw [hlim] at hhi
    obtain ⟨j, hj, hinj⟩ := mem_clus_run hv (h.data h.want).1 (fun j hj => h.data hj) hlo hhi
    rw [hm.vol]
    refine not_inFree hv (h.data hj) ?_ hinj
    rw [← (h.data hj).fatTable hv]
    exact hm.chain.ne_zero h.not_zero
      (List.mem_range'_1.mpr ⟨Nat.le_add_right _ _, Nat.add_lt_add_left hj _⟩)
  · rw [hm.vol, hm.dirLba]
    exact (hv.dataLba_le hcdata).trans hin.1
  · rw [hm.vol, hm.dirLba]
    exact fun hfree =>
      not_inFree hv hcdata (h.chain.used hc) hin (hfree.mono fun x => hm.chain.zero h.not_zero)

end NewEntry

theorem NewLog.placed (h : NewLog env fuel s s0 l) : Placed s s0 l := by
  obtain ⟨n, p, hm⟩ := h.made
  have hslot := hm.slot_eq
  have hcur := hm.cursor h
  have hlim := hm.limit h
  have hend := h.row_end
  have hlt := h.geometry.clus_lt (h.data h.want)
  obtain ⟨-, hps, hsize⟩ := prealloc_bounds s.ram.cfg.preallocCode
  have hps : preallocSectors s ≤ 65536 := hps
  have hpz : preallocSize s = 512 * preallocSectors s := hsize
  refine ⟨hm.vol, hcur, hlim, hslot ▸ hm.mem, ?_, fun j hj => h.data hj, hm.chain, ?_, ?_, ?_, ?_,
    hm.empty h⟩
  · have hbyte : slotByte s0.card p 0 = makeLogname n 0 :=
      (hm.entry 0 (by decide)).trans (entryByte_name (by decide))
    rw [hslot, IsFree, hbyte, not_or]
    exact makeLogname_zero n
  · rw [hslot]
    exact hm.entry.first (by omega)
  · rw [hslot]
    exact hm.entry.size (by omega)
  · rw [hslot]
    exact hm.slots
  · intro lba hfat hne hout
    rw [hcur, hlim] at hout
    rw [hm.dirLba] at hne
    exact hm.rest lba hfat hne hout

/-! Reading it. -/

theorem Placed.firstClus (h : Placed s s0 l) (hfile : LogFile s0 lg t) :
    firstClusOf t.card (logSlot s0) = firstFree s := by
  have hbyte : ∀ i, i < deFileSize → slotByte t.card (logSlot s0) i = slotByte s0.card (logSlot s0) i :=
    fun i hi => hfile.dir _ (.inl (Nat.add_lt_add_left hi _))
  rw [← h.first]
  simp only [firstClusOf, le16, deFstClusHi, deFstClusLo]
  rw [hbyte 20 (by decide), hbyte (20 + 1) (by decide), hbyte 26 (by decide),
    hbyte (26 + 1) (by decide)]

theorem Placed.chained (h : Placed s s0 l) (hfile : LogFile s0 lg t) :
    NewChain (fatTable s.ram.vol s.card) (fatTable s.ram.vol t.card)
      (List.range' (firstFree s) (clusWanted s)) := by
  have htable := hfile.table h.empty
  rw [h.vol] at htable
  rw [htable]
  exact h.chain

theorem Placed.sectors (hv : Geometry s.ram.vol) (h : Placed s s0 l) (hfile : LogFile s0 lg t) :
    readFile s.ram.vol t.card (logSlot s0) =
      (((List.range (clusWanted s * s.ram.vol.secPerClus)).map fun k =>
        t.card (s0.ram.logfile.curLba + k)).flatMap List.ofFn).take
          (fileSize t.card (logSlot s0)) := by
  have hwant : 0 < clusWanted s := clusNeeded_pos hv.secPerClus (preallocSectors_pos s)
  obtain ⟨m, hm⟩ : ∃ m, clusWanted s = m + 1 := ⟨clusWanted s - 1, by omega⟩
  have hchain := h.chained hfile
  rw [hm] at hchain
  rw [readFile, h.firstClus hfile, chainBytes_run hv (fun j hj => h.data j (by omega)) hchain,
    ← h.cursor, hm]

theorem Placed.records (hv : Geometry s.ram.vol) (h : Placed s s0 l) (hfile : LogFile s0 lg t) {n : ℕ}
    (hn : n ≤ lg.records.length) :
    ((List.range (clusWanted s * s.ram.vol.secPerClus)).map fun k =>
      t.card (s0.ram.logfile.curLba + k)).take n = lg.records.take n := by
  have hused := hfile.used
  have hroom : ¬ clusWanted s * s.ram.vol.secPerClus < preallocSectors s := fun hlt =>
    absurd ((lt_clusNeeded hv.secPerClus).mpr hlt) (Nat.lt_irrefl _)
  rw [h.cursor, h.limit] at hused
  refine List.ext_getElem ?_ fun k h1 h2 => ?_
  · simp only [List.length_take, List.length_map, List.length_range]
    omega
  · rw [List.length_take] at h2
    simp only [List.getElem_take, List.getElem_map, List.getElem_range]
    exact hfile.blocks k (by omega)

theorem LogFile.readsAs (h : NewLog env fuel s s0 l) (hfile : LogFile s0 lg t) (hok : lg.Ok) :
    ReadsAs s.ram.vol t.card (logSlot s0) lg := by
  have hv := h.geometry
  have hplaced := h.placed
  have hsectors := hplaced.sectors hv hfile
  have hsize := hfile.size
  unfold ReadsAs CommitLog.Log.view
  cases hc : lg.committed with
  | some k =>
    rw [hc] at hsize
    change _ = 512 * k at hsize
    rw [hsectors, hsize, sectors_take, hplaced.records hv hfile (hok k hc)]
    rfl
  | none =>
    rw [hc] at hsize
    change fileSize t.card (logSlot s0) = fileSize s0.card (logSlot s0) at hsize
    obtain ⟨-, -, hpz⟩ := prealloc_bounds s.ram.cfg.preallocCode
    have hpz' : preallocSize s = 512 * preallocSectors s := hpz
    have hused := hfile.used
    rw [hplaced.cursor, hplaced.limit] at hused
    have hrec := hplaced.records hv hfile le_rfl
    rw [List.take_length] at hrec
    change lg.records.flatMap List.ofFn <+: readFile s.ram.vol t.card (logSlot s0)
    rw [hsectors, hsize, hplaced.size, hpz', sectors_take, ← hrec]
    exact List.IsPrefix.flatMap (List.take_prefix_take_left (by omega)) _

/-- The log file, through any calls, is a log that grows: it makes each of their steps, and a reader
finds what the log says. -/
theorem session_refines_log {cs : List (CommitLog.Call Sector)} (h : NewLog env fuel s s0 l)
    (hrun : Trace LogStep s0 cs t) : ∃ lg, CommitLog.Run .empty cs lg ∧
      lg.records = CommitLog.appended cs ∧ ReadsAs s.ram.vol t.card (logSlot s0) lg := by
  have hempty := h.placed.empty
  obtain ⟨lg, hlog, hfile⟩ := hempty.start.run hempty hrun
  have hok : lg.Ok := CommitLog.Run.ok hlog CommitLog.ok_empty
  exact ⟨lg, hlog, CommitLog.Run.records hlog, hfile.readsAs h hok⟩

/-- Where the power goes during a call, some call ends with that card. -/
theorem LogCrash.step (h : LogCrash s card) : ∃ c s', LogStep s c s' ∧ s'.card = card := by
  cases h with
  | append env c hlen hroom h =>
    obtain ⟨env', r, s', hrun, hcard⟩ := h.run
    cases r with
    | ok a => exact ⟨some (.append (c.block s) true), s', .append env' c hlen hroom hrun (by simp), hcard⟩
    | error e =>
      exact ⟨some (.append (c.block s) false), s', .append env' c hlen hroom hrun (by simp), hcard⟩
  | flush env h =>
    obtain ⟨env', r, s', hrun, hcard⟩ := h.run
    cases r with
    | ok a => exact ⟨some (.commit true), s', .flush env' hrun (by simp), hcard⟩
    | error e => exact ⟨some (.commit false), s', .flush env' hrun (by simp), hcard⟩
  | trim env hw h =>
    obtain ⟨env', r, s', hrun, hcard⟩ := h.run
    exact ⟨none, s', .trim env' hw hrun, hcard⟩

/-- A run that ends with the power loss is a run with one call more. -/
theorem LogCrash.trace {cs : List (CommitLog.Call Sector)} (hrun : Trace LogStep s cs t)
    (h : LogCrash t card) : ∃ cs' t', Trace LogStep s cs' t' ∧ t'.card = card := by
  obtain ⟨c, t', hstep, hcard⟩ := h.step
  cases c with
  | none => exact ⟨cs, t', hrun.silent hstep, hcard⟩
  | some c => exact ⟨cs ++ [c], t', hrun.seen hstep, hcard⟩

/-- What a flush that returned 0 has committed stays committed. -/
theorem NewLog.committed {env' : Env} {cs ds : List (CommitLog.Call Sector)}
    (h : NewLog env fuel s s0 l) (hrun : Trace LogStep s0 cs t)
    (hflush : fat32Flush.run (fwStep env') t = (.ok (), t1)) (hrun' : Trace LogStep t1 ds t2) :
    ∃ lg, LogFile s0 lg t2 ∧
      (CommitLog.appended cs).flatMap List.ofFn <+: readFile s.ram.vol t2.card (logSlot s0) := by
  have hempty := h.placed.empty
  obtain ⟨l1, hlog1, hfile1⟩ := hempty.start.run hempty hrun
  have hcommit : LogStep t (some (.commit true)) t1 := .flush env' hflush (by simp)
  obtain ⟨l2, hstep, hfile2⟩ := hfile1.step hempty hcommit
  obtain ⟨l3, hlog3, hfile3⟩ := hfile2.run hempty hrun'
  have hok1 := CommitLog.Run.ok hlog1 CommitLog.ok_empty
  have hok2 := hstep.ok hok1
  obtain ⟨hok3, r3, hview3, hpre3⟩ := CommitLog.Run.view_prefix hlog3 hok2 hstep.view_commit.1
  have hreads := hfile3.readsAs h hok3
  rw [ReadsAs, hview3] at hreads
  have hrecords : l1.records = CommitLog.appended cs := CommitLog.Run.records hlog1
  refine ⟨l3, hfile3, ?_⟩
  rw [← hrecords, hreads]
  exact List.IsPrefix.flatMap hpre3 _

/-- What a flush that returned 0 has committed is at the front of the file for good: after any
further calls, and when the power goes during one. -/
theorem committed_survives {env' : Env} {cs ds : List (CommitLog.Call Sector)}
    (h : NewLog env fuel s s0 l) (hrun : Trace LogStep s0 cs t)
    (hflush : fat32Flush.run (fwStep env') t = (.ok (), t1)) (hrun' : Trace LogStep t1 ds t2)
    (hcrash : LogCrash t2 card) :
    (CommitLog.appended cs).flatMap List.ofFn <+: readFile s.ram.vol card (logSlot s0) := by
  obtain ⟨ds', t3, hall, rfl⟩ := hcrash.trace hrun'
  obtain ⟨-, -, hpre⟩ := h.committed hrun hflush hall
  exact hpre

/-! A card that answers. -/

theorem fat32Flush_noCode (hgood : env.Good) : NoCode env fat32Flush := by
  unfold fat32Flush
  refine (noCode_op env _).bind fun r => (sdReadSector_noCode hgood _ _).bind fun _ => ?_
  exact (noCode_of_ok fun s => rfl).bind fun _ => sdWriteSector_noCode hgood _ _

theorem flush_succeeds (hgood : env.Good) (s : Machine) :
    ∃ s', fat32Flush.run (fwStep env) s = (.ok (), s') := by
  obtain ⟨r, s', hrun, hr, -⟩ := fat32Flush_run env s
  rcases hr with rfl | ⟨c, rfl⟩
  · exact ⟨s', hrun⟩
  · exact absurd ⟨c, rfl⟩ (fat32Flush_noCode hgood s _ s' hrun)

theorem append_flush_succeed (hgood : env.Good) (c : AppendCall) (hlen : c.lenA + c.lenB = 512)
    (hroom : s.ram.logfile.curLba < s.ram.logfile.endLba) : ∃ u t,
      Trace LogStep s [.append (c.block s) true] u ∧
        fat32Flush.run (fwStep env) u = (.ok (), t) := by
  obtain ⟨u, hcall, -⟩ := append_answered hgood c hroom
  obtain ⟨t, hflush⟩ := flush_succeeds hgood u
  exact ⟨u, t, Trace.start.seen (.append env c hlen hroom hcall (by simp)), hflush⟩

theorem freshDisk_new : ∃ s0, NewLog Env.ideal 64 freshDisk s0 [2] := by
  have hahead : FreeAhead freshDisk := by
    unfold FreeAhead
    decide +kernel
  have hsearch : searchesSlot Env.ideal 64 freshDisk = true := by decide +kernel
  obtain ⟨hneeds, s0, hopen⟩ := openLog_succeeds 64 (fun _ => rfl : Env.ideal.Good)
    smallVol_geometry freshDisk_root (hahead.room smallVol_geometry) (by decide) hsearch
  exact ⟨s0, smallVol_geometry, freshDisk_root, freshDisk_chain, hahead, hneeds, hopen⟩

theorem NewLog.in_room (h : NewLog env fuel s s0 l) :
    s0.ram.logfile.curLba < s0.ram.logfile.endLba := by
  have hsec := preallocSectors_pos s
  rw [h.placed.cursor, h.placed.limit]
  omega

def highCall : AppendCall := ⟨0, 512, 512, none, 0⟩

theorem session_refines_log_fresh : ∃ (s0 t : Machine) (d : Sector) (lg : CommitLog.Log Sector),
    NewLog Env.ideal 64 freshDisk s0 [2] ∧ Trace LogStep s0 [.append d true, .commit true] t ∧
      lg.records = [d] ∧ ReadsAs freshDisk.ram.vol t.card (logSlot s0) lg := by
  obtain ⟨s0, hnew⟩ := freshDisk_new
  obtain ⟨u, t, hrun, hflush⟩ := append_flush_succeed (fun _ => rfl : Env.ideal.Good) highCall rfl
    hnew.in_room
  have hcommit : LogStep u (some (.commit true)) t := .flush Env.ideal hflush (by simp)
  have hall := hrun.seen hcommit
  obtain ⟨lg, -, hrecords, hreads⟩ := session_refines_log hnew hall
  exact ⟨s0, t, _, lg, hnew, hall, hrecords, hreads⟩

/-- On a card that answers a sector is appended and committed, and then another one appended. -/
theorem NewLog.session (h : NewLog env fuel s s0 l) (hgood : env.Good) (hsec : 1 < preallocSectors s)
    (c : AppendCall) (hlen : c.lenA + c.lenB = 512) : ∃ u t t2,
      Trace LogStep s0 [.append (c.block s0) true] u ∧ fat32Flush.run (fwStep env) u = (.ok (), t) ∧
        Trace LogStep t [.append (c.block t) true] t2 := by
  have hempty := h.placed.empty
  obtain ⟨u, t, hrun, hflush⟩ := append_flush_succeed hgood c hlen h.in_room
  have hcommit : LogStep u (some (.commit true)) t := .flush env hflush (by simp)
  obtain ⟨lg, hlog, hfile⟩ := hempty.start.run hempty (hrun.seen hcommit)
  have hone : lg.records.length = 1 := by
    rw [CommitLog.Run.records hlog]
    rfl
  have hroom : t.ram.logfile.curLba < t.ram.logfile.endLba := by
    rw [hfile.logfile, hone]
    change s0.ram.logfile.curLba + 1 < s0.ram.logfile.endLba
    rw [h.placed.cursor, h.placed.limit]
    omega
  obtain ⟨t2, -, hrun', -⟩ := append_flush_succeed hgood c hlen hroom
  exact ⟨u, t, t2, hrun, hflush, hrun'⟩

/-- Another sector is appended, and the power goes at the start of the flush that is to commit it. -/
theorem committed_survives_append : ∃ (s0 t t2 : Machine) (d d2 : Sector),
    NewLog Env.ideal 64 freshDisk s0 [2] ∧ Trace LogStep t [.append d2 true] t2 ∧
      LogCrash t2 t2.card ∧
      [d].flatMap List.ofFn <+: readFile freshDisk.ram.vol t2.card (logSlot s0) := by
  obtain ⟨s0, hnew⟩ := freshDisk_new
  have hsec : preallocSectors freshDisk = 2048 := by decide +kernel
  obtain ⟨u, t, t2, hrun, hflush, hrun'⟩ := hnew.session (fun _ => rfl : Env.ideal.Good)
    (by rw [hsec]; decide) highCall rfl
  have hcrash : LogCrash t2 t2.card := .flush Env.ideal ⟨_, t2, .start, rfl⟩
  have hrecords : CommitLog.appended [.append (highCall.block s0) true] = [highCall.block s0] := rfl
  have hsurvives := committed_survives hnew hrun hflush hrun' hcrash
  rw [hrecords] at hsurvives
  exact ⟨s0, t, t2, highCall.block s0, highCall.block t, hnew, hrun', hcrash, hsurvives⟩

end Barelog
