import Barelog.Proofs.NewFile

/-! Runs of appends to a new log file. While the file has consecutive clusters, and every
extension finds the next one free, block `k` goes to sector `k` from the first sector on, which
is where the chain has it. -/

namespace Barelog

open Prog

variable {env : Env} {s s' s1 t : Machine} {v : Vol} {disk card : ℕ → Sector} {fat0 fat : ℕ → ℕ}
  {l : List ℕ} {a c m E : ℕ} {bs : List Sector}

structure AppendCall where
  fuel : ℕ
  spanA : ℕ
  lenA : ℕ
  spanB : Option ℕ
  lenB : ℕ

def AppendCall.code (c : AppendCall) : Fw Unit :=
  fat32AppendSector c.fuel c.spanA c.lenA c.spanB c.lenB

/-- The block that is appended: what the spans hold at the call. -/
def AppendCall.block (c : AppendCall) (s : Machine) : Sector :=
  spanSector s.ring c.spanA c.lenA c.spanB c.lenB

/-- Between two calls bytes are received, read and scanned for the escape sequence. -/
def Idle (s t : Machine) : Prop :=
  ∃ ring head tail accepted dropped esc, t = { s with
    ring := ring, ringHead := head, ringTail := tail, accepted := accepted, dropped := dropped
    ram := { s.ram with escSeen := esc } }

/-- A run of appends that return 0, each called in a state with `ok`; the blocks in order. -/
inductive Appends (env : Env) (ok : Machine → AppendCall → Prop) (s : Machine) :
    List Sector → Machine → Prop
  | start : Appends env ok s [] s
  | append {bs : List Sector} {s1 t s' : Machine} (call : AppendCall)
      (hrun : Appends env ok s bs s1) (hidle : Idle s1 t) (hok : ok t call)
      (hcall : call.code.run (fwStep env) t = (.ok (), s')) :
      Appends env ok s (bs ++ [call.block t]) s'

/-- The append does not extend the file, or it extends it by the next cluster and its spans are
not in ring[0..511]. -/
def Adjacent (s : Machine) (call : AppendCall) : Prop :=
  s.ram.logfile.curLba < s.ram.logfile.endLba ∨
    (freeClus s.ram.vol s.card).head? = some (s.ram.logfile.lastClus + 1) ∧
      ∀ i, i < 512 → ¬ InSpans call.spanA call.lenA call.spanB call.lenB i

/-- Block `k` of `bs` is sector k mod `sec_per_clus` of cluster k / `sec_per_clus` of the chain. -/
def ReadsBack (s : Machine) (bs : List Sector) : Prop :=
  ∀ k (hk : k < bs.length), ∃ c,
    (chainClus s.ram.vol s.card (k / s.ram.vol.secPerClus + 1)
      s.ram.logfile.firstClus)[k / s.ram.vol.secPerClus]? = some c ∧
    s.card (clusToLba s.ram.vol c + k % s.ram.vol.secPerClus) = bs[k]

/-- From `s` to `s'`, no sector outside the FAT and the chain has been overwritten. -/
def OnlyChain (s s' : Machine) : Prop :=
  ∀ lba, ¬ InFat s'.ram.vol lba →
    (∀ n c, c ∈ chainClus s'.ram.vol s'.card n s'.ram.logfile.firstClus →
      ¬ InClus s'.ram.vol c lba) →
    s'.card lba = s.card lba

/-- The file has clusters `a` to `a + m`, of which the first `E` sectors are to be used, and holds
the blocks `bs` from its first sector on; the rest of the card is that of `disk`. -/
structure Laid (v : Vol) (fat0 : ℕ → ℕ) (disk : ℕ → Sector) (a m E : ℕ) (bs : List Sector)
    (s : Machine) : Prop where
  vol : s.ram.vol = v
  first : s.ram.logfile.firstClus = a
  last : s.ram.logfile.lastClus = a + m
  data : ∀ j, j ≤ m → IsDataClus v (a + j)
  chain : NewChain fat0 (fatTable v s.card) (List.range' a (m + 1))
  cursor : s.ram.logfile.curLba = clusToLba v a + bs.length
  limit : s.ram.logfile.endLba = clusToLba v a + E
  used : bs.length ≤ E
  room : E ≤ (m + 1) * v.secPerClus
  blocks : ∀ k (hk : k < bs.length), s.card (clusToLba v a + k) = bs[k]
  rest : ∀ lba, ¬ InFat v lba →
    (lba < clusToLba v a ∨ clusToLba v a + (m + 1) * v.secPerClus ≤ lba) → s.card lba = disk lba

/-! The chain. -/

theorem NewChain.push {p : ℕ} (h : NewChain fat0 fat (l ++ [p])) (hp : p ∉ l)
    (hc : c ∉ l ++ [p]) :
    NewChain fat0 (Function.update (Function.update fat p c) c eoc) (l ++ [p] ++ [c]) := by
  refine ⟨(h.linked.push hp).congr fun x hx => Function.update_of_ne ?_ _ _, ?_, fun x hx => ?_⟩
  · rw [List.dropLast_concat] at hx
    exact fun he => hc (he ▸ hx)
  · rw [List.getLastD_concat, Function.update_self]
  · rw [List.mem_append, List.mem_singleton, not_or] at hx
    rw [Function.update_of_ne hx.2, Function.update_of_ne fun he => hx.1 (by simp [he])]
    exact h.rest x hx.1

theorem NewChain.ne_zero (h : NewChain fat0 fat l) (h0 : 0 ∉ l) (hc : c ∈ l) : fat c ≠ 0 := by
  intro hzero
  by_cases hlast : c ∈ l.dropLast
  · exact h0 (hzero ▸ h.linked.next_mem hlast)
  · have hl : l ≠ [] := List.ne_nil_of_mem hc
    rw [← List.dropLast_append_getLast hl, List.mem_append, List.mem_singleton] at hc
    have hend := h.ends
    rw [List.getLastD_eq_getLast?, List.getLast?_eq_some_getLast hl, Option.getD_some,
      ← hc.resolve_left hlast, hzero] at hend
    exact absurd hend (by decide)

theorem NewChain.freeBelow (h : NewChain fat0 fat l) (h0 : 0 ∉ l) (n : ℕ) :
    Barelog.freeBelow fat n = (Barelog.freeBelow fat0 n).filter (· ∉ l) := by
  rw [Barelog.freeBelow, Barelog.freeBelow, List.filter_filter]
  refine List.filter_congr fun x _ => ?_
  by_cases hx : x ∈ l
  · simp [hx, h.ne_zero h0 hx]
  · simp [hx, h.rest x hx]

/-- The lowest free data cluster is the head of the list of the free ones. -/
theorem IsFirstFree.head (hfirst : IsFirstFree v (fatTable v card) c)
    (hhead : (freeClus v card).head? = some a) : c = a := by
  obtain ⟨rest, hl⟩ := List.head?_eq_some_iff.mp hhead
  have ha : a ∈ freeBelow (fatTable v card) (clusCount v + 2) := by
    rw [← freeClus, hl]
    exact List.mem_cons_self
  have hnone := freeBelow_head hl
  obtain ⟨_, h2, hzero⟩ := mem_freeBelow.mp ha
  rcases Nat.lt_trichotomy c a with hlt | rfl | hlt
  · have hmem : c ∈ freeBelow (fatTable v card) a := mem_freeBelow.mpr ⟨hlt, hfirst.1.1, hfirst.2.1⟩
    rw [hnone] at hmem
    cases hmem
  · rfl
  · exact absurd hzero (hfirst.2.2 a h2 hlt)

section Laid

variable (hv : Geometry v)

include hv

theorem Laid.clus (h : Laid v fat0 disk a m E bs s) {j : ℕ} (hj : j ≤ m) :
    clusToLba v (a + j) = clusToLba v a + j * v.secPerClus :=
  clusToLba_add hv (h.data 0 (Nat.zero_le _)).1 (by have := (h.data j hj).2; omega)

theorem Laid.bounds (h : Laid v fat0 disk a m E bs s) : v.dataLba ≤ clusToLba v a ∧
    clusToLba v a + (m + 1) * v.secPerClus < 2 ^ 32 := by
  have hend := hv.clus_end (h.data m le_rfl)
  have hwrap := hv.wrap
  rw [h.clus hv le_rfl] at hend
  rw [Nat.add_mul]
  exact ⟨hv.dataLba_le (h.data 0 (Nat.zero_le _)), by omega⟩

theorem Laid.write (h : Laid v fat0 disk a m E bs t) (hroom : bs.length < E) {d : Sector} {n : ℕ}
    (hs : Scratch ((t.logged t.ram.logfile.curLba d).withLogfile (t.ram.logfile.advance n)) s') :
    Laid v fat0 disk a m E (bs ++ [d]) s' := by
  obtain ⟨hlo, hhi⟩ := h.bounds hv
  have hE := h.room
  have hcard : s'.card = Function.update t.card (clusToLba v a + bs.length) d := by
    rw [← h.cursor]
    exact hs.card
  have hlog : s'.ram.logfile = t.ram.logfile.advance n := by
    rw [hs.ram]
    rfl
  have hvol : s'.ram.vol = v := by
    rw [hs.ram]
    exact h.vol
  refine ⟨hvol, ?_, ?_, h.data, ?_, ?_, ?_, ?_, hE, ?_, fun lba hlba hout => ?_⟩
  · rw [hlog]
    exact h.first
  · rw [hlog]
    exact h.last
  · rw [hcard, fatTable_update hv (by omega)]
    exact h.chain
  · rw [hlog, Logfile.advance, h.cursor, List.length_append, List.length_singleton,
      u32_of_lt (by omega), Nat.add_assoc]
  · rw [hlog]
    exact h.limit
  · rw [List.length_append, List.length_singleton]
    omega
  · intro k hk
    rw [List.length_append, List.length_singleton] at hk
    rw [hcard]
    by_cases hlast : k = bs.length
    · subst hlast
      rw [Function.update_self, List.getElem_concat_length rfl]
    · rw [Function.update_of_ne (by omega), List.getElem_append_left (by omega)]
      exact h.blocks k (by omega)
  · rw [hcard, Function.update_of_ne (by omega)]
    exact h.rest lba hlba hout

theorem Laid.extend (h : Laid v fat0 disk a m E bs s) (hext : Extended s (a + (m + 1)) t) :
    Laid v fat0 disk a (m + 1) ((m + 1 + 1) * v.secPerClus) bs t := by
  obtain ⟨hlo, hhi⟩ := h.bounds hv
  have hE := h.room
  have hused := h.used
  obtain ⟨hram, _, hfree, htable, _, hout, _⟩ := hext
  rw [h.vol] at hfree htable hout hram
  have hlba : clusToLba v (a + (m + 1)) = clusToLba v a + (m + 1) * v.secPerClus :=
    clusToLba_add hv (h.data 0 (Nat.zero_le _)).1 (by have := hfree.1.2; omega)
  have hend := hv.clus_end hfree.1
  have hwrap := hv.wrap
  rw [hlba] at hout hend hram
  have hmul : (m + 1 + 1) * v.secPerClus = (m + 1) * v.secPerClus + v.secPerClus := by
    rw [Nat.add_mul, Nat.one_mul]
  have hvol : t.ram.vol = v := by simp only [hram, h.vol]
  have hfirst : t.ram.logfile.firstClus = s.ram.logfile.firstClus := by simp only [hram]
  have hlast : t.ram.logfile.lastClus = a + (m + 1) := by simp only [hram]
  have hcursor : t.ram.logfile.curLba = s.ram.logfile.curLba := by simp only [hram]
  have hlimit : t.ram.logfile.endLba =
      u32 (clusToLba v a + (m + 1) * v.secPerClus + v.secPerClus) := by simp only [hram]
  refine ⟨hvol, hfirst.trans h.first, hlast, ?_, ?_, hcursor.trans h.cursor, ?_, by omega, le_rfl,
    ?_, fun lba hfat hlo => ?_⟩
  · intro j hj
    rcases Nat.le_succ_iff.mp hj with hj | rfl
    · exact h.data j hj
    · exact hfree.1
  · rw [htable, h.last, List.range'_concat, Nat.one_mul]
    have hchain := h.chain
    rw [List.range'_concat, Nat.one_mul] at hchain ⊢
    exact hchain.push (by simp) (by simp)
  · rw [hlimit, u32_of_lt (by omega), hmul, Nat.add_assoc]
  · intro k hk
    rw [hout _ (fun hin => by have := hin.2; omega) (.inl (by omega))]
    exact h.blocks k hk
  · rw [hout lba hfat (by omega)]
    exact h.rest lba hfat (by omega)

omit hv in
/-- The file does not depend on the ring and the bytes in it. -/
theorem Laid.idle (h : Laid v fat0 disk a m E bs s) (hidle : Idle s t) :
    Laid v fat0 disk a m E bs t := by
  obtain ⟨_, _, _, _, _, _, rfl⟩ := hidle
  exact ⟨h.vol, h.first, h.last, h.data, h.chain, h.cursor, h.limit, h.used, h.room, h.blocks, h.rest⟩

omit hv in
/-- An append with room in the file writes the block at the cursor. -/
theorem append_in_room {call : AppendCall} (hroom : s.ram.logfile.curLba < s.ram.logfile.endLba)
    (hcall : call.code.run (fwStep env) s = (.ok (), s')) :
    Scratch ((s.logged s.ram.logfile.curLba (call.block s)).withLogfile
      (s.ram.logfile.advance (call.lenA + call.lenB))) s' := by
  rcases append_cases hcall with ⟨t, hmake, ⟨_, hs'⟩ | ⟨_, hbad, _⟩⟩ | ⟨_, hbad, _⟩
  · rcases makeRoom_cases hmake with ⟨_, _, rfl⟩ | ⟨hfull, _⟩
    · exact hs'
    · omega
  · cases hbad
  · cases hbad

omit hv in
/-- An append that extends the file does so first; spans outside the buffer are sent as they
were at the call. -/
theorem append_in_new {call : AppendCall} (hvs : Geometry s.ram.vol)
    (hlast : IsDataClus s.ram.vol s.ram.logfile.lastClus)
    (hfree : freeClus s.ram.vol s.card ≠ [])
    (hfull : s.ram.logfile.endLba ≤ s.ram.logfile.curLba)
    (hhigh : ∀ i, i < 512 → ¬ InSpans call.spanA call.lenA call.spanB call.lenB i)
    (hcall : call.code.run (fwStep env) s = (.ok (), s')) :
    ∃ c t, Extended s c t ∧
      Scratch ((t.logged t.ram.logfile.curLba (call.block s)).withLogfile
        (t.ram.logfile.advance (call.lenA + call.lenB))) s' := by
  rcases append_cases hcall with ⟨t, hmake, ⟨_, hs'⟩ | ⟨_, hbad, _⟩⟩ | ⟨_, hbad, _⟩
  rotate_left
  · cases hbad
  · cases hbad
  rcases makeRoom_cases hmake with ⟨hroom, _⟩ | ⟨_, hrun⟩
  · omega
  rcases extendLog_cases hvs hlast hfree hrun with ⟨c, _, hext⟩ | ⟨_, hbad, _⟩
  swap
  · cases hbad
  have hblock : spanSector t.ring call.spanA call.lenA call.spanB call.lenB = call.block s := by
    refine spanSector_congr fun i hi => extendLog_high hrun ?_
    by_contra hlow
    exact hhigh i (by omega) hi
  have hcursor : t.ram.logfile.curLba = s.ram.logfile.curLba := by simp only [hext.ram]
  rw [hblock, ← hcursor] at hs'
  exact ⟨c, t, hext, hs'⟩

theorem Laid.append {call : AppendCall} (h : Laid v fat0 disk a m E bs s)
    (hok : Adjacent s call) (hcall : call.code.run (fwStep env) s = (.ok (), s')) :
    ∃ m' E', Laid v fat0 disk a m' E' (bs ++ [call.block s]) s' := by
  have hcursor := h.cursor
  have hlimit := h.limit
  by_cases hroom : s.ram.logfile.curLba < s.ram.logfile.endLba
  · exact ⟨m, E, h.write hv (by omega) (append_in_room hroom hcall)⟩
  · obtain ⟨hhead, hhigh⟩ := hok.resolve_left hroom
    have hlast : IsDataClus s.ram.vol s.ram.logfile.lastClus := by
      rw [h.vol, h.last]
      exact h.data m le_rfl
    have hfree : freeClus s.ram.vol s.card ≠ [] := by
      intro he
      rw [he] at hhead
      cases hhead
    obtain ⟨c, t, hext, hs'⟩ := append_in_new (h.vol.symm ▸ hv) hlast hfree (by omega) hhigh hcall
    obtain rfl : c = a + (m + 1) := by
      rw [hext.free.head hhead, h.last, Nat.add_assoc]
    have hlaid := h.extend hv hext
    have hroom' : bs.length < (m + 1 + 1) * v.secPerClus := by
      have hmul : (m + 1 + 1) * v.secPerClus = (m + 1) * v.secPerClus + v.secPerClus := by
        rw [Nat.add_mul, Nat.one_mul]
      have := hv.secPerClus
      have := h.used
      have := h.room
      omega
    exact ⟨m + 1, _, hlaid.write hv hroom' hs'⟩

theorem Laid.appends (h : Laid v fat0 disk a m E [] s) (hrun : Appends env Adjacent s bs s') :
    ∃ m' E', Laid v fat0 disk a m' E' bs s' := by
  induction hrun with
  | start => exact ⟨m, E, h⟩
  | append call _ hidle hok hcall ih =>
    obtain ⟨m1, E1, h1⟩ := ih
    exact (h1.idle hidle).append hv hok hcall

theorem Laid.chainClus (h : Laid v fat0 disk a m E bs s) (n : ℕ) :
    Barelog.chainClus v s.card n a = (List.range' a (m + 1)).take n := by
  have hdata : ∀ x ∈ List.range' a (m + 1), IsDataClus v x := by
    intro x hx
    obtain ⟨j, hj, rfl⟩ := List.mem_range'.mp hx
    rw [Nat.one_mul]
    exact h.data j (by omega)
  exact h.chain.chainClus hv hdata (by simp) n

theorem Laid.readsBack (h : Laid v fat0 disk a m E bs s) : ReadsBack s bs := by
  intro k hk
  have hspc := hv.secPerClus
  have hdiv := Nat.div_add_mod k v.secPerClus
  rw [Nat.mul_comm] at hdiv
  have hj : k / v.secPerClus ≤ m := by
    have hused := h.used
    have hroom := h.room
    have hlt : k / v.secPerClus < m + 1 := (Nat.div_lt_iff_lt_mul hspc).mpr (by omega)
    omega
  rw [h.vol, h.first]
  refine ⟨a + k / v.secPerClus, ?_, ?_⟩
  · rw [h.chainClus hv, List.getElem?_take_of_lt (by omega),
      List.getElem?_range' (by omega), Nat.one_mul]
  · rw [h.clus hv hj, Nat.add_assoc, hdiv]
    exact h.blocks k hk

theorem Laid.onlyChain (h : Laid v fat0 s.card a m E bs s') : OnlyChain s s' := by
  intro lba hfat hout
  rw [h.vol] at hfat hout
  rw [h.first] at hout
  refine h.rest lba hfat ?_
  by_contra hin
  have hneeded : ∀ j, j < clusNeeded v ((m + 1) * v.secPerClus) → j ≤ m := by
    intro j hj
    have := Nat.lt_of_mul_lt_mul_right ((lt_clusNeeded hv.secPerClus).mp hj)
    omega
  have h2 : 2 ≤ a := (h.data 0 (Nat.zero_le _)).1
  obtain ⟨j, hj, hclus⟩ := mem_clus_run hv h2
    (fun j hj => h.data j (hneeded j hj)) (by omega : clusToLba v a ≤ lba) (by omega)
  refine hout (m + 1) (a + j) ?_ hclus
  have := hneeded j hj
  rw [h.chainClus hv, List.take_of_length_le (by simp), List.mem_range'_1]
  omega

end Laid

theorem Created.laid {name : Name} {p : Slot} {k : ℕ} (hv : Geometry s.ram.vol)
    (hroom : clusWanted s ≤ (freeClus s.ram.vol s.card).length)
    (hrow : taken s (clusWanted s) = List.range' (firstFree s) (clusWanted s))
    (h : Created (s.withLogNum k) (preallocSize s) (preallocSectors s) (taken s (clusWanted s)) name
      p s') :
    Laid s.ram.vol (fatTable s.ram.vol s.card) s'.counted.card (firstFree s) (clusWanted s - 1)
      (preallocSectors s) [] s'.counted := by
  have hspc := hv.secPerClus
  have hsec := preallocSectors_pos s
  have hwant : 0 < clusWanted s := clusNeeded_pos hspc hsec
  have hdata : ∀ j, j < clusWanted s → IsDataClus s.ram.vol (firstFree s + j) := by
    intro j hj
    have hmem : firstFree s + j ∈ taken s (clusWanted s) := by
      rw [hrow, List.mem_range'_1]
      omega
    exact (mem_taken hmem).1
  have h2 : 2 ≤ firstFree s := (hdata 0 hwant).1
  have hend := clus_run_end hv h2 hsec hdata
  have hwrap := hv.wrap
  have hhead := taken_head hroom hwant
  have hlen : clusWanted s - 1 + 1 = clusWanted s := by omega
  have hlast : (taken s (clusWanted s)).getLastD 0 = firstFree s + (clusWanted s - 1) := by
    rw [hrow, ← hlen, List.range'_concat, List.getLastD_concat, Nat.one_mul, Nat.add_sub_cancel]
  have hlog : s'.counted.ram.logfile = newLog s.ram.vol (preallocSize s) (preallocSectors s)
      (taken s (clusWanted s)) p := by simp only [Machine.counted, h.ram, Machine.withLogNum]
  have hvol : s'.counted.ram.vol = s.ram.vol := by
    simp only [Machine.counted, h.ram, Machine.withLogNum]
  refine ⟨hvol, ?_, ?_, fun j hj => hdata j (by omega), ?_, ?_, ?_, Nat.zero_le _,
    ?_, fun k hk => absurd hk (Nat.not_lt_zero k), fun _ _ _ => rfl⟩
  · simp only [hlog, newLog, hhead]
  · simp only [hlog, newLog, hlast]
  · rw [hlen, ← hrow]
    exact h.chain
  · have hcur : (newLog s.ram.vol (preallocSize s) (preallocSectors s)
        (taken s (clusWanted s)) p).curLba = clusToLba s.ram.vol (firstFree s) := by
      rw [← hhead, newLog]
    rw [hlog, hcur, List.length_nil, Nat.add_zero]
  · simp only [hlog, newLog, hhead]
    exact u32_of_lt (by omega)
  · rw [hlen]
    by_contra hlt
    have := (lt_clusNeeded (v := s.ram.vol) hspc).mpr (not_le.mp hlt)
    exact absurd this (Nat.lt_irrefl _)

/-! Runs that exist. -/

theorem append_succeeds (hgood : env.Good) (call : AppendCall) {t : Machine}
    (hmake : (makeRoom call.fuel s.ram.logfile).run (fwStep env) s = (.ok (), t)) :
    ∃ s', call.code.run (fwStep env) s = (.ok (), s') :=
  append_of_room hmake (by rw [hgood]; decide) (hgood _)

theorem append_answered (hgood : env.Good) (call : AppendCall)
    (hroom : s.ram.logfile.curLba < s.ram.logfile.endLba) :
    ∃ s', call.code.run (fwStep env) s = (.ok (), s') ∧ s'.ringHead = s.ringHead ∧
      s'.ringTail = s.ringTail := by
  obtain ⟨s', hcall⟩ := append_succeeds hgood call (makeRoom_idle hroom s)
  obtain ⟨_, _, _, -, rfl⟩ := append_in_room hroom hcall
  exact ⟨_, hcall, rfl, rfl⟩

theorem Laid.fill {ok : Machine → AppendCall → Prop} (hv : Geometry v) (hgood : env.Good)
    (hok : ∀ t call, t.ram.logfile.curLba < t.ram.logfile.endLba → ok t call)
    (h : Laid v fat0 disk a m E [] s) {n : ℕ} (hn : n ≤ E) :
    ∃ bs s', bs.length = n ∧ Appends env ok s bs s' ∧ Laid v fat0 disk a m E bs s' := by
  induction n with
  | zero => exact ⟨[], s, rfl, .start, h⟩
  | succ n ih =>
    obtain ⟨bs, s1, hlen, hrun, h1⟩ := ih (by omega)
    have hroom : s1.ram.logfile.curLba < s1.ram.logfile.endLba := by
      rw [h1.cursor, h1.limit]
      omega
    let call : AppendCall := ⟨0, 512, 512, none, 0⟩
    obtain ⟨s2, hcall, -⟩ := append_answered hgood call hroom
    have hidle : Idle s1 s1 := ⟨_, _, _, _, _, _, rfl⟩
    exact ⟨_, s2, by simp [hlen], hrun.append call hidle (hok _ _ hroom) hcall,
      h1.write hv (by omega) (append_in_room hroom hcall)⟩

/-- A full file that is extended by another cluster than the next: the block goes to the sector
behind the old last cluster, and the chain has a sector of zeros in its place. -/
theorem Laid.astray (hv : Geometry v) {s' t : Machine} {d : Sector} {n : ℕ}
    (h : Laid v fat0 disk a m E bs s) (hfull : bs.length = (m + 1) * v.secPerClus)
    (hnext : IsDataClus v (a + (m + 1))) (hext : Extended s c t) (hne : c ≠ a + (m + 1))
    (hs : Scratch ((t.logged t.ram.logfile.curLba d).withLogfile (t.ram.logfile.advance n)) s') :
    s'.card (clusToLba v (a + (m + 1))) = d ∧ s'.card (clusToLba v c) = (fun _ => 0) ∧
      s'.ram.vol = v ∧ s'.ram.logfile.firstClus = a ∧
      ∀ n, Barelog.chainClus v s'.card n a = (List.range' a (m + 1) ++ [c]).take n := by
  obtain ⟨hlo, hhi⟩ := h.bounds hv
  have hspc := hv.secPerClus
  have hlba : clusToLba v (a + (m + 1)) = clusToLba v a + (m + 1) * v.secPerClus :=
    clusToLba_add hv (h.data 0 (Nat.zero_le _)).1 (by have := hnext.2; omega)
  have hfree := hext.free
  rw [h.vol] at hfree
  have hcursor : t.ram.logfile.curLba = clusToLba v (a + (m + 1)) := by
    have hsame : t.ram.logfile.curLba = s.ram.logfile.curLba := by simp only [hext.ram]
    rw [hsame, h.cursor, hfull, hlba]
  have hcard : s'.card = Function.update t.card (clusToLba v (a + (m + 1))) d := by
    rw [← hcursor]
    exact hs.card
  have hvol : s'.ram.vol = v := by
    simp only [hs.ram, Machine.withLogfile, Machine.logged, Machine.onCard, hext.ram, h.vol]
  have hfirst : s'.ram.logfile.firstClus = a := by
    simp only [hs.ram, Machine.withLogfile, Logfile.advance, hext.ram, h.first]
  have hother : clusToLba v c ≠ clusToLba v (a + (m + 1)) := by
    intro he
    have hin : InClus v (a + (m + 1)) (clusToLba v c) := ⟨he.symm.le, by omega⟩
    exact hne (InClus.unique hv hfree.1 hnext ⟨le_rfl, by omega⟩ hin)
  refine ⟨by rw [hcard, Function.update_self], ?_, hvol, hfirst, fun n => ?_⟩
  · rw [hcard, Function.update_of_ne hother]
    have hzeros := hext.zeros
    rw [h.vol] at hzeros
    exact hzeros _ le_rfl (by omega)
  · -- the chain of the extended file
    have hold : ∀ x ∈ List.range' a (m + 1), IsDataClus v x := by
      intro x hx
      obtain ⟨j, hj, rfl⟩ := List.mem_range'.mp hx
      rw [Nat.one_mul]
      exact h.data j (by omega)
    have hnot : c ∉ List.range' a (m + 1) := fun hc =>
      h.chain.ne_zero (fun h0 => absurd (hold 0 h0).1 (by decide)) hc hfree.2.1
    have htable : fatTable v s'.card = fatTable v t.card := by
      rw [hcard]
      exact fatTable_update hv (by omega) _
    have hchain : NewChain fat0 (fatTable v s'.card) (List.range' a (m + 1) ++ [c]) := by
      have hpush := hext.table
      rw [h.vol, h.last] at hpush
      rw [htable, hpush]
      have hold := h.chain
      rw [List.range'_concat, Nat.one_mul] at hold hnot ⊢
      exact hold.push (by simp) hnot
    have hall : ∀ x ∈ List.range' a (m + 1) ++ [c], IsDataClus v x := by
      intro x hx
      rcases List.mem_append.mp hx with hx | hx
      · exact hold x hx
      · exact List.mem_singleton.mp hx ▸ hfree.1
    exact hchain.chainClus hv hall (by simp) n

/-- A file created with consecutive clusters, and appended to with an adjacent cluster at each
extension, is read back through its chain, and nothing else is overwritten. -/
theorem appends_follow_chain (env env' : Env) (fuel : ℕ) (s s1 s' : Machine) (bs : List Sector)
    (hv : Geometry s.ram.vol) (hroot : RootOk s.ram.vol s.card) (hneeds : NeedsClus s)
    (hroom : clusWanted s ≤ (freeClus s.ram.vol s.card).length)
    (hrow : taken s (clusWanted s) = List.range' (firstFree s) (clusWanted s))
    (hopen : (fat32OpenLog fuel).run (fwStep env) s = (.ok (), s1))
    (hrun : Appends env' Adjacent s1 bs s') : ReadsBack s' bs ∧ OnlyChain s1 s' := by
  obtain ⟨_, _, _, _, _, _, _, _, _, h, rfl⟩ := openLog_new hv hroot hneeds hroom hopen
  obtain ⟨_, _, hlaid⟩ := (h.laid hv hroom hrow).appends hv hrun
  exact ⟨hlaid.readsBack hv, hlaid.onlyChain hv⟩

/-- The append of a sector that has not wrapped. -/
def sectorCall : AppendCall := ⟨64, 512, 512, none, 0⟩

theorem sectorCall_high {i : ℕ} (hi : i < 512) :
    ¬ InSpans sectorCall.spanA sectorCall.lenA sectorCall.spanB sectorCall.lenB i := by
  rintro (⟨hlo, _⟩ | ⟨_, hbad, _⟩)
  · have : 512 ≤ i := hlo
    omega
  · cases hbad

/-- With a card that answers, the append to a full file extends it by the lowest free cluster. -/
theorem Laid.overflow (hv : Geometry v) (hgood : env.Good) (h : Laid v fat0 disk a m E bs s)
    (hfull : bs.length = E) (hhead : (freeClus v s.card).head? = some c) (hclus : clusCount v < 64) :
    ∃ t s', sectorCall.code.run (fwStep env) s = (.ok (), s') ∧ Extended s c t ∧
      Scratch ((t.logged t.ram.logfile.curLba (sectorCall.block s)).withLogfile
        (t.ram.logfile.advance (sectorCall.lenA + sectorCall.lenB))) s' := by
  have hvs : Geometry s.ram.vol := h.vol.symm ▸ hv
  have hfree : freeClus s.ram.vol s.card ≠ [] := by
    rw [h.vol]
    exact List.ne_nil_of_mem (List.mem_of_head? hhead)
  have hend : s.ram.logfile.endLba ≤ s.ram.logfile.curLba := by
    rw [h.cursor, h.limit, hfull]
  have hlast : IsDataClus s.ram.vol s.ram.logfile.lastClus := by
    rw [h.vol, h.last]
    exact h.data m le_rfl
  obtain ⟨t, hmake⟩ : ∃ t, (makeRoom 64 s.ram.logfile).run (fwStep env) s = (.ok (), t) := by
    rw [makeRoom, doIf, if_pos hend]
    rcases hext : (extendLog 64).run (fwStep env) s with ⟨r, t⟩
    rcases extendLog_cases hvs hlast hfree hext with ⟨_, rfl, _⟩ | ⟨e, rfl, hcode | ⟨_, hle⟩, _⟩
    · exact ⟨t, rfl⟩
    · exact absurd hcode (extendLog_noCode hgood 64 s e t hext)
    · rw [h.vol] at hle
      omega
  obtain ⟨s', hcall⟩ := append_succeeds hgood sectorCall hmake
  obtain ⟨c', t', hext, hs'⟩ :=
    append_in_new hvs hlast hfree hend (fun _ hi => sectorCall_high hi) hcall
  rw [← h.vol] at hhead
  obtain rfl := hext.free.head hhead
  exact ⟨t', s', hcall, hext, hs'⟩

theorem Laid.freeClus {card : ℕ → Sector}
    (h : Laid v (fatTable v card) disk a m E bs s) :
    Barelog.freeClus v s.card = (Barelog.freeClus v card).filter (· ∉ List.range' a (m + 1)) := by
  refine h.chain.freeBelow (fun h0 => ?_) _
  obtain ⟨j, hj, hzero⟩ := List.mem_range'.mp h0
  have h2 := (h.data j (by omega)).1
  omega

/-- A file on a fresh disk, all its 2048 sectors appended to, and one sector more. -/
theorem appends_follow_chain_fresh : ∃ bs s1 s', bs.length = 2049 ∧
    (fat32OpenLog 64).run (fwStep Env.ideal) freshDisk = (.ok (), s1) ∧
    Appends Env.ideal Adjacent s1 bs s' ∧ ReadsBack s' bs ∧ OnlyChain s1 s' := by
  have hv : Geometry smallVol := smallVol_geometry
  have hroom : clusWanted freshDisk ≤ (freeClus freshDisk.ram.vol freshDisk.card).length := by
    decide +kernel
  have hrow : taken freshDisk (clusWanted freshDisk) =
      List.range' (firstFree freshDisk) (clusWanted freshDisk) := by
    decide +kernel
  have hgood : Env.ideal.Good := fun _ => rfl
  obtain ⟨hneeds, s1, hopen⟩ := openLog_succeeds 64 hgood smallVol_geometry freshDisk_root hroom
    (by decide) (by decide +kernel)
  obtain ⟨_, _, _, _, _, _, _, _, _, h, rfl⟩ :=
    openLog_new smallVol_geometry freshDisk_root hneeds hroom hopen
  have hlaid := h.laid smallVol_geometry hroom hrow
  have hE : preallocSectors freshDisk = 2048 := by decide +kernel
  have ha : firstFree freshDisk = 3 := by decide +kernel
  have hm : clusWanted freshDisk - 1 = 15 := by decide +kernel
  rw [hE, ha, hm] at hlaid
  have hin : ∀ (t : Machine) (call : AppendCall), t.ram.logfile.curLba < t.ram.logfile.endLba →
      Adjacent t call := fun _ _ hlt => .inl hlt
  obtain ⟨bs, s2, hlen, hrun, h2⟩ := hlaid.fill hv hgood hin le_rfl
  have hhead : (freeClus smallVol s2.card).head? = some 19 := by
    rw [h2.freeClus]
    decide +kernel
  obtain ⟨_, s3, hcall, -⟩ := h2.overflow hv hgood hlen hhead (by decide)
  have hidle : Idle s2 s2 := ⟨_, _, _, _, _, _, rfl⟩
  have hadj : Adjacent s2 sectorCall := by
    refine .inr ⟨?_, fun _ hi => sectorCall_high hi⟩
    rw [h2.vol, h2.last]
    exact hhead
  have hall := hrun.append sectorCall hidle hadj hcall
  exact ⟨bs ++ [sectorCall.block s2], _, s3, by rw [List.length_append, hlen]; rfl, hopen, hall,
    appends_follow_chain Env.ideal Env.ideal 64 freshDisk _ s3 _ smallVol_geometry freshDisk_root
      hneeds hroom hrow hopen hall⟩

/-- A disk on which cluster 19, behind the clusters of the new file, is in use. -/
def splitDisk : Machine :=
  { freshDisk with card := blankCard fun i => if i < 12 ∨ 76 ≤ i ∧ i < 80 then 0xFF else 0 }

theorem splitDisk_root : RootOk splitDisk.ram.vol splitDisk.card :=
  rootOk_single (by decide) (by decide)

theorem splitDisk_opens : ∃ s1, (fat32OpenLog 64).run (fwStep Env.ideal) splitDisk = (.ok (), s1) ∧
    Laid smallVol (fatTable smallVol splitDisk.card) s1.card 3 15 2048 [] s1 := by
  have hv : Geometry smallVol := smallVol_geometry
  have hroom : clusWanted splitDisk ≤ (freeClus splitDisk.ram.vol splitDisk.card).length := by
    decide +kernel
  have hrow : taken splitDisk (clusWanted splitDisk) =
      List.range' (firstFree splitDisk) (clusWanted splitDisk) := by
    decide +kernel
  obtain ⟨hneeds, s1, hopen⟩ := openLog_succeeds 64 (fun _ => rfl : Env.ideal.Good) hv
    splitDisk_root hroom (by decide) (by decide +kernel)
  obtain ⟨_, _, _, _, _, _, _, _, _, hnew, rfl⟩ := openLog_new hv splitDisk_root hneeds hroom hopen
  have hlaid := hnew.laid hv hroom hrow
  have hE : preallocSectors splitDisk = 2048 := by decide +kernel
  have ha : firstFree splitDisk = 3 := by decide +kernel
  have hm : clusWanted splitDisk - 1 = 15 := by decide +kernel
  rw [hE, ha, hm] at hlaid
  exact ⟨_, hopen, hlaid⟩

/-- The file takes clusters 3 to 18, and cluster 20 when it is full; the block appended then goes
to cluster 19, which is not in the chain. -/
theorem appends_leave_chain : ∃ bs s1 s', bs.length = 2049 ∧
    (fat32OpenLog 64).run (fwStep Env.ideal) splitDisk = (.ok (), s1) ∧
    taken splitDisk (clusWanted splitDisk) = List.range' 3 16 ∧
    Appends Env.ideal (fun _ _ => True) s1 bs s' ∧ ¬ ReadsBack s' bs ∧ ¬ OnlyChain s1 s' := by
  obtain ⟨s1, hopen, hlaid⟩ := splitDisk_opens
  have hv : Geometry smallVol := smallVol_geometry
  obtain ⟨bs, s2, hlen, hrun, h2⟩ := hlaid.fill hv (fun _ => rfl : Env.ideal.Good)
    (fun (_ : Machine) (_ : AppendCall) _ => trivial) le_rfl
  -- a byte that is neither 0 nor the one in cluster 19
  obtain ⟨b, hb0, hb1⟩ : ∃ b : Byte, b ≠ 0 ∧ b ≠ (s1.card (clusToLba smallVol 19)) 0 := by
    by_cases h1 : (s1.card (clusToLba smallVol 19)) 0 = 1
    · exact ⟨2, by decide, by rw [h1]; decide⟩
    · exact ⟨1, by decide, fun h => h1 h.symm⟩
  let t : Machine := { s2 with ring := fun _ => b, ram := { s2.ram with escSeen := 0 } }
  have hidle : Idle s2 t := ⟨_, _, _, _, _, _, rfl⟩
  have ht := h2.idle hidle
  have hhead : (freeClus smallVol t.card).head? = some 20 := by
    rw [ht.freeClus]
    decide +kernel
  obtain ⟨w, s3, hcall, hext, hs3⟩ := ht.overflow hv (fun _ => rfl : Env.ideal.Good) hlen hhead (by decide)
  obtain ⟨hblock, hzeros, hvol3, hfirst3, hchain⟩ := ht.astray hv hlen (by decide) hext (by decide) hs3
  have hbyte : sectorCall.block t 0 = b := by
    have hsec : (spanBytes t.ring 512 512 none 0).getD 0 0 = t.ring (512 + 0) :=
      spanBytes_first t.ring none 0 (by decide)
    exact hsec
  refine ⟨bs ++ [sectorCall.block t], s1, s3, by rw [List.length_append, hlen]; rfl, hopen, ?_,
    hrun.append sectorCall hidle trivial hcall, fun hreads => ?_, fun honly => ?_⟩
  · decide +kernel
  · obtain ⟨c, hc, hdata⟩ := hreads 2048 (by rw [List.length_append, hlen]; exact Nat.lt_succ_self _)
    rw [hvol3] at hc hdata
    rw [show 2048 % smallVol.secPerClus = 0 from rfl, Nat.add_zero] at hdata
    rw [hfirst3, hchain] at hc
    obtain rfl : c = 20 := (Option.some.inj hc).symm
    have hdata' : s3.card (clusToLba smallVol 20) = sectorCall.block t := by
      rw [List.getElem_append_right (by omega)] at hdata
      simpa [hlen] using hdata
    rw [hzeros] at hdata'
    exact hb0 (hbyte.symm.trans (congrFun hdata' 0).symm)
  · have hsame := honly (clusToLba smallVol 19) (by rw [hvol3]; exact fun h => absurd h.2 (by decide)) ?_
    · rw [hblock] at hsame
      exact hb1 (hbyte.symm.trans (congrFun hsame 0))
    · intro n c hc hin
      rw [hvol3, hfirst3, hchain] at hc
      rw [hvol3] at hin
      have hmem : c ∈ List.range' 3 16 ++ [20] := List.mem_of_mem_take hc
      have h19 : InClus smallVol 19 (clusToLba smallVol 19) := ⟨le_rfl, by decide⟩
      have hdata : IsDataClus smallVol c := by
        have hall : ∀ c ∈ List.range' 3 16 ++ [20], IsDataClus smallVol c := by decide
        exact hall c hmem
      rw [hin.unique hv hdata (by decide) h19] at hmem
      exact absurd hmem (by decide)

end Barelog
