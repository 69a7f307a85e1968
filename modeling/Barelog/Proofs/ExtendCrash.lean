import Barelog.Proofs.Crash
import Barelog.Proofs.NewFile

/-! A power loss while the log file is extended. The old last cluster is linked to the new one
before the new one has its end-of-chain marker: in between, the chain runs into a free cluster. -/

namespace Barelog

open Prog Links

/-- The chain from `first` comes to an end-of-chain entry, and to no free cluster. -/
structure ChainEnds (next : ℕ → ℕ) (first : ℕ) : Prop where
  ends : ∃ x, Reach next IsLink first x ∧ 0x0FFFFFF8 ≤ next x
  used : ∀ x, Reach next IsLink first x → next x ≠ 0

/-- The clusters `l` of a file, linked from its first to its last one. -/
structure ChainOf (v : Vol) (fat : ℕ → ℕ) (first last : ℕ) (l : List ℕ) : Prop where
  head : l.head? = some first
  last : l.getLast? = some last
  data : ∀ c ∈ l, IsDataClus v c
  linked : Linked fat l

/-- The chain of the log file is well formed: it ends in end-of-chain at `last_clus`. -/
def WellChained (s : Machine) : Prop :=
  (∃ l, ChainOf s.ram.vol (fatTable s.ram.vol s.card) s.ram.logfile.firstClus
    s.ram.logfile.lastClus l) ∧
    0x0FFFFFF8 ≤ fatTable s.ram.vol s.card s.ram.logfile.lastClus

/-- The FAT during an extension from `last` to `c`, when `k` sectors have been written. -/
inductive Linking (v : Vol) (fat : ℕ → ℕ) (last c : ℕ) : ℕ → (ℕ → ℕ) → Prop
  | before : Linking v fat last c 0 fat
  | linked {k : ℕ} (hpos : 1 ≤ k) (hle : k ≤ v.numFats) :
      Linking v fat last c k (Function.update fat last c)
  | ended {k : ℕ} (hlt : v.numFats < k) :
      Linking v fat last c k (Function.update (Function.update fat last c) c eoc)

variable {env : Env} {s s' s0 t : Machine} {v : Vol} {fat fat' : ℕ → ℕ} {l : List ℕ}
  {c k first last fuel : ℕ} {r : Except Stop Unit}

/-! Chains. -/

theorem IsDataClus.isLink (hv : Geometry v) (hc : IsDataClus v c) : IsLink c :=
  ⟨hc.1, by have := hc.2; have := hv.small; omega⟩

theorem ChainOf.split (h : ChainOf v fat first last l) : ∃ init, l = init ++ [last] :=
  ⟨l.dropLast, (List.dropLast_append_getLast? _ h.last).symm⟩

theorem ChainOf.last_mem (h : ChainOf v fat first last l) : last ∈ l :=
  List.mem_of_getLast? h.last

/-- The entry of a cluster of the chain is the next one, except for the last. -/
theorem ChainOf.next_mem (h : ChainOf v fat first last l) (hc : c ∈ l) : c = last ∨ fat c ∈ l := by
  obtain ⟨init, hinit⟩ := h.split
  have hc' := hc
  rw [hinit, List.mem_append, List.mem_singleton] at hc'
  refine hc'.symm.imp_right fun hmem => h.linked.next_mem ?_
  rwa [hinit, List.dropLast_concat]

theorem ChainOf.reach (hv : Geometry v) (h : ChainOf v fat first last l) (hc : c ∈ l) :
    Reach fat IsLink first c := by
  have hhead := h.head
  have hlinked := h.linked
  cases l with
  | nil => cases hc
  | cons a l =>
    cases hhead
    exact hlinked.reach (fun x hx => (h.data x (List.mem_cons_of_mem _ hx)).isLink hv) hc

theorem ChainOf.ne_zero (h : ChainOf v fat first last l) (hlast : fat last ≠ 0) (hc : c ∈ l) :
    fat c ≠ 0 := by
  rcases h.next_mem hc with rfl | hnext
  · exact hlast
  · exact fun hzero => absurd (h.data _ hnext).1 (by rw [hzero]; decide)

theorem ChainOf.of_reach (h : ChainOf v fat first last l) (hends : 0x0FFFFFF8 ≤ fat last) {x : ℕ}
    (hx : Reach fat IsLink first x) : x ∈ l := by
  refine reach_mem hx (List.mem_of_head? h.head) fun y hy hlink => ?_
  rcases h.next_mem hy with rfl | hnext
  · exact absurd hlink.2 (by omega)
  · exact hnext

theorem ChainOf.chainEnds (hv : Geometry v) (h : ChainOf v fat first last l)
    (hends : 0x0FFFFFF8 ≤ fat last) : ChainEnds fat first :=
  ⟨⟨_, h.reach hv h.last_mem, hends⟩, fun _ hx => h.ne_zero (by omega) (h.of_reach hends hx)⟩

/-- A last cluster that does not point back into the chain is linked to a new one. -/
theorem ChainOf.link (h : ChainOf v fat first last l) (hback : fat last ∉ l)
    (hc : IsDataClus v c) :
    ChainOf v (Function.update fat last c) first c (l ++ [c]) := by
  obtain ⟨init, hinit⟩ := h.split
  have hnot : last ∉ init := by
    intro hmem
    refine hback (h.linked.next_mem ?_)
    rwa [hinit, List.dropLast_concat]
  have hne : l ≠ [] := List.ne_nil_of_mem h.last_mem
  refine ⟨?_, List.getLast?_concat, fun x hx => ?_, ?_⟩
  · rw [List.head?_append_of_ne_nil _ hne]
    exact h.head
  · rcases List.mem_append.mp hx with hx | hx
    · exact h.data x hx
    · rw [List.mem_singleton.mp hx]
      exact hc
  · have hlinked := h.linked
    rw [hinit] at hlinked ⊢
    exact hlinked.push hnot

theorem ChainOf.congr (h : ChainOf v fat first last l)
    (heq : ∀ x ∈ l, x = last ∨ fat' x = fat x) (hback : fat last ∉ l) :
    ChainOf v fat' first last l := by
  refine ⟨h.head, h.last, h.data, h.linked.congr fun x hx => ?_⟩
  rcases heq x (List.mem_of_mem_dropLast hx) with rfl | hsame
  · exact absurd (h.linked.next_mem hx) hback
  · exact hsame

theorem ChainOf.extend (h : ChainOf v fat first last l) (hback : fat last ∉ l)
    (hlast : fat last ≠ 0) (hc : IsDataClus v c) (hfree : fat c = 0) :
    ChainOf v (Function.update (Function.update fat last c) c eoc)
      first c (l ++ [c]) := by
  have hlink := h.link hback hc
  have hne : c ≠ last := fun he => hlast (he ▸ hfree)
  refine hlink.congr (fun x hx => ?_) fun hmem => ?_
  · by_cases hxc : x = c
    · exact .inl hxc
    · exact .inr (Function.update_of_ne hxc _ _)
  · change Function.update fat last c c ∈ l ++ [c] at hmem
    rw [Function.update_of_ne hne, hfree] at hmem
    exact absurd (hlink.data 0 hmem).1 (by decide)

theorem ChainOf.not_back (hv : Geometry v) (h : ChainOf v fat first last l)
    (hends : 0x0FFFFFF8 ≤ fat last) : fat last ∉ l :=
  fun hmem => absurd ((h.data _ hmem).isLink hv).2 (by omega)

/-- While only the link is written the chain runs into the new cluster, which is still free. -/
theorem Linking.chainEnds_iff (hv : Geometry v) (h : ChainOf v fat first last l)
    (hends : 0x0FFFFFF8 ≤ fat last) (hc : IsDataClus v c) (hfree : fat c = 0)
    (hk : Linking v fat last c k fat') :
    ChainEnds fat' first ↔ k = 0 ∨ v.numFats < k := by
  have hback := h.not_back hv hends
  have hlast : fat last ≠ 0 := by omega
  have hne : c ≠ last := fun he => hlast (he ▸ hfree)
  cases hk with
  | before => exact ⟨fun _ => .inl rfl, fun _ => h.chainEnds hv hends⟩
  | linked hpos hle =>
    refine ⟨fun hwhole => absurd ?_ (hwhole.used c ?_), fun hk => absurd hk (by omega)⟩
    · rw [Function.update_of_ne hne]
      exact hfree
    · exact (h.link hback hc).reach hv (List.mem_append_right _ (List.mem_singleton_self c))
  | ended hlt =>
    refine ⟨fun _ => .inr hlt, fun _ => (h.extend hback hlast hc hfree).chainEnds hv ?_⟩
    change 0x0FFFFFF8 ≤ Function.update (Function.update fat last c) c eoc c
    rw [Function.update_self]
    decide

theorem Linking.later {n : ℕ} (h : Linking v fat last c k fat') (hlt : v.numFats < k) (hle : k ≤ n) :
    Linking v fat last c n fat' := by
  cases h with
  | before => exact absurd hlt (Nat.not_lt_zero _)
  | linked hpos hk => exact absurd hk (by omega)
  | ended _ => exact .ended (by omega)

/-! The extension, in sector writes. -/

theorem Scratch.sectorWrites (h : Scratch s s') : s'.sectorWrites = s.sectorWrites := by
  rw [Machine.sectorWrites, Machine.sectorWrites, h.events]

/-- How far the two entries have got, and that it is all the way when they return 0. -/
theorem linkNew_stages (hv : Geometry s0.ram.vol) (hs : Edited s0 fat s)
    (hlast : IsDataClus s0.ram.vol last) (hc : IsDataClus s0.ram.vol c)
    (hrun : Prog.run (fwStep env) (do fatWriteEntry last c; fatWriteEntry c 0x0FFFFFFF) s =
      (r, s')) :
    ∃ k fat', Edited s0 fat' s' ∧ Linking s0.ram.vol fat last c k fat' ∧
      s'.sectorWrites = s.sectorWrites + k ∧ (r = .ok () → s0.ram.vol.numFats < k) := by
  have hn := hv.numFats
  have hvol : s.ram.vol = s0.ram.vol := congrArg Ram.vol hs.ram
  rcases bind_ended hrun with ⟨_, s1, h1, h2⟩ | ⟨e, h1, rfl⟩
  · rcases fatWriteEntry_cases h1 with ⟨_, hput1⟩ | ⟨_, hbad, _⟩
    swap
    · cases hbad
    have hs1 := hs.put hv hlast (hv.clus_lt hc) hput1
    rw [hvol] at hput1 hs1
    rw [if_neg (by omega)] at hs1
    have hvol1 : s1.ram.vol = s0.ram.vol := congrArg Ram.vol hs1.ram
    have hput : ∀ m, PutFat s1 c 0x0FFFFFFF m s' →
        ∃ fat', Edited s0 fat' s' ∧ Linking s0.ram.vol fat last c (s0.ram.vol.numFats + m) fat' ∧
          s'.sectorWrites = s.sectorWrites + (s0.ram.vol.numFats + m) := by
      intro m hput2
      have hcount : s'.sectorWrites = s.sectorWrites + (s0.ram.vol.numFats + m) := by
        rw [hput2.sectorWrites, hput1.sectorWrites, Nat.add_assoc]
      refine ⟨_, hs1.put hv hc (by decide) hput2, ?_, hcount⟩
      split
      · rename_i hm
        rw [hm]
        exact .linked hn le_rfl
      · exact .ended (by omega)
    rcases fatWriteEntry_cases h2 with ⟨_, hput2⟩ | ⟨_, rfl, _, m, hput2⟩
    · obtain ⟨fat', hedit, hlinking, hcount⟩ := hput _ hput2
      rw [hvol1] at hlinking hcount
      exact ⟨_, fat', hedit, hlinking, hcount, fun _ => by omega⟩
    · obtain ⟨fat', hedit, hlinking, hcount⟩ := hput _ hput2
      exact ⟨_, fat', hedit, hlinking, hcount, nofun⟩
  · rcases fatWriteEntry_cases h1 with ⟨hbad, _⟩ | ⟨_, _, _, m, hput1⟩
    · cases hbad
    have hs1 := hs.put hv hlast (hv.clus_lt hc) hput1
    have hle := hput1.le
    rw [hvol] at hle
    refine ⟨m, _, hs1, ?_, hput1.sectorWrites, nofun⟩
    split
    · rename_i hm
      rw [hm]
      exact .before
    · exact .linked (by omega) hle

theorem exists_isFirstFree (hv : Geometry v) {disk : ℕ → Sector} (hfree : freeClus v disk ≠ []) :
    ∃ c, IsFirstFree v (fatTable v disk) c := by
  obtain ⟨c, rest, hl⟩ := List.exists_cons_of_ne_nil hfree
  obtain ⟨hc, hzero⟩ := (mem_freeClus hv).mp (hl ▸ List.mem_cons_self : c ∈ freeClus v disk)
  refine ⟨c, hc, (hc.fatTable hv).trans hzero, fun x h2 hlt hx => ?_⟩
  have hmem : x ∈ freeBelow (fatTable v disk) c := mem_freeBelow.mpr ⟨hlt, h2, hx⟩
  rw [freeBelow_head hl] at hmem
  cases hmem

/-- How far an extension has got, and that it is all the way when it returns 0. -/
theorem extendLog_stages (hv : Geometry s.ram.vol)
    (hlast : IsDataClus s.ram.vol s.ram.logfile.lastClus)
    (hfree : freeClus s.ram.vol s.card ≠ [])
    (hrun : (extendLog fuel).run (fwStep env) s = (r, s')) :
    ∃ c k, IsFirstFree s.ram.vol (fatTable s.ram.vol s.card) c ∧
      Linking s.ram.vol (fatTable s.ram.vol s.card) s.ram.logfile.lastClus c k
        (fatTable s.ram.vol s'.card) ∧
      s'.sectorWrites = s.sectorWrites + k ∧ (r = .ok () → s.ram.vol.numFats < k) := by
  rcases extendLog_parts hv hfree hrun with ⟨e, rfl, _, hs⟩ | ⟨c, s1, r2, s2, hfirst, hs1, hlink, hrest⟩
  · obtain ⟨c, hfirst⟩ := exists_isFirstFree hv hfree
    refine ⟨c, 0, hfirst, ?_, hs.sectorWrites, nofun⟩
    rw [hs.card]
    exact .before
  have hedit : Edited s (fatTable s.ram.vol s.card) s1 := (Edited.refl s).scratch hs1
  obtain ⟨k, fat, hs2, hlinking, hk, hall⟩ := linkNew_stages hv hedit hlast hfirst.1 hlink
  rw [hs1.sectorWrites] at hk
  rcases hrest with ⟨_, _, rfl, rfl⟩ | ⟨hok, hclear⟩
  · exact ⟨c, k, hfirst, hs2.table.symm ▸ hlinking, hk, nofun⟩
  have hlt := hall hok
  have hlba := hv.dataLba_le hfirst.1
  -- the zero-fill leaves the FAT alone
  have htable : fatTable s.ram.vol s'.card = fatTable s.ram.vol s2.card := by
    rcases clearNew_cases hv hfirst.1 hclear with ⟨_, s3, hs3, hset⟩ | ⟨_, _, _, hs3⟩
    · have hcard : s'.card = s3.card := by rw [hset, Machine.withLogfile]
      rw [hcard]
      exact hs3.table hv hlba
    · exact hs3.table hv hlba
  have hmono := run_sectorWrites env (clearSectors (clusToLba s.ram.vol c) s.ram.vol.secPerClus >>=
    fun _ => setLogfile fun l => { l with
      endLba := u32 (clusToLba s.ram.vol c + s.ram.vol.secPerClus), lastClus := c }) s2
  rw [hclear] at hmono
  obtain ⟨n, hn⟩ := Nat.exists_eq_add_of_le (show s2.sectorWrites ≤ s'.sectorWrites from hmono)
  refine ⟨c, k + n, hfirst, ?_, by omega, fun _ => by omega⟩
  rw [htable, hs2.table]
  exact hlinking.later hlt (Nat.le_add_right k n)

structure SameClus (v : Vol) (t s' : Machine) : Prop where
  table : fatTable v s'.card = fatTable v t.card
  vol : s'.ram.vol = t.ram.vol
  first : s'.ram.logfile.firstClus = t.ram.logfile.firstClus
  last : s'.ram.logfile.lastClus = t.ram.logfile.lastClus
  events : ∃ evs, s'.events = t.events ++ evs

theorem Scratch.sameClus (h : Scratch t s') : SameClus v t s' where
  table := by rw [h.card]
  vol := by rw [h.ram]
  first := by rw [h.ram]
  last := by rw [h.ram]
  events := ⟨[], by rw [h.events, List.append_nil]⟩

theorem SameClus.trans (h : SameClus v s t) (h' : SameClus v t s') : SameClus v s s' where
  table := h'.table.trans h.table
  vol := h'.vol.trans h.vol
  first := h'.first.trans h.first
  last := h'.last.trans h.last
  events := by
    obtain ⟨evs, hevs⟩ := h.events
    obtain ⟨evs', hevs'⟩ := h'.events
    exact ⟨evs ++ evs', by rw [hevs', hevs, List.append_assoc]⟩

theorem SameClus.logged (hv : Geometry v) {lba : ℕ} (hlba : v.dataLba ≤ lba) (d : Sector) :
    SameClus v t (t.logged lba d) where
  table := fatTable_update hv hlba d
  vol := rfl
  first := rfl
  last := rfl
  events := ⟨_, rfl⟩

theorem SameClus.advance (t : Machine) (n : ℕ) :
    SameClus v t (t.withLogfile (t.ram.logfile.advance n)) where
  table := rfl
  vol := rfl
  first := rfl
  last := rfl
  events := ⟨[], (List.append_nil _).symm⟩

section Append

variable {spanA lenA lenB : ℕ} {spanB : Option ℕ}

/-- Making room is all that an append does to the FAT and to the clusters of the file. -/
theorem append_parts (hv : Geometry v) (hcursor : v.dataLba ≤ s.ram.logfile.curLba)
    (hrun : (fat32AppendSector fuel spanA lenA spanB lenB).run (fwStep env) s = (r, s')) :
    ∃ r1 t, (makeRoom fuel s.ram.logfile).run (fwStep env) s = (r1, t) ∧
      (r1 = .ok () ∧ SameClus v t s' ∨ (∃ e, r = .error e) ∧ s' = t) := by
  rcases append_cases hrun with ⟨t, hmake, ⟨_, hs⟩ | ⟨_, _, hs | hs⟩⟩ | ⟨e, rfl, hmake⟩
  · have hadvance := SameClus.advance (v := v) (t.logged s.ram.logfile.curLba
      (spanSector t.ring spanA lenA spanB lenB)) (lenA + lenB)
    have hlogged := (SameClus.logged hv hcursor _).trans hadvance
    exact ⟨_, t, hmake, .inl ⟨rfl, hlogged.trans hs.sameClus⟩⟩
  · exact ⟨_, t, hmake, .inl ⟨rfl, hs.sameClus⟩⟩
  · exact ⟨_, t, hmake, .inl ⟨rfl, (SameClus.logged hv hcursor _).trans hs.sameClus⟩⟩
  · exact ⟨_, s', hmake, .inr ⟨⟨e, rfl⟩, rfl⟩⟩

/-- How far an append that extends the file has got, in sector writes. -/
theorem append_stages (hv : Geometry s.ram.vol)
    (hlast : IsDataClus s.ram.vol s.ram.logfile.lastClus)
    (hcursor : s.ram.vol.dataLba ≤ s.ram.logfile.curLba)
    (hfull : s.ram.logfile.endLba ≤ s.ram.logfile.curLba)
    (hfree : freeClus s.ram.vol s.card ≠ [])
    (hrun : (fat32AppendSector fuel spanA lenA spanB lenB).run (fwStep env) s = (r, s')) :
    ∃ c k, IsFirstFree s.ram.vol (fatTable s.ram.vol s.card) c ∧
      Linking s.ram.vol (fatTable s.ram.vol s.card) s.ram.logfile.lastClus c k
        (fatTable s.ram.vol s'.card) ∧
      s'.sectorWrites = s.sectorWrites + k := by
  obtain ⟨r1, t, hmake, hrest⟩ := append_parts hv hcursor hrun
  rcases makeRoom_cases hmake with ⟨hlt, _⟩ | ⟨_, hext⟩
  · exact absurd hlt (by omega)
  obtain ⟨c, k, hfirst, hlinking, hk, hall⟩ := extendLog_stages hv hlast hfree hext
  rcases hrest with ⟨rfl, hsame⟩ | ⟨_, rfl⟩
  swap
  · exact ⟨c, k, hfirst, hlinking, hk⟩
  obtain ⟨evs, hevents⟩ := hsame.events
  obtain ⟨n, hn⟩ := Nat.exists_eq_add_of_le (sectorWrites_le hevents)
  refine ⟨c, k + n, hfirst, ?_, by omega⟩
  rw [hsame.table]
  exact hlinking.later (hall rfl) (Nat.le_add_right k n)

end Append

/-- When the power goes in an append that extends the file, with `k` sectors written, the chain
of the file in the first copy of the FAT ends, and reaches no free cluster, unless the link to
the new cluster is on the card and its end-of-chain marker is not: the first `num_fats` sectors
are those of the link. -/
theorem extend_crash_iff (env : Env) (fuel spanA lenA : ℕ) (spanB : Option ℕ) (lenB : ℕ)
    (s : Machine) (k : ℕ) (card : ℕ → Sector) (hv : Geometry s.ram.vol) (hchain : WellChained s)
    (hcursor : s.ram.vol.dataLba ≤ s.ram.logfile.curLba)
    (hfull : s.ram.logfile.endLba ≤ s.ram.logfile.curLba)
    (hfree : freeClus s.ram.vol s.card ≠ [])
    (hcrash : CrashAfter env (fat32AppendSector fuel spanA lenA spanB lenB) s k card) :
    ChainEnds (fatTable s.ram.vol card) s.ram.logfile.firstClus ↔
      k = 0 ∨ s.ram.vol.numFats < k := by
  obtain ⟨⟨l, hl⟩, hends⟩ := hchain
  obtain ⟨env', r, s', hrun, rfl, hk⟩ := hcrash.run
  obtain ⟨c, n, ⟨hc, hzero, -⟩, hlinking, hn⟩ :=
    append_stages hv (hl.data _ hl.last_mem) hcursor hfull hfree hrun
  obtain rfl : n = k := by omega
  exact hlinking.chainEnds_iff hv hl hends hc hzero

def fiveVol : Vol := { tinyVol with totSec := 15 }

theorem fiveVol_geometry : Geometry fiveVol := by decide

def fullLog : Machine :=
  let s := Machine.mounted fiveVol (blankCard (usedFat 4))
  { s with ram := { s.ram with logfile := ⟨3, 13, 13, 11, 0, 512, 512, 3⟩ } }

theorem fullLog_chain : ChainOf fiveVol (fatTable fiveVol fullLog.card) 3 3 [3] := by
  refine ⟨rfl, rfl, fun c hc => ?_, linked_singleton _ 3⟩
  rw [List.mem_singleton.mp hc]
  decide

theorem fullLog_ends : 0x0FFFFFF8 ≤ fatTable fiveVol fullLog.card 3 := by decide +kernel

theorem fullLog_chained : WellChained fullLog := ⟨⟨_, fullLog_chain⟩, fullLog_ends⟩

theorem fullLog_free : freeClus fullLog.ram.vol fullLog.card ≠ [] := by decide +kernel

/-- The power goes after request 6, the write of the link: the chain runs into cluster 4. -/
theorem extend_crash_free : WellChained fullLog ∧
    fullLog.ram.logfile.endLba ≤ fullLog.ram.logfile.curLba ∧
    ∃ card, CrashAfter (Env.ideal.cut 6) (fat32AppendSector 8 512 512 none 0) fullLog 1 card ∧
      ¬ ChainEnds (fatTable fullLog.ram.vol card) fullLog.ram.logfile.firstClus := by
  have hcrash : CrashAfter (Env.ideal.cut 6) (fat32AppendSector 8 512 512 none 0) fullLog 1 _ :=
    crashAfter_end (by decide +kernel)
  refine ⟨fullLog_chained, le_rfl, _, hcrash, ?_⟩
  obtain ⟨env, r, s', hrun, hcard, hk⟩ := hcrash.run
  obtain ⟨c, k, ⟨hc, hzero, -⟩, hlinking, hk'⟩ :=
    append_stages fiveVol_geometry (by decide) (by decide) le_rfl fullLog_free hrun
  rw [hcard] at hlinking
  have hiff := hlinking.chainEnds_iff fiveVol_geometry fullLog_chain fullLog_ends hc hzero
  obtain rfl : k = 1 := by omega
  exact fun h => absurd (hiff.mp h) (by decide)

/-- The power goes after request 9, the write of the end-of-chain marker. -/
theorem extend_crash_marked : ∃ card,
    CrashAfter (Env.ideal.cut 9) (fat32AppendSector 8 512 512 none 0) fullLog 2 card ∧
      ChainEnds (fatTable fullLog.ram.vol card) fullLog.ram.logfile.firstClus := by
  have hcrash : CrashAfter (Env.ideal.cut 9) (fat32AppendSector 8 512 512 none 0) fullLog 2 _ :=
    crashAfter_end (by decide +kernel)
  exact ⟨_, hcrash, (extend_crash_iff _ _ _ _ _ _ _ _ _ fiveVol_geometry fullLog_chained
    (by decide) le_rfl fullLog_free hcrash).mpr (.inr (by decide))⟩

end Barelog
