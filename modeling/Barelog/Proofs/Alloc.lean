import Barelog.Lib.Links
import Barelog.Proofs.NameSearch

/-! The allocation of clusters. While there are free data clusters enough, the search never
leaves the data clusters, and it takes the lowest free ones, each linked to the next. -/

namespace Barelog

open Prog Links

abbrev eoc : ℕ := 0x0FFFFFFF

def fatTable (v : Vol) (card : ℕ → Sector) (c : ℕ) : ℕ :=
  if c < 128 * v.fatSz32 then fatEntry v card c else 0

def freeBelow (fat : ℕ → ℕ) (c : ℕ) : List ℕ :=
  (List.range c).filter fun x => 2 ≤ x ∧ fat x = 0

def freeClus (v : Vol) (card : ℕ → Sector) : List ℕ :=
  freeBelow (fatTable v card) (clusCount v + 2)

/-- The table `fat` has the list `l` linked, and for the rest is `fat0`. -/
def Built (fat0 fat : ℕ → ℕ) (l : List ℕ) : Prop :=
  Linked fat l ∧ ∀ x, x ∉ l.dropLast → fat x = fat0 x

/-- Only entries of data clusters have changed, into those of a chain of data clusters. -/
def Grown (v : Vol) (fat0 fat : ℕ → ℕ) : Prop :=
  ∀ x, fat x = fat0 x ∨ IsDataClus v x ∧ (IsDataClus v (fat x) ∨ fat x = eoc)

/-- `s` is `s0` but for scratch memory and the FAT entries of data clusters; its FAT is `fat`. -/
structure Edited (s0 : Machine) (fat : ℕ → ℕ) (s : Machine) : Prop where
  reach : ∃ card evs, Scratch (s0.onCard card evs) s ∧
    (∀ e ∈ evs, ∃ c, IsDataClus s0.ram.vol c ∧ IsFatWrite s0.ram.vol c e) ∧
    ∀ lba, ¬ InFat s0.ram.vol lba → card lba = s0.card lba
  table : fatTable s0.ram.vol s.card = fat

/-- The allocation loop at its test, with `c` the next cluster to look at. -/
structure AllocAt (s0 : Machine) (c : ℕ) (a : Alloc) (s : Machine) : Prop where
  built : ∃ fat, Edited s0 fat s ∧
    Built (fatTable s0.ram.vol s0.card) fat (freeBelow (fatTable s0.ram.vol s0.card) c)
  first : a.firstClus = (freeBelow (fatTable s0.ram.vol s0.card) c).headD 0
  last : a.lastClus = (freeBelow (fatTable s0.ram.vol s0.card) c).getLastD 0
  prev : a.prevClus = a.lastClus
  found : a.foundClus = (freeBelow (fatTable s0.ram.vol s0.card) c).length
  two_le : 2 ≤ c
  le : c ≤ clusCount s0.ram.vol + 2

/-- What the loop carries along: `I` at its test, `F` where it may stop. -/
structure Carried (env : Env) (s0 : Machine) (I F : Machine → Prop) : Prop where
  read : ∀ {t t' : Machine}, I t → Scratch t t' → I t'
  write : ∀ {c val : ℕ} {r : Except Stop Unit} {t t' : Machine}, I t → t.ram = s0.ram →
    IsDataClus s0.ram.vol c → fatTable s0.ram.vol s0.card c = 0 → val < 2 ^ 28 →
    (fatWriteEntry c val).run (fwStep env) t = (r, t') → (r = .ok () → I t') ∧ F t'
  stop : ∀ {t : Machine}, I t → F t

variable {env : Env} {s0 s s' : Machine} {I F : Machine → Prop} {v : Vol} {disk : ℕ → Sector} {fat0 fat : ℕ → ℕ}
  {l : List ℕ} {c x p val : ℕ}

/-! Free clusters. -/

theorem mem_freeBelow : x ∈ freeBelow fat c ↔ x < c ∧ 2 ≤ x ∧ fat x = 0 := by
  simp [freeBelow]

theorem freeBelow_succ (h2 : 2 ≤ c) :
    freeBelow fat (c + 1) = freeBelow fat c ++ if fat c = 0 then [c] else [] := by
  rw [freeBelow, List.range_succ, List.filter_append, ← freeBelow]
  congr 1
  by_cases hc : fat c = 0
  · simp [hc, h2]
  · simp [hc]

theorem freeBelow_initial {d : ℕ} (h : c ≤ d) : freeBelow fat c <+: freeBelow fat d := by
  obtain ⟨k, rfl⟩ := Nat.exists_eq_add_of_le h
  rw [freeBelow, freeBelow, List.range_add, List.filter_append]
  exact List.prefix_append _ _

theorem freeBelow_nodup (fat : ℕ → ℕ) (c : ℕ) : (freeBelow fat c).Nodup :=
  List.nodup_range.filter _

theorem IsDataClus.of_freeBelow (hc : c ≤ clusCount v + 2) (h : x ∈ freeBelow fat c) :
    IsDataClus v x := by
  obtain ⟨hlt, h2, _⟩ := mem_freeBelow.mp h
  exact ⟨h2, by omega⟩

/-! Tables. -/

theorem IsDataClus.fatTable (hv : Geometry v) (hc : IsDataClus v c) :
    fatTable v disk c = fatEntry v disk c :=
  if_pos (hv.lt_entries hc)

theorem fatTable_putFat (hv : Geometry v) (hc : IsDataClus v c) (hval : val < 2 ^ 28) {m : ℕ}
    (hm : m < v.numFats) :
    fatTable v (putFat v disk c val (m + 1)) = Function.update (fatTable v disk) c val := by
  have hlt := hv.lt_entries hc
  funext x
  by_cases hx : x < 128 * v.fatSz32
  · rw [Barelog.fatTable, if_pos hx, fatEntry_putFat hv hlt hval hm hx, Function.update_apply,
      Barelog.fatTable, if_pos hx]
  · rw [Barelog.fatTable, if_neg hx, Function.update_of_ne (by omega), Barelog.fatTable, if_neg hx]

theorem Built.nil (fat : ℕ → ℕ) : Built fat fat [] := ⟨List.isChain_nil, fun _ _ => rfl⟩

theorem Built.singleton (fat : ℕ → ℕ) (c : ℕ) : Built fat fat [c] :=
  ⟨linked_singleton _ _, fun _ _ => rfl⟩

theorem Built.push (h : Built fat0 fat (l ++ [p])) (hp : p ∉ l) :
    Built fat0 (Function.update fat p c) (l ++ [p] ++ [c]) := by
  refine ⟨h.1.push hp, fun x hx => ?_⟩
  rw [List.dropLast_concat, List.mem_append, List.mem_singleton, not_or] at hx
  rw [Function.update_of_ne hx.2]
  refine h.2 x ?_
  rw [List.dropLast_concat]
  exact hx.1

theorem Built.grown (h : Built fat0 fat l) (hl : ∀ x ∈ l, IsDataClus v x) : Grown v fat0 fat := by
  intro x
  by_cases hx : x ∈ l.dropLast
  · exact .inr ⟨hl x (List.mem_of_mem_dropLast hx), .inl (hl _ (h.1.next_mem hx))⟩
  · exact .inl (h.2 x hx)

theorem Grown.update (h : Grown v fat0 fat) (hc : IsDataClus v c)
    (hval : IsDataClus v val ∨ val = eoc) : Grown v fat0 (Function.update fat c val) := by
  intro x
  by_cases hx : x = c
  · subst hx
    rw [Function.update_self]
    exact .inr ⟨hc, hval⟩
  · rw [Function.update_of_ne hx]
    exact h x

theorem Edited.refl (s : Machine) : Edited s (fatTable s.ram.vol s.card) s :=
  ⟨⟨s.card, [], by rw [onCard_self]; exact .refl s, by simp, fun _ _ => rfl⟩, rfl⟩

theorem Edited.scratch (h : Edited s0 fat s) (hs : Scratch s s') : Edited s0 fat s' := by
  obtain ⟨⟨card, evs, hreach, hevs, hdata⟩, htable⟩ := h
  exact ⟨⟨card, evs, hreach.trans hs, hevs, hdata⟩, by rw [hs.card, htable]⟩

theorem Edited.ram (h : Edited s0 fat s) : s.ram = s0.ram := by
  obtain ⟨_, _, hreach, _⟩ := h.reach
  exact hreach.ram

theorem Edited.eeprom (h : Edited s0 fat s) : s.eeprom = s0.eeprom := by
  obtain ⟨_, _, hreach, _⟩ := h.reach
  exact hreach.eeprom

theorem Edited.rest (h : Edited s0 fat s) {lba : ℕ} (hlba : ¬ InFat s0.ram.vol lba) :
    s.card lba = s0.card lba := by
  obtain ⟨_, _, hreach, _, hrest⟩ := h.reach
  rw [hreach.card]
  exact hrest lba hlba

theorem Edited.read (hv : Geometry s0.ram.vol) (h : Edited s0 fat s) (hc : IsDataClus s0.ram.vol c)
    {r : Except Stop ℕ} (hrun : (fatReadEntry c).run (fwStep env) s = (r, s')) :
    (r = .ok (fat c) ∨ ∃ n, r = .error (.code n)) ∧ Edited s0 fat s' := by
  obtain ⟨hr, hs⟩ := fatReadEntry_cases hrun
  rw [h.ram, ← hc.fatTable hv, h.table] at hr
  exact ⟨hr, h.scratch hs⟩

theorem Edited.put (hv : Geometry s0.ram.vol) (h : Edited s0 fat s) (hc : IsDataClus s0.ram.vol c)
    (hval : val < 2 ^ 28) {m : ℕ} (hput : PutFat s c val m s') :
    Edited s0 (if m = 0 then fat else Function.update fat c val) s' := by
  obtain ⟨⟨card, evs, hreach, hevs, hdata⟩, htable⟩ := h
  have hram : s.ram = s0.ram := hreach.ram
  have hcard : s.card = card := hreach.card
  obtain ⟨⟨evs', hevs', -, hscratch⟩, hm⟩ := hput
  rw [hram] at hevs' hscratch hm
  refine ⟨⟨putFat s0.ram.vol s.card c val m, evs ++ evs', ?_, ?_, ?_⟩, ?_⟩
  · rw [← onCard_onCard]
    exact (hreach.onCard _ _).trans hscratch
  · intro e he
    rcases List.mem_append.mp he with he | he
    · exact hevs e he
    · exact ⟨c, hc, hevs' e he⟩
  · intro lba hlba
    rw [putFat_rest hv (hv.lt_entries hc) hm hlba, hcard]
    exact hdata lba hlba
  · rw [hscratch.card]
    cases m with
    | zero => exact htable
    | succ m => rw [if_neg (by omega), ← htable]; exact fatTable_putFat hv hc hval hm

theorem Edited.write (hv : Geometry s0.ram.vol) (h : Edited s0 fat s)
    (hc : IsDataClus s0.ram.vol c) (hval : val < 2 ^ 28) {r : Except Stop Unit}
    (hrun : (fatWriteEntry c val).run (fwStep env) s = (r, s')) :
    (r = .ok () ∧ Edited s0 (Function.update fat c val) s') ∨
      ∃ n, r = .error (.code n) ∧ (Edited s0 fat s' ∨ Edited s0 (Function.update fat c val) s') := by
  rcases fatWriteEntry_cases hrun with ⟨rfl, hs⟩ | ⟨_, rfl, ⟨n, rfl⟩, m, hs⟩
  · have hall := h.put hv hc hval hs
    rw [h.ram, if_neg (by have := hv.numFats; omega)] at hall
    exact .inl ⟨rfl, hall⟩
  · refine .inr ⟨n, rfl, ?_⟩
    have hsome := h.put hv hc hval hs
    split at hsome
    · exact .inl hsome
    · exact .inr hsome

theorem Geometry.clus_lt (hv : Geometry v) (hc : IsDataClus v c) : c < 2 ^ 28 := by
  have := hv.small
  have := hc.2
  omega

/-! The allocation loop. -/

theorem carried_nothing (env : Env) (s0 : Machine) :
    Carried env s0 (fun _ => True) fun _ => True :=
  ⟨fun _ _ => trivial, fun _ _ _ _ _ _ => ⟨fun _ => trivial, trivial⟩, fun _ => trivial⟩

theorem AllocAt.start (s : Machine) : AllocAt s 2 ⟨0, 0, 0, 0⟩ s := by
  have hnil : freeBelow (fatTable s.ram.vol s.card) 2 = [] := by
    rw [List.eq_nil_iff_forall_not_mem]
    intro x hx
    obtain ⟨hlt, h2, _⟩ := mem_freeBelow.mp hx
    omega
  refine ⟨⟨_, .refl s, ?_⟩, ?_, ?_, rfl, ?_, le_rfl, Nat.le_add_left _ _⟩ <;> rw [hnil]
  · exact .nil _
  all_goals rfl

theorem AllocAt.edited {a : Alloc} (hs : AllocAt s0 c a s) :
    Edited s0 (fatTable s0.ram.vol s.card) s ∧
      Built (fatTable s0.ram.vol s0.card) (fatTable s0.ram.vol s.card)
        (freeBelow (fatTable s0.ram.vol s0.card) c) := by
  obtain ⟨fat, hedit, hbuilt⟩ := hs.built
  obtain rfl := hedit.table
  exact ⟨hedit, hbuilt⟩

theorem AllocAt.scratch {a : Alloc} (hs : AllocAt s0 c a s) (h : Scratch s s') :
    AllocAt s0 c a s' := by
  obtain ⟨hedit, hbuilt⟩ := hs.edited
  exact { hs with built := ⟨_, hedit.scratch h, hbuilt⟩ }

/-- The entry that is looked at has not been written. -/
theorem AllocAt.unseen {a : Alloc} (hs : AllocAt s0 c a s) :
    fatTable s0.ram.vol s.card c = fatTable s0.ram.vol s0.card c := by
  refine hs.edited.2.2 c fun hmem => ?_
  have := (mem_freeBelow.mp (List.mem_of_mem_dropLast hmem)).1
  omega

theorem AllocAt.skip {a : Alloc} (hs : AllocAt s0 c a s) (hc : IsDataClus s0.ram.vol c)
    (hused : fatTable s0.ram.vol s0.card c ≠ 0) : AllocAt s0 (c + 1) a s := by
  have hsucc : freeBelow (fatTable s0.ram.vol s0.card) (c + 1) = _ := freeBelow_succ hs.two_le
  rw [if_neg hused, List.append_nil] at hsucc
  obtain ⟨hbuilt, hfirst, hlast, hprev, hfound, h2, -⟩ := hs
  have hle := hc.2
  exact ⟨by rwa [hsucc], by rwa [hsucc], by rwa [hsucc], hprev, by rwa [hsucc], by omega, by omega⟩

theorem AllocAt.begin {a : Alloc} (hs : AllocAt s0 c a s) (hc : IsDataClus s0.ram.vol c)
    (hzero : fatTable s0.ram.vol s0.card c = 0) (hnone : a.foundClus = 0) :
    a.prevClus = 0 ∧ AllocAt s0 (c + 1) ⟨c, c, c, a.foundClus + 1⟩ s := by
  have hsucc : freeBelow (fatTable s0.ram.vol s0.card) (c + 1) = _ := freeBelow_succ hs.two_le
  obtain ⟨hedit, hbuilt⟩ := hs.edited
  obtain ⟨-, hfirst, hlast, hprev, hfound, h2, -⟩ := hs
  have hl := List.eq_nil_of_length_eq_zero (hfound.symm.trans hnone)
  rw [hl] at hbuilt hlast hsucc
  rw [if_pos hzero, List.nil_append] at hsucc
  have hsame : fatTable s0.ram.vol s.card = fatTable s0.ram.vol s0.card :=
    funext fun x => hbuilt.2 x List.not_mem_nil
  have hle := hc.2
  refine ⟨hprev.trans hlast, ⟨_, hedit, ?_⟩, ?_, ?_, rfl, ?_, by omega, by omega⟩ <;> rw [hsucc]
  · rw [hsame]
    exact .singleton _ c
  · rfl
  · rfl
  · rw [hnone]
    rfl

/-- A free cluster to which the last one is linked. -/
theorem AllocAt.push {a : Alloc} (hs : AllocAt s0 c a s) (hc : IsDataClus s0.ram.vol c)
    (hzero : fatTable s0.ram.vol s0.card c = 0) (hsome : a.foundClus ≠ 0) :
    IsDataClus s0.ram.vol a.prevClus ∧ fatTable s0.ram.vol s0.card a.prevClus = 0 ∧
      ∀ s', Edited s0 (Function.update (fatTable s0.ram.vol s.card) a.prevClus c) s' →
        AllocAt s0 (c + 1) ⟨c, a.firstClus, c, a.foundClus + 1⟩ s' := by
  have hsucc : freeBelow (fatTable s0.ram.vol s0.card) (c + 1) = _ := freeBelow_succ hs.two_le
  have hnodup := freeBelow_nodup (fatTable s0.ram.vol s0.card) c
  have hbuilt := hs.edited.2
  have hmem : ∀ x ∈ freeBelow (fatTable s0.ram.vol s0.card) c, IsDataClus s0.ram.vol x ∧
      fatTable s0.ram.vol s0.card x = 0 := fun x hx =>
    ⟨.of_freeBelow hs.le hx, (mem_freeBelow.mp hx).2.2⟩
  obtain ⟨-, hfirst, hlast, hprev, hfound, h2, -⟩ := hs
  rcases List.eq_nil_or_concat (freeBelow (fatTable s0.ram.vol s0.card) c) with hl | ⟨l, p, hl⟩
  · rw [hl] at hfound
    exact absurd hfound hsome
  rw [List.concat_eq_append] at hl
  rw [hl] at hbuilt hfirst hlast hfound hsucc hnodup hmem
  rw [List.getLastD_concat] at hlast
  rw [if_pos hzero] at hsucc
  obtain rfl : a.prevClus = p := hprev.trans hlast
  have hpush := hbuilt.push (c := c) fun h =>
    (List.nodup_append.mp hnodup).2.2 _ h _ (List.mem_singleton_self _) rfl
  obtain ⟨hdata, hfree⟩ := hmem a.prevClus (List.mem_append_right l (List.mem_singleton_self _))
  have hle := hc.2
  refine ⟨hdata, hfree, fun s' hedit => ⟨⟨_, hedit, ?_⟩, ?_, ?_, rfl, ?_, by omega, by omega⟩⟩ <;>
    rw [hsucc]
  · exact hpush
  · simpa using hfirst
  · simp
  · simp [hfound]

/-- The ways one turn of the loop ends: the next cluster is looked at, or an entry could not be
read or written. -/
theorem allocTurn_cases {nClus fuel : ℕ} {a : Alloc} {r : Except Stop Alloc}
    (hv : Geometry s0.ram.vol) (hcarry : Carried env s0 I F) (hs : AllocAt s0 c a s) (hI : I s)
    (hc : IsDataClus s0.ram.vol c) (hneed : a.foundClus < nClus)
    (hrun : (allocLoop nClus (fuel + 1) c a).run (fwStep env) s = (r, s')) :
    (∃ a1 s1, AllocAt s0 (c + 1) a1 s1 ∧ I s1 ∧
      (allocLoop nClus fuel (c + 1) a1).run (fwStep env) s1 = (r, s')) ∨
    ∃ n fat, r = .error (.code n) ∧ Edited s0 fat s' ∧
      Grown s0.ram.vol (fatTable s0.ram.vol s0.card) fat ∧ F s' := by
  obtain ⟨hedit, hbuilt⟩ := hs.edited
  have hgrown := hbuilt.grown fun x hx => .of_freeBelow hs.le hx
  have hnext : u32 (c + 1) = c + 1 := Nat.mod_eq_of_lt (by have := hv.clus_lt hc; omega)
  rw [allocLoop, if_pos hneed, hnext] at hrun
  rcases bind_ended hrun with ⟨val, s1, hread, hrest⟩ | ⟨e, hread, rfl⟩
  swap
  · obtain ⟨hbad | ⟨n, hn⟩, hedit1⟩ := hedit.read hv hc hread
    · cases hbad
    · cases hn
      exact .inr ⟨n, _, rfl, hedit1, hgrown, hcarry.stop (hcarry.read hI (fatReadEntry_cases hread).2)⟩
  obtain ⟨hval | ⟨_, hbad⟩, hedit1⟩ := hedit.read hv hc hread
  swap
  · cases hbad
  have hscratch := (fatReadEntry_cases hread).2
  have hs1 := hs.scratch hscratch
  have hI1 := hcarry.read hI hscratch
  obtain rfl : val = fatTable s0.ram.vol s0.card c := by simpa [hs.unseen] using hval
  by_cases hzero : fatTable s0.ram.vol s0.card c = 0
  swap
  · rw [if_pos hzero] at hrest
    exact .inl ⟨a, s1, hs1.skip hc hzero, hI1, hrest⟩
  rw [if_neg (not_not.mpr hzero)] at hrest
  by_cases hfound : a.foundClus = 0
  · obtain ⟨hprev, hbegin⟩ := hs1.begin hc hzero hfound
    rw [if_pos hfound, doIf, if_neg (not_not.mpr hprev)] at hrest
    exact .inl ⟨_, s1, hbegin, hI1, hrest⟩
  · obtain ⟨hp, hpfree, hpush⟩ := hs1.push hc hzero hfound
    rw [hscratch.card] at hpush
    have hcval := hv.clus_lt hc
    rw [if_neg hfound, doIf, if_pos (by have := hp.1; omega)] at hrest
    rcases bind_ended hrest with ⟨_, s2, hwrite, hgo⟩ | ⟨e, hwrite, rfl⟩
    · have hI2 := (hcarry.write hI1 hedit1.ram hp hpfree hcval hwrite).1 rfl
      rcases hedit1.write hv hp hcval hwrite with ⟨_, hedit2⟩ | ⟨_, hbad, _⟩
      · exact .inl ⟨_, s2, hpush s2 hedit2, hI2, hgo⟩
      · cases hbad
    · have hF := (hcarry.write hI1 hedit1.ram hp hpfree hcval hwrite).2
      rcases hedit1.write hv hp hcval hwrite with ⟨hbad, _⟩ | ⟨n, hn, hedit2⟩
      · cases hbad
      · cases hn
        rcases hedit2 with hedit2 | hedit2
        · exact .inr ⟨n, _, rfl, hedit2, hgrown, hF⟩
        · exact .inr ⟨n, _, rfl, hedit2, hgrown.update hp (.inl hc), hF⟩

/-- While there are free data clusters enough, the loop ends with the lowest ones linked, or
when an entry could not be read or written, or out of fuel. -/
theorem allocLoop_cases {nClus fuel : ℕ} {a : Alloc} {r : Except Stop Alloc}
    (hv : Geometry s0.ram.vol) (hcarry : Carried env s0 I F)
    (hroom : nClus ≤ (freeClus s0.ram.vol s0.card).length)
    (hs : AllocAt s0 c a s) (hI : I s) (hle : a.foundClus ≤ nClus)
    (hrun : (allocLoop nClus fuel c a).run (fwStep env) s = (r, s')) :
    (∃ a1 c1, r = .ok a1 ∧ AllocAt s0 c1 a1 s' ∧ I s' ∧ a1.foundClus = nClus) ∨
    (∃ e fat, r = .error e ∧ Edited s0 fat s' ∧
      Grown s0.ram.vol (fatTable s0.ram.vol s0.card) fat ∧ F s' ∧
      ((∃ n, e = .code n) ∨ e = .hang ∧ c + fuel ≤ clusCount s0.ram.vol + 2)) := by
  induction fuel generalizing c a s with
  | zero =>
    cases hrun
    obtain ⟨⟨fat, hedit, hbuilt⟩, _, _, _, _, _, hc⟩ := hs
    exact .inr ⟨_, fat, rfl, hedit, hbuilt.grown fun x hx => .of_freeBelow hc hx,
      hcarry.stop hI, .inr ⟨rfl, hc⟩⟩
  | succ fuel ih =>
    by_cases hneed : a.foundClus < nClus
    · have hc : IsDataClus s0.ram.vol c := by
        refine ⟨hs.two_le, ?_⟩
        by_contra hgt
        -- all data clusters have been looked at
        have hend : c = clusCount s0.ram.vol + 2 := by
          have := hs.le
          omega
        have hfound := hs.found
        rw [hend] at hfound
        rw [freeClus] at hroom
        omega
      rcases allocTurn_cases hv hcarry hs hI hc hneed hrun with ⟨a1, s1, hs1, hI1, hgo⟩ | ⟨n, fat, rfl, h⟩
      · have hle1 : a1.foundClus ≤ nClus := by
          have h1 := hs1.found
          have h0 := hs.found
          rw [freeBelow_succ hs.two_le, List.length_append] at h1
          split at h1 <;> simp at h1 <;> omega
        refine (ih hs1 hI1 hle1 hgo).imp id ?_
        rintro ⟨e, fat, rfl, hedit, hgrown, hF, hend⟩
        refine ⟨e, fat, rfl, hedit, hgrown, hF, hend.imp id fun hhang => ⟨hhang.1, ?_⟩⟩
        have := hhang.2
        omega
      · exact .inr ⟨_, fat, rfl, h.1, h.2.1, h.2.2, .inl ⟨n, rfl⟩⟩
    · rw [allocLoop, if_neg hneed] at hrun
      cases hrun
      exact .inl ⟨a, c, rfl, hs, hI, by omega⟩

/-! The search for one cluster. -/

def IsFirstFree (v : Vol) (fat : ℕ → ℕ) (c : ℕ) : Prop :=
  IsDataClus v c ∧ fat c = 0 ∧ ∀ x, 2 ≤ x → x < c → fat x ≠ 0

theorem findFree_cases {fuel : ℕ} {r : Except Stop ℕ} (hv : Geometry s0.ram.vol)
    (hs : Edited s0 fat s) (h2 : 2 ≤ c) (hused : ∀ x, 2 ≤ x → x < c → fat x ≠ 0)
    (hfree : ∃ x, c ≤ x ∧ IsDataClus s0.ram.vol x ∧ fat x = 0)
    (hrun : (findFree fuel c).run (fwStep env) s = (r, s')) :
    Edited s0 fat s' ∧ ((∃ x, r = .ok x ∧ IsFirstFree s0.ram.vol fat x) ∨
      (∃ n, r = .error (.code n)) ∨ r = .error .hang ∧ c + fuel ≤ clusCount s0.ram.vol + 2) := by
  obtain ⟨x, hcx, hx, hzero⟩ := hfree
  have hle := hx.2
  induction fuel generalizing c s with
  | zero =>
    cases hrun
    exact ⟨hs, .inr (.inr ⟨rfl, by omega⟩)⟩
  | succ fuel ih =>
    have hc : IsDataClus s0.ram.vol c := ⟨h2, by omega⟩
    rw [findFree] at hrun
    rcases bind_ended hrun with ⟨val, s1, hread, hrest⟩ | ⟨e, hread, rfl⟩
    · obtain ⟨hval | ⟨_, hbad⟩, hs1⟩ := hs.read hv hc hread
      · obtain rfl : val = fat c := by simpa using hval
        split at hrest
        · rename_i hcz
          cases hrest
          exact ⟨hs1, .inl ⟨c, rfl, hc, hcz, hused⟩⟩
        · rename_i hcn
          have hne : c ≠ x := fun he => hcn (he ▸ hzero)
          have hnext : u32 (c + 1) = c + 1 :=
            Nat.mod_eq_of_lt (by have := hv.clus_lt hc; omega)
          rw [hnext] at hrest
          have hused' : ∀ y, 2 ≤ y → y < c + 1 → fat y ≠ 0 := by
            intro y hy hlt
            rcases Nat.lt_succ_iff_lt_or_eq.mp hlt with h | rfl
            · exact hused y hy h
            · exact hcn
          obtain ⟨hs', hr⟩ := ih hs1 (by omega) hused' hrest (by omega)
          refine ⟨hs', hr.imp id fun h => h.imp id fun hhang => ⟨hhang.1, ?_⟩⟩
          have := hhang.2
          omega
      · cases hbad
    · obtain ⟨hbad | ⟨n, hn⟩, hs1⟩ := hs.read hv hc hread
      · cases hbad
      · cases hn
        exact ⟨hs1, .inr (.inl ⟨n, rfl⟩)⟩

end Barelog
