import Barelog.Lib.Links
import Barelog.Proofs.FatEntry
import Barelog.Spec.FatLog

/-! The root directory: what the scan for a name finds is a function of the slots of the root
cluster chain, taken from left to right. -/

namespace Barelog

open Prog

/-- A directory slot: its sector and its offset there. -/
abbrev Slot := ℕ × ℕ

/-- Little-endian numbers in the ring or in a sector. -/
def le16 (b : ℕ → Byte) (i : ℕ) : ℕ := (b i).toNat + (b (i + 1)).toNat * 2 ^ 8

def le32 (b : ℕ → Byte) (i : ℕ) : ℕ := le16 b i + le16 b (i + 2) * 2 ^ 16

def slotByte (card : ℕ → Sector) (p : Slot) (i : ℕ) : Byte := (card p.1).byte (p.2 + i)

def fileSize (card : ℕ → Sector) (p : Slot) : ℕ := le32 (slotByte card p) deFileSize

/-- The slot is deleted or ends the directory. -/
def IsFree (card : ℕ → Sector) (p : Slot) : Prop :=
  slotByte card p 0 = 0x00 ∨ slotByte card p 0 = 0xE5

def IsFile (card : ℕ → Sector) (name : Name) (p : Slot) : Prop :=
  ¬ IsFree card p ∧ slotByte card p deAttr &&& 0x08 = 0 ∧ slotByte card p deAttr &&& 0x10 = 0 ∧
    ∀ j, j < 11 → slotByte card p j = name j

instance (card : ℕ → Sector) (p : Slot) : Decidable (IsFree card p) :=
  inferInstanceAs (Decidable (_ ∨ _))

instance (card : ℕ → Sector) (name : Name) (p : Slot) : Decidable (IsFile card name p) :=
  inferInstanceAs (Decidable (_ ∧ _ ∧ _ ∧ _))

def scanSlots (card : ℕ → Sector) (name : Name) : List Slot → Scan → Verdict × Scan
  | [], sc => (.next, sc)
  | p :: rest, sc =>
    if slotByte card p 0 = 0x00 then (.done, sc.empty p.1 p.2)
    else if slotByte card p 0 = 0xE5 then
      scanSlots card name rest { sc.empty p.1 p.2 with gotEmpty := true }
    else if IsFile card name p then (.found, { sc with foundLba := p.1, foundOff := p.2 })
    else scanSlots card name rest sc

def slotsFrom (lba k n : ℕ) : List Slot := (List.range' k n).map fun j => (lba, 32 * j)

def sectorsFrom (lba k n : ℕ) : List Slot :=
  (List.range' k n).flatMap fun j => slotsFrom (u32 (lba + j)) 0 16

def clusSlots (v : Vol) (c : ℕ) : List Slot := sectorsFrom (clusToLba v c) 0 v.secPerClus

/-- What `scan_root_dir` takes for a cluster of the chain. -/
abbrev IsLink (c : ℕ) : Prop := 2 ≤ c ∧ c < 0x0FFFFFF8

def chainClus (v : Vol) (card : ℕ → Sector) (n c : ℕ) : List ℕ :=
  Links.follow (fatEntry v card) IsLink n c

def dirSlots (v : Vol) (card : ℕ → Sector) (n c : ℕ) : List Slot :=
  (chainClus v card n c).flatMap (clusSlots v)

/-- The scan of the directory chain from cluster `c` on ends with `b` and `sc`. -/
def ScansFrom (v : Vol) (card : ℕ → Sector) (name : Name) (c : ℕ) (sc0 : Scan) (b : Bool)
    (sc : Scan) : Prop :=
  ∃ n vd, scanSlots card name (dirSlots v card n c) sc0 = (vd, sc) ∧ b = decide (vd = .found) ∧
    (vd = .next → ∀ m, n ≤ m → chainClus v card m c = chainClus v card n c)

def ScansTo (v : Vol) (card : ℕ → Sector) (name : Name) (b : Bool) (sc : Scan) : Prop :=
  ScansFrom v card name v.rootClus .start b sc

def IsRootClus (v : Vol) (card : ℕ → Sector) (c : ℕ) : Prop :=
  ∃ n, c ∈ chainClus v card n v.rootClus

def IsRootSlot (v : Vol) (card : ℕ → Sector) (p : Slot) : Prop :=
  ∃ n, p ∈ dirSlots v card n v.rootClus

variable {v : Vol} {disk : ℕ → Sector} {name : Name} {sc sc' : Scan} {p : Slot} {lba c k n : ℕ}

/-! The scan of a list. -/

theorem scanSlots_append (l1 l2 : List Slot) : scanSlots disk name (l1 ++ l2) sc =
    match scanSlots disk name l1 sc with
    | (.next, sc') => scanSlots disk name l2 sc'
    | r => r := by
  induction l1 generalizing sc with
  | nil => rfl
  | cons p rest ih =>
    rw [List.cons_append, scanSlots, scanSlots]
    split
    · rfl
    · split
      · exact ih
      · split
        · rfl
        · exact ih

theorem empty_cases (sc : Scan) (lba off : ℕ) : (sc.empty lba off).foundLba = sc.foundLba ∧
    (sc.empty lba off).foundOff = sc.foundOff ∧
    (((sc.empty lba off).emptyLba, (sc.empty lba off).emptyOff) = (sc.emptyLba, sc.emptyOff) ∨
      ((sc.empty lba off).emptyLba, (sc.empty lba off).emptyOff) = (lba, off)) := by
  unfold Scan.empty
  split
  · exact ⟨rfl, rfl, .inl rfl⟩
  · exact ⟨rfl, rfl, .inr rfl⟩

/-- The slot found has the name; the empty slot is one of the list, or was known before. -/
theorem scanSlots_sound {l : List Slot} {vd : Verdict}
    (h : scanSlots disk name l sc = (vd, sc')) :
    (vd = .found → (sc'.foundLba, sc'.foundOff) ∈ l ∧
        IsFile disk name (sc'.foundLba, sc'.foundOff)) ∧
      ((sc'.emptyLba, sc'.emptyOff) = (sc.emptyLba, sc.emptyOff) ∨
        (sc'.emptyLba, sc'.emptyOff) ∈ l ∧ IsFree disk (sc'.emptyLba, sc'.emptyOff)) := by
  induction l generalizing sc with
  | nil =>
    cases h
    exact ⟨nofun, .inl rfl⟩
  | cons p rest ih =>
    have hfree : IsFree disk p → ∀ q : Slot, q = (sc.emptyLba, sc.emptyOff) ∨ q = p →
        q = (sc.emptyLba, sc.emptyOff) ∨ q ∈ p :: rest ∧ IsFree disk q := by
      rintro hp q (rfl | rfl)
      · exact .inl rfl
      · exact .inr ⟨List.mem_cons_self, hp⟩
    rw [scanSlots] at h
    split at h
    · rename_i hend
      cases h
      exact ⟨nofun, hfree (.inl hend) _ (empty_cases sc p.1 p.2).2.2⟩
    · split at h
      · rename_i hdel
        obtain ⟨hfound, hempty⟩ := ih h
        refine ⟨fun hvd => ⟨List.mem_cons_of_mem _ (hfound hvd).1, (hfound hvd).2⟩, ?_⟩
        rcases hempty with hempty | hempty
        · rw [hempty]
          exact hfree (.inr hdel) _ (empty_cases sc p.1 p.2).2.2
        · exact .inr ⟨List.mem_cons_of_mem _ hempty.1, hempty.2⟩
      · split at h
        · rename_i hfile
          cases h
          exact ⟨fun _ => ⟨List.mem_cons_self, hfile⟩, .inl rfl⟩
        · obtain ⟨hfound, hempty⟩ := ih h
          exact ⟨fun hvd => ⟨List.mem_cons_of_mem _ (hfound hvd).1, (hfound hvd).2⟩,
            hempty.imp id fun he => ⟨List.mem_cons_of_mem _ he.1, he.2⟩⟩

/-! Runs of the scan. -/

variable {env : Env} {s s' : Machine}

def Buffered (s : Machine) (lba : ℕ) : Prop := ∀ i, i < 512 → s.ring i = (s.card lba).byte i

theorem nameEq_run (env : Env) (s : Machine) (e n j : ℕ) :
    (nameEq name e n j).run (fwStep env) s =
      (.ok (decide (∀ i, i < n → s.ring (e + (j + i)) = name (j + i))), s) := by
  induction n generalizing j with
  | zero =>
    rw [decide_eq_true (by omega)]
    rfl
  | succ n ih =>
    rw [nameEq, run_bind_ok (ringGet_run env s (e + j))]
    split
    · rename_i hne
      rw [decide_eq_false fun h => hne (h 0 (by omega))]
      rfl
    · rename_i heq
      rw [ne_eq, not_not] at heq
      have hiff : (∀ i, i < n → s.ring (e + (j + 1 + i)) = name (j + 1 + i)) ↔
          ∀ i, i < n + 1 → s.ring (e + (j + i)) = name (j + i) := by
        constructor
        · intro h i hi
          cases i with
          | zero => exact heq
          | succ i =>
            rw [show j + (i + 1) = j + 1 + i by omega]
            exact h i (by omega)
        · intro h i hi
          rw [show j + 1 + i = j + (i + 1) by omega]
          exact h (i + 1) (by omega)
      rw [ih, decide_eq_decide.mpr hiff]

theorem slotsFrom_succ (lba k n : ℕ) :
    slotsFrom lba k (n + 1) = (lba, 32 * k) :: slotsFrom lba (k + 1) n := by
  rw [slotsFrom, List.range'_succ, List.map_cons]
  rfl

/-- The scan of a sector in the buffer, from slot `k` on. -/
theorem scanEntries_run (env : Env) (hbuf : Buffered s lba) (hk : k + n = 16) (sc : Scan) :
    (scanEntries name lba n (32 * k) sc).run (fwStep env) s =
      (.ok (scanSlots s.card name (slotsFrom lba k n) sc), s) := by
  induction n generalizing k sc with
  | zero => rfl
  | succ n ih =>
    have hbyte : ∀ i, i < 32 → s.ring (32 * k + i) = slotByte s.card (lba, 32 * k) i :=
      fun i hi => hbuf (32 * k + i) (by omega)
    have h0 : s.ring (32 * k) = slotByte s.card (lba, 32 * k) 0 := hbyte 0 (by omega)
    have hnext : ∀ sc, (scanEntries name lba n (32 * k + 32) sc).run (fwStep env) s =
        (.ok (scanSlots s.card name (slotsFrom lba (k + 1) n) sc), s) :=
      fun sc => ih (k := k + 1) (by omega) sc
    rw [scanEntries, run_bind_ok (ringGet_run env s _), h0, slotsFrom_succ, scanSlots]
    split
    · rfl
    · rename_i hend
      split
      · exact hnext _
      · rename_i hdel
        rw [run_bind_ok (ringGet_run env s _), hbyte deAttr (by decide)]
        split
        · rename_i hvol
          rw [if_neg fun hf => hvol hf.2.1]
          exact hnext sc
        · rename_i hvol
          split
          · rename_i hdir
            rw [if_neg fun hf => hdir hf.2.2.1]
            exact hnext sc
          · rename_i hdir
            rw [ne_eq, not_not] at hvol hdir
            rw [run_bind_ok (nameEq_run env s _ _ _)]
            have hiff : (∀ i, i < 11 → s.ring (32 * k + (0 + i)) = name (0 + i)) ↔
                IsFile s.card name (lba, 32 * k) := by
              refine ⟨fun h => ⟨not_or.mpr ⟨hend, hdel⟩, hvol, hdir, fun j hj => ?_⟩,
                fun h j hj => ?_⟩
              · have := h j hj
                rwa [Nat.zero_add, hbyte j (by omega)] at this
              · rw [Nat.zero_add, hbyte j (by omega)]
                exact h.2.2.2 j hj
            simp only [hiff, decide_eq_true_eq]
            split
            · rfl
            · exact hnext sc

/-- `if (f() != 0) return c;` for a function that only fails with a return code. -/
theorem orCode_cases {α : Type} {q : Fw α} {a : ℤ} {r : Except Stop α}
    (hrun : (q.orCode a).run (fwStep env) s = (r, s')) :
    (∃ x, r = .ok x ∧ q.run (fwStep env) s = (.ok x, s')) ∨
      ∃ e, q.run (fwStep env) s = (.error e, s') ∧
        r = .error (match e with | .code _ => .code a | e => e) := by
  rw [Fw.orCode, handle_run] at hrun
  rcases hq : q.run (fwStep env) s with ⟨r1, s1⟩
  rw [hq] at hrun
  cases r1 with
  | ok x =>
    cases hrun
    exact .inl ⟨x, rfl, rfl⟩
  | error e =>
    right
    cases e <;> cases hrun <;> exact ⟨_, rfl, rfl⟩

theorem sectorsFrom_succ (lba k n : ℕ) : sectorsFrom lba k (n + 1) =
    slotsFrom (u32 (lba + k)) 0 16 ++ sectorsFrom lba (k + 1) n := by
  rw [sectorsFrom, List.range'_succ, List.flatMap_cons]
  rfl

theorem readOr_cases {r : Except Stop Unit}
    (hrun : ((sdReadSector lba 0).orCode (-1)).run (fwStep env) s = (r, s')) :
    Scratch s s' ∧ (r = .ok () ∧ Buffered s' lba ∨ r = .error (.code (-1))) := by
  rcases orCode_cases hrun with ⟨_, rfl, hread⟩ | ⟨e, hread, rfl⟩
  · rcases sdReadSector_cases hread with ⟨_, rfl⟩ | ⟨_, hbad, _⟩
    · exact ⟨scratch_load _ _, .inl ⟨rfl, fun i hi => load_inside hi⟩⟩
    · cases hbad
  · rcases sdReadSector_cases hread with ⟨hbad, _⟩ | ⟨_, he, rfl⟩
    · cases hbad
    · cases he
      exact ⟨scratch_asked s, .inr rfl⟩

theorem scanSectors_cases {r : Except Stop (Verdict × Scan)}
    (hrun : (scanSectors name lba n k sc).run (fwStep env) s = (r, s')) :
    Scratch s s' ∧ (r = .ok (scanSlots s.card name (sectorsFrom lba k n) sc) ∨
      r = .error (.code (-1))) := by
  induction n generalizing k s sc with
  | zero =>
    cases hrun
    exact ⟨.refl _, .inl rfl⟩
  | succ n ih =>
    rw [scanSectors] at hrun
    rcases bind_ended hrun with ⟨_, s1, hread, hrest⟩ | ⟨e, hread, rfl⟩
    · obtain ⟨hscratch, ⟨_, hbuf⟩ | hbad⟩ := readOr_cases hread
      · have hscan : (scanEntries name (u32 (lba + k)) 16 (32 * 0) sc).run (fwStep env) s1 = _ :=
          scanEntries_run env hbuf (show 0 + 16 = 16 from rfl) sc
        rw [Nat.mul_zero, hscratch.card] at hscan
        rw [run_bind_ok hscan] at hrest
        rw [sectorsFrom_succ, scanSlots_append]
        generalize scanSlots s.card name (slotsFrom (u32 (lba + k)) 0 16) sc = scan at hrest ⊢
        obtain ⟨vd, sc1⟩ := scan
        cases vd with
        | next =>
          obtain ⟨hscratch', hr⟩ := ih hrest
          rw [hscratch.card] at hr
          exact ⟨hscratch.trans hscratch', hr⟩
        | found =>
          cases hrest
          exact ⟨hscratch, .inl rfl⟩
        | done =>
          cases hrest
          exact ⟨hscratch, .inl rfl⟩
      · cases hbad
    · obtain ⟨hscratch, ⟨hbad, _⟩ | he⟩ := readOr_cases hread
      · cases hbad
      · cases he
        exact ⟨hscratch, .inr rfl⟩

theorem dirSlots_succ (hc : IsLink c) : dirSlots v disk (n + 1) c =
    clusSlots v c ++ dirSlots v disk n (fatEntry v disk c) := by
  rw [dirSlots, chainClus, Links.follow_succ hc, List.flatMap_cons]
  rfl

theorem ScansFrom.here {vd : Verdict} (hc : IsLink c) (hvd : vd ≠ .next)
    (h : scanSlots disk name (clusSlots v c) sc = (vd, sc')) :
    ScansFrom v disk name c sc (decide (vd = .found)) sc' := by
  refine ⟨1, vd, ?_, rfl, fun hn => absurd hn hvd⟩
  rw [dirSlots_succ hc, scanSlots_append, h]
  cases vd with
  | next => exact absurd rfl hvd
  | found => rfl
  | done => rfl

theorem ScansFrom.there {sc1 : Scan} {b : Bool} (hc : IsLink c)
    (h : scanSlots disk name (clusSlots v c) sc = (.next, sc1))
    (hrest : ScansFrom v disk name (fatEntry v disk c) sc1 b sc') :
    ScansFrom v disk name c sc b sc' := by
  obtain ⟨n, vd, hscan, hb, hend⟩ := hrest
  refine ⟨n + 1, vd, ?_, hb, fun hvd m hm => ?_⟩
  · rw [dirSlots_succ hc, scanSlots_append, h]
    exact hscan
  · obtain ⟨m, rfl⟩ : ∃ m', m = m' + 1 := ⟨m - 1, by omega⟩
    have hrest := hend hvd m (by omega)
    rw [chainClus, chainClus] at hrest ⊢
    rw [Links.follow_succ hc, Links.follow_succ hc, hrest]

theorem ScansFrom.ended (hc : ¬ IsLink c) :
    ScansFrom v disk name c sc false sc := by
  have hnil : ∀ m, chainClus v disk m c = [] := fun m => Links.follow_of_not hc m
  exact ⟨0, .next, rfl, rfl, fun _ m _ => by rw [hnil, hnil]⟩

theorem scanChain_cases {fuel : ℕ} {r : Except Stop (Bool × Scan)}
    (hrun : (scanChain name fuel c sc).run (fwStep env) s = (r, s')) :
    Scratch s s' ∧ ((∃ b sc', r = .ok (b, sc') ∧ ScansFrom s.ram.vol s.card name c sc b sc') ∨
      r = .error (.code (-1)) ∨
      r = .error .hang ∧ (chainClus s.ram.vol s.card fuel c).length = fuel) := by
  induction fuel generalizing c s sc with
  | zero =>
    cases hrun
    exact ⟨.refl _, .inr (.inr ⟨rfl, rfl⟩)⟩
  | succ fuel ih =>
    rw [scanChain] at hrun
    split at hrun
    · rename_i hc
      rw [getRam_bind] at hrun
      rcases bind_ended hrun with ⟨⟨vd, sc1⟩, s1, hscan, hrest⟩ | ⟨e, hscan, rfl⟩
      · obtain ⟨hscratch, hr | hbad⟩ := scanSectors_cases hscan
        · have hclus : scanSlots s.card name (clusSlots s.ram.vol c) sc = (vd, sc1) :=
            (Except.ok.inj hr).symm
          cases vd with
          | next =>
            rcases bind_ended hrest with ⟨next, s2, hnext, hgo⟩ | ⟨e, hnext, rfl⟩
            · rcases orCode_cases hnext with ⟨x, hx, hread⟩ | ⟨e, _, hbad⟩
              · cases hx
                obtain ⟨hval | ⟨_, hbad⟩, hscratch2⟩ := fatReadEntry_cases hread
                · cases hval
                  obtain ⟨hscratch3, hgo⟩ := ih hgo
                  refine ⟨(hscratch.trans hscratch2).trans hscratch3, ?_⟩
                  rw [hscratch2.ram, hscratch2.card, hscratch.ram, hscratch.card] at hgo
                  refine hgo.imp (fun ⟨b, sc', hb, hfrom⟩ => ⟨b, sc', hb, .there hc hclus hfrom⟩)
                    (.imp_right fun ⟨hhang, hlen⟩ => ⟨hhang, ?_⟩)
                  rw [chainClus, Links.follow_succ (show IsLink c from hc), List.length_cons, Nat.succ_inj]
                  exact hlen
                · cases hbad
              · cases hbad
            · rcases orCode_cases hnext with ⟨_, hbad, _⟩ | ⟨e', hread, he⟩
              · cases hbad
              · obtain ⟨hbad | ⟨_, hcode⟩, hscratch2⟩ := fatReadEntry_cases hread
                · cases hbad
                · cases hcode
                  cases he
                  exact ⟨hscratch.trans hscratch2, .inr (.inl rfl)⟩
          | found =>
            have hfrom := ScansFrom.here hc (by decide) hclus
            cases hrest
            exact ⟨hscratch, .inl ⟨_, _, rfl, hfrom⟩⟩
          | done =>
            have hfrom := ScansFrom.here hc (by decide) hclus
            cases hrest
            exact ⟨hscratch, .inl ⟨_, _, rfl, hfrom⟩⟩
        · cases hbad
      · obtain ⟨hscratch, hbad | he⟩ := scanSectors_cases hscan
        · cases hbad
        · cases he
          exact ⟨hscratch, .inr (.inl rfl)⟩
    · rename_i hc
      cases hrun
      exact ⟨.refl _, .inl ⟨_, _, rfl, .ended hc⟩⟩

theorem scanRootDir_cases {fuel : ℕ} {r : Except Stop (Bool × Scan)}
    (hrun : (scanRootDir fuel name).run (fwStep env) s = (r, s')) :
    Scratch s s' ∧ ((∃ b sc, r = .ok (b, sc) ∧ ScansTo s.ram.vol s.card name b sc) ∨
      r = .error (.code (-1)) ∨
      r = .error .hang ∧ (chainClus s.ram.vol s.card fuel s.ram.vol.rootClus).length = fuel) := by
  rw [scanRootDir, getRam_bind] at hrun
  exact scanChain_cases hrun

/-! What a scan tells about the directory. -/

theorem ScansTo.unique {b b' : Bool} (h : ScansTo v disk name b sc)
    (h' : ScansTo v disk name b' sc') : b = b' ∧ sc = sc' := by
  have hmono : ∀ {n m vd vd' sc sc'}, n ≤ m →
      scanSlots disk name (dirSlots v disk n v.rootClus) .start = (vd, sc) →
      scanSlots disk name (dirSlots v disk m v.rootClus) .start = (vd', sc') →
      (vd = .next → ∀ m, n ≤ m → chainClus v disk m v.rootClus = chainClus v disk n v.rootClus) →
      vd = vd' ∧ sc = sc' := by
    intro n m vd vd' sc sc' hnm h1 h2 hend
    have hpre : chainClus v disk n v.rootClus <+: chainClus v disk m v.rootClus :=
      Links.follow_prefix hnm
    obtain ⟨rest, hrest⟩ := hpre
    rw [dirSlots, ← hrest, List.flatMap_append, scanSlots_append,
      show (chainClus v disk n v.rootClus).flatMap (clusSlots v) = dirSlots v disk n v.rootClus
      from rfl, h1] at h2
    cases vd with
    | next =>
      rw [hend rfl m hnm] at hrest
      rw [List.append_right_eq_self.mp hrest] at h2
      cases h2
      exact ⟨rfl, rfl⟩
    | found =>
      cases h2
      exact ⟨rfl, rfl⟩
    | done =>
      cases h2
      exact ⟨rfl, rfl⟩
  obtain ⟨n, vd, h1, rfl, hend⟩ := h
  obtain ⟨n', vd', h1', rfl, hend'⟩ := h'
  rcases Nat.le_total n n' with hle | hle
  · obtain ⟨rfl, rfl⟩ := hmono hle h1 h1' hend
    exact ⟨rfl, rfl⟩
  · obtain ⟨rfl, rfl⟩ := hmono hle h1' h1 hend'
    exact ⟨rfl, rfl⟩

theorem ScansTo.sound {b : Bool} (h : ScansTo v disk name b sc) :
    (b = true → IsRootSlot v disk (sc.foundLba, sc.foundOff) ∧
        IsFile disk name (sc.foundLba, sc.foundOff)) ∧
      (sc.emptyLba = 0 ∨ IsRootSlot v disk (sc.emptyLba, sc.emptyOff) ∧
        IsFree disk (sc.emptyLba, sc.emptyOff)) := by
  obtain ⟨n, vd, hscan, rfl, _⟩ := h
  obtain ⟨hfound, hempty⟩ := scanSlots_sound hscan
  refine ⟨fun hvd => ?_, ?_⟩
  · obtain ⟨hmem, hfile⟩ := hfound (of_decide_eq_true hvd)
    exact ⟨⟨n, hmem⟩, hfile⟩
  · rcases hempty with hempty | ⟨hmem, hfree⟩
    · exact .inl (congrArg Prod.fst hempty)
    · exact .inr ⟨⟨n, hmem⟩, hfree⟩

def RootOk (v : Vol) (card : ℕ → Sector) : Prop := ∀ c, IsRootClus v card c → IsDataClus v c

theorem rootOk_single (hroot : IsDataClus v v.rootClus)
    (hend : ¬ IsLink (fatEntry v disk v.rootClus)) : RootOk v disk := by
  rintro c ⟨n, hc⟩
  rw [chainClus] at hc
  cases n with
  | zero => cases hc
  | succ n =>
    rw [Links.follow] at hc
    split at hc
    · rw [Links.follow_of_not hend] at hc
      exact List.mem_singleton.mp hc ▸ hroot
    · cases hc

theorem IsRootSlot.place (hv : Geometry v) (hroot : RootOk v disk) (h : IsRootSlot v disk p) :
    ∃ c k, IsRootClus v disk c ∧ clusToLba v c ≤ p.1 ∧ p.1 < clusToLba v c + v.secPerClus ∧
      k < 16 ∧ p.2 = 32 * k := by
  obtain ⟨n, hmem⟩ := h
  obtain ⟨c, hc, hp⟩ := List.mem_flatMap.mp hmem
  obtain ⟨j, hj, hp⟩ := List.mem_flatMap.mp hp
  obtain ⟨k, hk, rfl⟩ := List.mem_map.mp hp
  obtain ⟨i, hi, rfl⟩ := List.mem_range'.mp hk
  obtain ⟨j', hj', rfl⟩ := List.mem_range'.mp hj
  have hend := hv.clus_end (hroot c ⟨n, hc⟩)
  have hwrap := hv.wrap
  have hlba : u32 (clusToLba v c + (0 + 1 * j')) = clusToLba v c + j' := by
    rw [u32, Nat.mod_eq_of_lt (by omega)]
    omega
  rw [hlba]
  exact ⟨c, i, ⟨n, hc⟩, Nat.le_add_right _ _, Nat.add_lt_add_left hj' _, hi, by omega⟩

end Barelog
