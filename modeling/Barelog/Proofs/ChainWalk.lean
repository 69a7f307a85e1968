import Barelog.Proofs.NewFile

/-! The walks along cluster chains. They have no counter, so they end when the chain does. -/

namespace Barelog

open Prog Links

variable {env : Env} {s s' : Machine} {fuel : ℕ}

abbrev NotEnd (c : ℕ) : Prop := c < 0x0FFFFFF8

def fatEntries (v : Vol) : ℕ := 128 * v.fatSz32

inductive Walked (f : ℕ → ℕ) (fuel c next : ℕ) : Except Stop ℕ → Prop
  | ends {k : ℕ} (hk : k < fuel) (hgo : ∀ i, i < k → NotEnd (f^[i] next))
      (hend : ¬ NotEnd (f^[k] next)) :
      Walked f fuel c next (.ok (if k = 0 then c else f^[k - 1] next))
  | failed (n : ℤ) : Walked f fuel c next (.error (.code n))
  | hangs (hgo : ∀ i, i < fuel → NotEnd (f^[i] next)) : Walked f fuel c next (.error .hang)

theorem Walked.step {f : ℕ → ℕ} {c next : ℕ} {r : Except Stop ℕ} (hnext : NotEnd next)
    (h : Walked f fuel next (f next) r) : Walked f (fuel + 1) c next r := by
  have hcons : ∀ n, (∀ i, i < n → NotEnd (f^[i] (f next))) →
      ∀ i, i < n + 1 → NotEnd (f^[i] next) := by
    intro n hgo i hi
    cases i with
    | zero => exact hnext
    | succ i => exact hgo i (by omega)
  cases h with
  | @ends k hk hgo hend =>
    have hlast : (if k = 0 then next else f^[k - 1] (f next)) = f^[k] next := by
      cases k with
      | zero => rfl
      | succ k => rfl
    rw [hlast]
    exact .ends (k := k + 1) (by omega) (hcons k hgo) hend
  | failed n => exact .failed n
  | hangs hgo => exact .hangs (hcons fuel hgo)

theorem walkChain_walked {c next : ℕ} {r : Except Stop ℕ}
    (hrun : (walkChain fuel c next).run (fwStep env) s = (r, s')) :
    Walked (fatEntry s.ram.vol s.card) fuel c next r := by
  induction fuel generalizing c next s with
  | zero =>
    cases hrun
    exact .hangs fun i hi => absurd hi (Nat.not_lt_zero i)
  | succ fuel ih =>
    rw [walkChain] at hrun
    split at hrun
    · rename_i hnext
      rcases bind_ended hrun with ⟨entry, s1, hread, hgo⟩ | ⟨e, hread, rfl⟩
      · obtain ⟨hval | ⟨_, hbad⟩, hscratch⟩ := fatReadEntry_cases hread
        · cases hval
          have hrest := ih hgo
          rw [hscratch.ram, hscratch.card] at hrest
          exact hrest.step hnext
        · cases hbad
      · obtain ⟨hbad | ⟨n, hcode⟩, -⟩ := fatReadEntry_cases hread
        · cases hbad
        · cases hcode
          exact .failed n
    · rename_i hend
      cases hrun
      exact .ends (k := 0) (Nat.succ_pos _) (fun i hi => absurd hi (Nat.not_lt_zero i)) hend

theorem resumeLog_walked {preallocSz nSectors : ℕ} {sc : Scan} {r : Except Stop Unit}
    (hrun : (resumeLog fuel preallocSz nSectors sc).run (fwStep env) s = (r, s')) :
    (∃ last, r = .ok () ∧ s'.ram.logfile.lastClus = last ∧
      Walked (fatEntry s.ram.vol s.card) fuel (resumeFirst s sc) (resumeFirst s sc) (.ok last)) ∨
    ∃ e, r = .error e ∧
      Walked (fatEntry s.ram.vol s.card) fuel (resumeFirst s sc) (resumeFirst s sc) (.error e) := by
  rw [resumeLog_run] at hrun
  have hwalked : ∀ {l : Logfile} {c : ℕ} {q : Except Stop ℕ} {s1 : Machine},
      (walkChain fuel c c).run (fwStep env) (s.withLogfile l) = (q, s1) →
        Walked (fatEntry s.ram.vol s.card) fuel c c q := by
    intro l c q s1 h
    exact walkChain_walked (s := s.withLogfile l) h
  rcases bind_ended hrun with ⟨last, s1, hwalk, hset⟩ | ⟨e, hwalk, rfl⟩
  · rw [setLogfile_run] at hset
    cases hset
    exact .inl ⟨last, rfl, rfl, hwalked hwalk⟩
  · exact .inr ⟨e, rfl, hwalked hwalk⟩

/-! How far the walks go. -/

theorem scanRootDir_ends {name : Name} {n : ℕ} (hn : n < fuel)
    (hend : EndsWithin (fatEntry s.ram.vol s.card) IsLink n s.ram.vol.rootClus) :
    (scanRootDir fuel name).run (fwStep env) s ≠ (.error .hang, s') := by
  intro hrun
  obtain ⟨-, ⟨_, _, hbad, -⟩ | hbad | ⟨-, hlen⟩⟩ := scanRootDir_cases hrun
  · cases hbad
  · cases hbad
  · obtain ⟨m, rfl⟩ : ∃ m, fuel = m + 1 := ⟨fuel - 1, by omega⟩
    have hshort := follow_length_lt.mpr (hend.mono (show n ≤ m by omega))
    exact absurd hlen (Nat.ne_of_lt hshort)

theorem Walked.not_hang {f : ℕ → ℕ} {c next n : ℕ} (hn : n < fuel) (hend : EndsWithin f NotEnd n next) :
    ¬ Walked f fuel c next (.error .hang) := by
  rintro (_ | _ | hgo)
  obtain ⟨i, hi, hstop⟩ := hend
  exact hstop (hgo i (by omega))

/-- The last cluster of a walk that has gone at least one link. -/
theorem Walked.last {f : ℕ → ℕ} {c last : ℕ} (hc : NotEnd c) (h : Walked f fuel c c (.ok last)) :
    0x0FFFFFF8 ≤ f last ∧ ∃ i, last = f^[i] c ∧ ∀ j, j ≤ i → NotEnd (f^[j] c) := by
  cases h with
  | @ends k hk hgo hend =>
    cases k with
    | zero => exact absurd hc hend
    | succ k =>
      rw [if_neg (Nat.succ_ne_zero k), Nat.add_sub_cancel]
      refine ⟨?_, k, rfl, fun j hj => hgo j (by omega)⟩
      rw [Function.iterate_succ_apply'] at hend
      exact not_lt.mp hend

/-- The walks along the chains of the root directory and of a resumed file, with fuel for as many
links as the FAT has entries. They end if their chains do, as every chain does that stays in the FAT
and does not come back to a cluster, and none that comes back. -/
theorem chain_walks_end (env : Env) (s : Machine) (fuel : ℕ) (hfuel : fatEntries s.ram.vol < fuel) :
    let next := fatEntry s.ram.vol s.card
    let n := fatEntries s.ram.vol
    (∀ ok c, Simple next ok n c → EndsWithin next ok n c) ∧
    (∀ (ok : ℕ → Prop) c i j, i < j → (∀ k, k ≤ j → ok (next^[k] c)) → next^[i] c = next^[j] c →
      ∀ m, ¬ EndsWithin next ok m c) ∧
    (EndsWithin next IsLink n s.ram.vol.rootClus → ∀ name s',
      (scanRootDir fuel name).run (fwStep env) s ≠ (.error .hang, s')) ∧
    ∀ preallocSz nSectors sc,
      (EndsWithin next NotEnd n (resumeFirst s sc) → ∀ s',
        (resumeLog fuel preallocSz nSectors sc).run (fwStep env) s ≠ (.error .hang, s')) ∧
      (env.Good → ¬ EndsWithin next NotEnd n (resumeFirst s sc) → ∃ s',
        (resumeLog (n + 1) preallocSz nSectors sc).run (fwStep env) s = (.error .hang, s')) ∧
      ∀ s', (resumeLog fuel preallocSz nSectors sc).run (fwStep env) s = (.ok (), s') →
        NotEnd (resumeFirst s sc) → 0x0FFFFFF8 ≤ next s'.ram.logfile.lastClus ∧
          ((∀ i, (∀ j, j ≤ i → NotEnd (next^[j] (resumeFirst s sc))) →
            2 ≤ next^[i] (resumeFirst s sc)) → 2 ≤ s'.ram.logfile.lastClus) := by
  refine ⟨fun ok c h => h.ends, fun ok c i j hij hok heq => not_endsWithin_of_back hij hok heq,
    fun hend name s' => scanRootDir_ends hfuel hend, ?_⟩
  intro preallocSz nSectors sc
  refine ⟨fun hend s' hrun => ?_, fun hgood hend => ?_, fun s' hrun hfirst => ?_⟩
  · rcases resumeLog_walked hrun with ⟨_, hbad, -⟩ | ⟨e, he, hwalk⟩
    · cases hbad
    · cases he
      exact Walked.not_hang hfuel hend hwalk
  · rcases hrun : (resumeLog (fatEntries s.ram.vol + 1) preallocSz nSectors sc).run (fwStep env) s
      with ⟨r, s'⟩
    rcases resumeLog_walked hrun with ⟨last, rfl, -, hwalk⟩ | ⟨e, rfl, hwalk⟩
    · cases hwalk with
      | @ends k hk hgo hstop => exact absurd ⟨k, by omega, hstop⟩ hend
    · cases hwalk with
      | failed m => exact absurd ⟨m, rfl⟩ (resumeLog_noCode hgood _ _ _ _ _ _ _ hrun)
      | hangs hgo => exact ⟨s', rfl⟩
  · rcases resumeLog_walked hrun with ⟨last, -, rfl, hwalk⟩ | ⟨e, hbad, -⟩
    · obtain ⟨heoc, i, hi, hgo⟩ := hwalk.last hfirst
      refine ⟨heoc, fun hlow => ?_⟩
      rw [hi]
      exact hlow i hgo
    · cases hbad

/-- The FAT has 4 as the entry of cluster 3, 5 as that of cluster 4, and an end marker for 5. -/
def chainFat : Sector := fun i =>
  if i = 12 then 4 else if i = 16 then 5 else if 20 ≤ i ∧ i < 24 then 0xFF else 0

/-- The entry of a file that starts at cluster 3 is in the buffer. -/
def chainDisk : Machine :=
  (Machine.mounted smallVol (blankCard chainFat)).withRing fun i => if i = deFstClusLo then 3 else 0

/-- The scan of the root directory and the walk along the file both end. -/
theorem chainDisk_walks :
    (∀ s', (scanRootDir 129 (makeLogname 0)).run (fwStep Env.ideal) chainDisk ≠ (.error .hang, s')) ∧
    ∀ s', (resumeLog 129 0x100000 2048 ⟨11, 0, 0, 0, false⟩).run (fwStep Env.ideal) chainDisk ≠
      (.error .hang, s') := by
  obtain ⟨-, -, hscan, hresume⟩ := chain_walks_end Env.ideal chainDisk 129 (by decide)
  have hroot : ¬ IsLink chainDisk.ram.vol.rootClus ∨
      ¬ IsLink (fatEntry chainDisk.ram.vol chainDisk.card chainDisk.ram.vol.rootClus) := by
    decide +kernel
  have hlast : ¬ NotEnd ((fatEntry chainDisk.ram.vol chainDisk.card)^[3]
      (resumeFirst chainDisk ⟨11, 0, 0, 0, false⟩)) := by decide +kernel
  refine ⟨hscan ?_ _, (hresume 0x100000 2048 ⟨11, 0, 0, 0, false⟩).1 ⟨3, by decide, hlast⟩⟩
  rcases hroot with h | h
  · exact ⟨0, by decide, h⟩
  · exact ⟨1, by decide, h⟩

/-! A file whose only cluster is its own successor. -/

/-- The sector of the FAT with 3 as the entry of cluster 3. -/
def loopFat : Sector := fun i => if i = 12 then 3 else 0

/-- The entry of a file that starts at cluster 3 is in the buffer. -/
def loopDisk : Machine :=
  (Machine.mounted smallVol (blankCard loopFat)).withRing fun i => if i = deFstClusLo then 3 else 0

/-- The resume path never ends. -/
theorem loopDisk_hangs : ¬ ∃ fuel r s', (resumeLog fuel 0x100000 2048 ⟨11, 0, 0, 0, false⟩).run
    (fwStep Env.ideal) loopDisk = (r, s') ∧ r ≠ .error .hang := by
  rintro ⟨fuel, r, s', hrun, hends⟩
  have hgood : Env.ideal.Good := fun _ => rfl
  have hfirst : resumeFirst loopDisk ⟨11, 0, 0, 0, false⟩ = 3 := by decide
  have hloop : fatEntry loopDisk.ram.vol loopDisk.card 3 = 3 := by decide +kernel
  have hgo : ∀ i, (fatEntry loopDisk.ram.vol loopDisk.card)^[i] 3 = 3 :=
    Function.iterate_fixed hloop
  rcases resumeLog_walked hrun with ⟨last, rfl, -, hwalk⟩ | ⟨e, rfl, hwalk⟩
  · rw [hfirst] at hwalk
    cases hwalk with
    | @ends k hk hpast hstop =>
      rw [hgo] at hstop
      exact absurd (show NotEnd 3 by decide) hstop
  · cases hwalk with
    | failed m => exact absurd ⟨m, rfl⟩ (resumeLog_noCode hgood _ _ _ _ _ _ _ hrun)
    | hangs hpast => exact hends rfl

end Barelog
