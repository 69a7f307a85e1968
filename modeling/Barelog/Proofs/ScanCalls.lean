import Barelog.Proofs.Scan

/-! `scan_escape` over a sequence of calls. However the bytes are cut into buffers, the counter is
the number of escape characters that the bytes scanned so far end with, and the first call that finds
the escape sequence is the one whose buffer has the last byte of the earliest run. -/

namespace Barelog

open Prog

variable {env : Env} {s t u : Machine} {c : Config} {bs bs' : List Byte}

/-- How many escape characters the bytes end with. -/
def tailRun (c : Config) (bs : List Byte) : ℕ := (bs.reverse.takeWhile fun b => b = c.escChar).length

def RunEnds (c : Config) (bs : List Byte) (e : ℕ) : Prop :=
  e ≤ bs.length ∧ List.replicate c.escCount c.escChar <:+ bs.take e

/-- The earliest run of `esc_count` escape characters is complete with byte `e`. -/
def EarliestRun (c : Config) (bs : List Byte) (e : ℕ) : Prop :=
  RunEnds c bs e ∧ ∀ e', e' < e → ¬ RunEnds c bs e'

/-- A call of `scan_escape`: the machine it starts from, its arguments and what it returns. -/
structure ScanCall where
  start : Machine
  buf : ℕ
  len : ℕ
  hit : Bool

def ScanCall.bytes (x : ScanCall) : List Byte :=
  (List.range x.len).map fun i => x.start.ring (x.buf + i)

/-- Calls one after the other. Between two calls the logger keeps the configuration and the counter,
and anything else may change. -/
inductive ScanCalls (env : Env) (s : Machine) : List ScanCall → Machine → Prop
  | start : ScanCalls env s [] s
  | call {xs : List ScanCall} {t : Machine} {x : ScanCall} {u : Machine} (hs : ScanCalls env s xs t)
      (hcfg : x.start.ram.cfg = t.ram.cfg) (hseen : x.start.ram.escSeen = t.ram.escSeen)
      (hrun : (scanEscape x.len x.buf).run (fwStep env) x.start = (.ok x.hit, u)) :
      ScanCalls env s (xs ++ [x]) u

def scannedBytes (xs : List ScanCall) : List Byte := xs.flatMap ScanCall.bytes

/-! The run at the end of a list. -/

@[simp] theorem tailRun_nil : tailRun c [] = 0 := rfl

theorem tailRun_append (bs : List Byte) (b : Byte) :
    tailRun c (bs ++ [b]) = if b = c.escChar then tailRun c bs + 1 else 0 := by
  unfold tailRun
  rw [List.reverse_append, List.reverse_singleton, List.singleton_append, List.takeWhile_cons]
  by_cases hb : b = c.escChar <;> simp [hb]

theorem tailRun_suffix (n : ℕ) (bs : List Byte) :
    List.replicate n c.escChar <:+ bs ↔ n ≤ tailRun c bs := by
  induction bs using List.reverseRecOn generalizing n with
  | nil => simp [List.replicate_eq_nil_iff]
  | append_singleton bs b ih =>
    rw [tailRun_append]
    cases n with
    | zero => simp
    | succ n =>
      have hlen : [c.escChar].length = [b].length := rfl
      rw [List.replicate_succ', List.suffix_append_inj_of_length_eq hlen, ih, List.singleton_inj]
      by_cases hb : b = c.escChar
      · rw [if_pos hb]
        exact ⟨fun h => Nat.succ_le_succ h.1, fun h => ⟨Nat.le_of_succ_le_succ h, hb.symm⟩⟩
      · rw [if_neg hb]
        exact ⟨fun h => absurd h.2.symm hb, fun h => absurd h (Nat.not_succ_le_zero n)⟩

theorem runEnds_iff {e : ℕ} : RunEnds c bs e ↔ e ≤ bs.length ∧ c.escCount ≤ tailRun c (bs.take e) := by
  rw [RunEnds, tailRun_suffix]

/-! One scan. -/

/-- A scan that starts with the counter of the bytes before it: either no run gets complete in it,
or it stops with the first byte that completes one. -/
theorem scanBytes_cases (h1 : 1 ≤ c.escCount) (h2 : c.escCount < 2 ^ 8) (bs bs0 : List Byte)
    (hseen : tailRun c bs0 < c.escCount) :
    (scanBytes c bs (tailRun c bs0) = (false, tailRun c (bs0 ++ bs)) ∧
      ∀ k, k ≤ bs.length → tailRun c (bs0 ++ bs.take k) < c.escCount) ∨
    ∃ k, k ≤ bs.length ∧ scanBytes c bs (tailRun c bs0) = (true, c.escCount) ∧
      tailRun c (bs0 ++ bs.take k) = c.escCount ∧
      ∀ j, j < k → tailRun c (bs0 ++ bs.take j) < c.escCount := by
  induction bs generalizing bs0 with
  | nil =>
    refine .inl ⟨by rw [scanBytes, List.append_nil], fun k _ => ?_⟩
    rwa [List.take_nil, List.append_nil]
  | cons b bs ih =>
    have hstep := tailRun_append (c := c) bs0 b
    have hpush : ∀ k, bs0 ++ (b :: bs).take (k + 1) = bs0 ++ [b] ++ bs.take k := fun k => by
      rw [List.take_succ_cons, List.append_assoc, List.singleton_append]
    -- the first byte, then the rest from the counter that it leaves
    by_cases hend : b = c.escChar ∧ tailRun c bs0 + 1 = c.escCount
    · obtain ⟨hb, hn⟩ := hend
      rw [if_pos hb, hn] at hstep
      refine .inr ⟨1, Nat.succ_le_succ (Nat.zero_le _), ?_, ?_, ?_⟩
      · rw [scanBytes, if_pos hb, Nat.mod_eq_of_lt (by omega), if_pos (by omega), hn]
      · rw [hpush 0, List.take_zero, List.append_nil, hstep]
      · intro j hj
        obtain rfl : j = 0 := by omega
        rwa [List.take_zero, List.append_nil]
    · have hlt : tailRun c (bs0 ++ [b]) < c.escCount := by
        rw [hstep]
        split_ifs with hb
        · have : tailRun c bs0 + 1 ≠ c.escCount := fun h => hend ⟨hb, h⟩
          omega
        · omega
      have hscan : scanBytes c (b :: bs) (tailRun c bs0) =
          scanBytes c bs (tailRun c (bs0 ++ [b])) := by
        rw [scanBytes, hstep]
        split_ifs with hb hn
        · rw [hstep, if_pos hb] at hlt
          omega
        · rw [Nat.mod_eq_of_lt (by omega)]
        · rfl
      have hzero : tailRun c (bs0 ++ (b :: bs).take 0) < c.escCount := by
        rwa [List.take_zero, List.append_nil]
      rcases ih _ hlt with ⟨hfalse, hall⟩ | ⟨k, hk, htrue, hat, hbefore⟩
      · refine .inl ⟨?_, fun k hk => ?_⟩
        · rw [hscan, hfalse, List.append_assoc, List.singleton_append]
        · cases k with
          | zero => exact hzero
          | succ k =>
            rw [hpush]
            exact hall k (Nat.le_of_succ_le_succ hk)
      · refine .inr ⟨k + 1, Nat.succ_le_succ hk, hscan.trans htrue, by rw [hpush, hat], ?_⟩
        intro j hj
        cases j with
        | zero => exact hzero
        | succ j =>
          rw [hpush]
          exact hbefore j (Nat.lt_of_succ_lt_succ hj)

def NoRun (c : Config) (bs : List Byte) : Prop :=
  ∀ k, k ≤ bs.length → tailRun c (bs.take k) < c.escCount

theorem NoRun.append (h : NoRun c bs)
    (hall : ∀ k, k ≤ bs'.length → tailRun c (bs ++ bs'.take k) < c.escCount) :
    NoRun c (bs ++ bs') := by
  intro k hk
  rcases Nat.le_total k bs.length with hle | hle
  · rw [List.take_append_of_le_length hle]
    exact h k hle
  · rw [List.take_append, List.take_of_length_le hle]
    rw [List.length_append] at hk
    exact hall _ (by omega)

theorem NoRun.tail (h : NoRun c bs) : tailRun c bs < c.escCount := by
  have := h bs.length le_rfl
  rwa [List.take_length] at this

/-- The first byte that makes the counter reach `esc_count` completes the earliest run. -/
theorem earliestRun_first (hno : NoRun c bs) {k : ℕ} (hk : k ≤ bs'.length)
    (hat : tailRun c (bs ++ bs'.take k) = c.escCount)
    (hbefore : ∀ j, j < k → tailRun c (bs ++ bs'.take j) < c.escCount) (rest : List Byte) :
    EarliestRun c (bs ++ bs' ++ rest) (bs.length + k) := by
  have htake : ∀ j, j ≤ k → (bs ++ bs' ++ rest).take (bs.length + j) = bs ++ bs'.take j := by
    intro j hj
    rw [List.append_assoc, List.take_length_add_append, List.take_append_of_le_length (by omega)]
  refine ⟨runEnds_iff.mpr ⟨?_, ?_⟩, fun e he hrun => ?_⟩
  · rw [List.length_append, List.length_append]
    omega
  · rw [htake k le_rfl, hat]
  · have hend := (runEnds_iff.mp hrun).2
    rcases Nat.lt_or_ge e bs.length with hlt | hge
    · rw [List.append_assoc, List.take_append_of_le_length hlt.le] at hend
      have := hno e hlt.le
      omega
    · obtain ⟨j, rfl⟩ := Nat.exists_eq_add_of_le hge
      rw [htake j (by omega)] at hend
      have := hbefore j (by omega)
      omega

/-! The calls. -/

variable {xs pre post : List ScanCall} {x : ScanCall}

theorem ScanCall.length_bytes (x : ScanCall) : x.bytes.length = x.len := by
  rw [ScanCall.bytes, List.length_map, List.length_range]

theorem scannedBytes_append (xs ys : List ScanCall) :
    scannedBytes (xs ++ ys) = scannedBytes xs ++ scannedBytes ys := List.flatMap_append

theorem scannedBytes_singleton (x : ScanCall) : scannedBytes [x] = x.bytes := by
  rw [scannedBytes, List.flatMap_singleton]

theorem ScanCall.run_take (env : Env) (x : ScanCall) {k : ℕ} (hk : k ≤ x.len) :
    (scanEscape k x.buf).run (fwStep env) x.start =
      (.ok (scanBytes x.start.ram.cfg (x.bytes.take k) x.start.ram.escSeen).1,
        x.start.withEscSeen (scanBytes x.start.ram.cfg (x.bytes.take k) x.start.ram.escSeen).2) := by
  have htake : x.bytes.take k = (List.range k).map fun i => x.start.ring (x.buf + i) := by
    rw [ScanCall.bytes, ← List.map_take, List.take_range, Nat.min_eq_left hk]
  rw [htake]
  exact scanEscape_run env k x.buf x.start

theorem ScanCalls.split (h : ScanCalls env s (pre ++ x :: post) u) :
    ∃ t w, ScanCalls env s pre t ∧ x.start.ram.cfg = t.ram.cfg ∧
      x.start.ram.escSeen = t.ram.escSeen ∧
      (scanEscape x.len x.buf).run (fwStep env) x.start = (.ok x.hit, w) := by
  generalize hxs : pre ++ x :: post = xs at h
  induction h generalizing post with
  | start => exact absurd hxs (by simp)
  | @call ys t y w hs hcfg hseen hrun ih =>
    rcases List.eq_nil_or_concat post with rfl | ⟨post', z, rfl⟩
    · obtain ⟨rfl, hx⟩ := List.append_inj' hxs rfl
      obtain rfl := List.singleton_inj.mp hx
      exact ⟨t, w, hs, hcfg, hseen, hrun⟩
    · rw [List.concat_eq_append, ← List.cons_append, ← List.append_assoc] at hxs
      exact ih (List.append_inj' hxs rfl).1

/-- While no call has found the sequence, the counter is that of the bytes scanned. -/
theorem ScanCalls.counter (hseen : s.ram.escSeen = 0) (h1 : 1 ≤ s.ram.cfg.escCount)
    (h2 : s.ram.cfg.escCount < 2 ^ 8) (h : ScanCalls env s xs t) (hno : ∀ y ∈ xs, y.hit = false) :
    t.ram.cfg = s.ram.cfg ∧ t.ram.escSeen = tailRun s.ram.cfg (scannedBytes xs) ∧
      NoRun s.ram.cfg (scannedBytes xs) := by
  induction h with
  | start =>
    refine ⟨rfl, hseen, fun k _ => ?_⟩
    rw [scannedBytes, List.flatMap_nil, List.take_nil]
    exact h1
  | @call xs t x u hs hcfg' hseen' hrun ih =>
    obtain ⟨hcfg, hcount, hquiet⟩ := ih fun y hy => hno y (List.mem_append_left _ hy)
    have hhit := hno x (List.mem_append_right _ (List.mem_singleton_self x))
    have hrun' := x.run_take env le_rfl
    rw [List.take_of_length_le x.length_bytes.le, hrun, hcfg', hseen', hcfg, hcount] at hrun'
    obtain ⟨hb, rfl⟩ := Prod.mk.inj hrun'
    have hb := Except.ok.inj hb
    rw [scannedBytes_append, scannedBytes_singleton]
    rcases scanBytes_cases h1 h2 x.bytes _ hquiet.tail with ⟨hfalse, hall⟩ | ⟨k, -, htrue, -⟩
    · refine ⟨hcfg'.trans hcfg, ?_, hquiet.append hall⟩
      rw [hfalse]
      rfl
    · rw [htrue, hhit] at hb
      cases hb

/-- Any bytes can be scanned, in buffers of any lengths. -/
theorem scanCalls_exist (env : Env) (s : Machine) (bufs : List (List Byte)) :
    ∃ xs u, ScanCalls env s xs u ∧ xs.map ScanCall.bytes = bufs := by
  induction bufs using List.reverseRecOn with
  | nil => exact ⟨[], s, .start, rfl⟩
  | append_singleton bufs bs ih =>
    obtain ⟨xs, t, hs, hmap⟩ := ih
    have hrun := scanEscape_run env bs.length 0 (t.withRing fun i => bs.getD i 0)
    refine ⟨xs ++ [⟨t.withRing fun i => bs.getD i 0, 0, bs.length, _⟩], _, .call hs rfl rfl hrun,
      ?_⟩
    rw [List.map_append, hmap, List.map_singleton]
    congr 2
    refine List.ext_getElem (by rw [ScanCall.length_bytes]) fun i hi hi' => ?_
    simp [ScanCall.bytes, Machine.withRing, List.getElem?_eq_getElem hi']

/-- The next call after calls that found nothing: what it does with its first `k` bytes. -/
theorem ScanCalls.next (hseen : s.ram.escSeen = 0) (h1 : 1 ≤ s.ram.cfg.escCount)
    (h2 : s.ram.cfg.escCount < 2 ^ 8) (h : ScanCalls env s (pre ++ x :: post) u)
    (hno : ∀ y ∈ pre, y.hit = false) :
    NoRun s.ram.cfg (scannedBytes pre) ∧
    (∀ k, k ≤ x.len → ((scanEscape k x.buf).run (fwStep env) x.start).2.ram.escSeen =
      (scanBytes s.ram.cfg (x.bytes.take k) (tailRun s.ram.cfg (scannedBytes pre))).2) ∧
    x.hit = (scanBytes s.ram.cfg x.bytes (tailRun s.ram.cfg (scannedBytes pre))).1 := by
  obtain ⟨t, w, hpre, hcfg', hseen', hrun⟩ := h.split
  obtain ⟨hcfg, hcount, hquiet⟩ := hpre.counter hseen h1 h2 hno
  have htake : ∀ k, k ≤ x.len → (scanEscape k x.buf).run (fwStep env) x.start =
      (.ok (scanBytes s.ram.cfg (x.bytes.take k) (tailRun s.ram.cfg (scannedBytes pre))).1,
        x.start.withEscSeen (scanBytes s.ram.cfg (x.bytes.take k)
          (tailRun s.ram.cfg (scannedBytes pre))).2) := by
    intro k hk
    have hrun' := x.run_take env hk
    rwa [hcfg', hseen', hcfg, hcount] at hrun'
  refine ⟨hquiet, fun k hk => by rw [htake k hk]; rfl, ?_⟩
  have hall := htake x.len le_rfl
  rw [hrun, List.take_of_length_le x.length_bytes.le] at hall
  exact Except.ok.inj (Prod.mk.inj hall).1

theorem scannedBytes_split (pre : List ScanCall) (x : ScanCall) (post : List ScanCall) :
    scannedBytes (pre ++ x :: post) = scannedBytes pre ++ (x.bytes ++ scannedBytes post) := by
  rw [scannedBytes_append, scannedBytes, scannedBytes, List.flatMap_cons]
  rfl

theorem take_scannedBytes {k : ℕ} (hk : k ≤ x.len) :
    (scannedBytes (pre ++ x :: post)).take ((scannedBytes pre).length + k) =
      scannedBytes pre ++ x.bytes.take k := by
  rw [scannedBytes_split, List.take_length_add_append, List.take_append_of_le_length
    (by rwa [x.length_bytes])]

/-- A call after calls that found nothing finds the sequence if it is the one whose buffer has the
last byte of the earliest run. -/
theorem ScanCalls.hit_iff (hseen : s.ram.escSeen = 0) (h1 : 1 ≤ s.ram.cfg.escCount)
    (h2 : s.ram.cfg.escCount < 2 ^ 8) (h : ScanCalls env s (pre ++ x :: post) u)
    (hno : ∀ y ∈ pre, y.hit = false) : x.hit = true ↔
      ∃ e, EarliestRun s.ram.cfg (scannedBytes (pre ++ x :: post)) e ∧
        (scannedBytes pre).length < e ∧ e ≤ (scannedBytes pre).length + x.len := by
  obtain ⟨hquiet, -, hhit⟩ := h.next hseen h1 h2 hno
  have hlen := x.length_bytes
  rw [hhit]
  rcases scanBytes_cases h1 h2 x.bytes _ hquiet.tail with
    ⟨hfalse, hall⟩ | ⟨k, hk, htrue, hat, hbefore⟩
  · rw [hfalse]
    refine ⟨nofun, fun ⟨e, hrun, hlt, hle⟩ => ?_⟩
    obtain ⟨j, rfl⟩ := Nat.exists_eq_add_of_le hlt.le
    have hend := (runEnds_iff.mp hrun.1).2
    rw [take_scannedBytes (by omega)] at hend
    have := hall j (by omega)
    omega
  · rw [htrue]
    have hpos : k ≠ 0 := by
      rintro rfl
      have := hquiet.tail
      rw [List.take_zero, List.append_nil] at hat
      omega
    have hfirst := earliestRun_first hquiet hk hat hbefore (scannedBytes post)
    rw [List.append_assoc, ← scannedBytes_split] at hfirst
    exact ⟨fun _ => ⟨_, hfirst, by omega, by omega⟩, fun _ => rfl⟩

/-- Up to the end of the earliest run the counter is what the bytes end with. -/
theorem ScanCalls.counter_before (hseen : s.ram.escSeen = 0) (h1 : 1 ≤ s.ram.cfg.escCount)
    (h2 : s.ram.cfg.escCount < 2 ^ 8) (h : ScanCalls env s (pre ++ x :: post) u)
    (hno : ∀ y ∈ pre, y.hit = false) {k : ℕ} (hk : k ≤ x.len)
    (hfirst : ∀ e, EarliestRun s.ram.cfg (scannedBytes (pre ++ x :: post)) e →
      (scannedBytes pre).length + k ≤ e) :
    ((scanEscape k x.buf).run (fwStep env) x.start).2.ram.escSeen =
        tailRun s.ram.cfg (scannedBytes pre ++ x.bytes.take k) ∧
      tailRun s.ram.cfg (scannedBytes pre ++ x.bytes.take k) < 2 ^ 8 := by
  obtain ⟨hquiet, hcount, -⟩ := h.next hseen h1 h2 hno
  rw [hcount k hk]
  rcases scanBytes_cases h1 h2 (x.bytes.take k) _ hquiet.tail with
    ⟨hfalse, hall⟩ | ⟨j, hj, htrue, hat, hbefore⟩
  · rw [hfalse]
    have := hall _ le_rfl
    rw [List.take_length] at this
    exact ⟨rfl, by omega⟩
  · have hearly := earliestRun_first hquiet hj hat hbefore (x.bytes.drop k ++ scannedBytes post)
    have hwhole : scannedBytes pre ++ x.bytes.take k ++ (x.bytes.drop k ++ scannedBytes post) =
        scannedBytes (pre ++ x :: post) := by
      rw [List.append_assoc, ← List.append_assoc (x.bytes.take k), List.take_append_drop,
        scannedBytes_split]
    rw [hwhole] at hearly
    have := hfirst _ hearly
    rw [List.length_take] at hj
    obtain rfl : j = k := by omega
    rw [List.take_take, Nat.min_self] at hat
    rw [htrue, hat]
    exact ⟨rfl, h2⟩

theorem ScanCalls.no_hit (hseen : s.ram.escSeen = 0) (h1 : 1 ≤ s.ram.cfg.escCount)
    (h2 : s.ram.cfg.escCount < 2 ^ 8) (h : ScanCalls env s (pre ++ post) u)
    (hnone : ∀ e, ¬ RunEnds s.ram.cfg (scannedBytes (pre ++ post)) e) :
    ∀ y ∈ pre, y.hit = false := by
  induction pre using List.reverseRecOn generalizing post with
  | nil => exact fun y hy => absurd hy List.not_mem_nil
  | append_singleton pre x ih =>
    rw [List.append_assoc, List.singleton_append] at h hnone
    have hno := ih h hnone
    intro y hy
    rcases List.mem_append.mp hy with hy | hy
    · exact hno y hy
    · obtain rfl := List.mem_singleton.mp hy
      refine Bool.eq_false_iff.mpr fun hhit => ?_
      obtain ⟨e, hrun, -⟩ := (h.hit_iff hseen h1 h2 hno).mp hhit
      exact hnone e hrun.1

/-- However a sequence of bytes is cut into buffers, the first call of `scan_escape` that returns 1
is the one whose buffer has the last byte of the earliest run of `esc_count` escape characters. Up
to that byte the counter is the length of the run that the bytes end with, which fits 8 bits. -/
theorem escape_found_in_call (env : Env) {s : Machine} (hseen : s.ram.escSeen = 0)
    (h1 : 1 ≤ s.ram.cfg.escCount) (h2 : s.ram.cfg.escCount < 2 ^ 8) :
    (∀ bufs, ∃ xs u, ScanCalls env s xs u ∧ xs.map ScanCall.bytes = bufs) ∧
    (∀ xs u, ScanCalls env s xs u → (∀ e, ¬ RunEnds s.ram.cfg (scannedBytes xs) e) →
      ∀ x ∈ xs, x.hit = false) ∧
    ∀ xs u, ScanCalls env s xs u → ∀ pre x post, xs = pre ++ x :: post →
      (∀ y ∈ pre, y.hit = false) →
      (x.hit = true ↔ ∃ e, EarliestRun s.ram.cfg (scannedBytes xs) e ∧
        (scannedBytes pre).length < e ∧ e ≤ (scannedBytes pre).length + x.len) ∧
      ∀ k, k ≤ x.len →
        (∀ e, EarliestRun s.ram.cfg (scannedBytes xs) e → (scannedBytes pre).length + k ≤ e) →
        ((scanEscape k x.buf).run (fwStep env) x.start).2.ram.escSeen =
          tailRun s.ram.cfg (scannedBytes pre ++ x.bytes.take k) ∧
        tailRun s.ram.cfg (scannedBytes pre ++ x.bytes.take k) < 2 ^ 8 := by
  refine ⟨scanCalls_exist env s, fun xs u h hnone => ?_, ?_⟩
  · rw [← List.append_nil xs] at h hnone
    exact h.no_hit hseen h1 h2 hnone
  · rintro xs u h pre x post rfl hno
    exact ⟨h.hit_iff hseen h1 h2 hno, fun k hk hfirst =>
      h.counter_before hseen h1 h2 hno hk hfirst⟩

/-- Three escape characters cut after the first, as at the end of the ring: the second call finds
them. -/
theorem escape_found_across_wrap : ∃ xs u, ScanCalls Env.ideal
    (Machine.mounted tinyVol fun _ _ => 0) xs u ∧ xs.map ScanCall.hit = [false, true] := by
  obtain ⟨hexist, -, hcall⟩ := escape_found_in_call Env.ideal
    (s := Machine.mounted tinyVol fun _ _ => 0) rfl (by decide) (by decide)
  obtain ⟨xs, u, h, hbytes⟩ := hexist [[0x1A], [0x1A, 0x1A]]
  obtain _ | ⟨x, _ | ⟨y, _ | _⟩⟩ := xs <;> simp at hbytes
  have hx : x.len = 1 := by rw [← x.length_bytes, hbytes.1, List.length_singleton]
  have hy : y.len = 2 := by rw [← y.length_bytes, hbytes.2]; rfl
  have hwhole : scannedBytes [x, y] = [0x1A, 0x1A, 0x1A] := by
    simp [scannedBytes, hbytes.1, hbytes.2]
  have hone : scannedBytes [x] = [0x1A] := by simp [scannedBytes, hbytes.1]
  have hshort : ∀ e, e < 3 → ¬ RunEnds configDefaults [0x1A, 0x1A, 0x1A] e := by
    unfold RunEnds
    decide
  have hfirst : EarliestRun configDefaults [0x1A, 0x1A, 0x1A] 3 := ⟨⟨by decide, by decide⟩, hshort⟩
  have hmiss : x.hit = false := by
    refine Bool.eq_false_iff.mpr fun hhit => ?_
    obtain ⟨e, hrun, -, hle⟩ := (hcall _ u h [] x [y] rfl (by simp)).1.mp hhit
    rw [hwhole] at hrun
    rw [hx] at hle
    exact hshort e (Nat.lt_of_le_of_lt hle (by decide)) hrun.1
  have hfound : y.hit = true := by
    refine (hcall _ u h [x] y [] rfl (by simpa using hmiss)).1.mpr ⟨3, ?_, ?_⟩
    · rw [hwhole]
      exact hfirst
    · rw [hone, hy]
      decide
  exact ⟨[x, y], u, h, by simp [hmiss, hfound]⟩

end Barelog
