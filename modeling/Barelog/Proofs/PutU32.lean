import Barelog.Spec.Console

/-! `repl_putu32` prints the decimal digits of a 32 bit number: the first loop puts them in the
buffer, the last one first, and the second prints the buffer backwards. -/

namespace Barelog

open Prog
open Wire (Device)

variable {κ : Type} {env : Env} {dev : Device κ} {s : Console κ} {buf : ℕ → Option Byte} {v i : ℕ}

/-- `'0' + d` -/
def digitByte (d : ℕ) : Byte := .ofNat d + 0x30

def Console.printed (s : Console κ) (out : List Byte) : Console κ :=
  { s with events := s.events ++ out.map .out }

@[simp] theorem Console.printed_nil (s : Console κ) : s.printed [] = s := by
  rw [Console.printed, List.map_nil, List.append_nil]

@[simp] theorem Console.printed_printed (s : Console κ) (out out' : List Byte) :
    (s.printed out).printed out' = s.printed (out ++ out') := by
  simp only [Console.printed, List.map_append, List.append_assoc]

theorem replPutc_run (env : Env) (dev : Device κ) (c : Byte) (s : Console κ) :
    (replPutc c).run (conStep env dev) s = (.ok (), s.printed [c]) := rfl

theorem replPuts_run (env : Env) (dev : Device κ) (out : List Byte) (s : Console κ) :
    (replPuts out).run (conStep env dev) s = (.ok (), s.printed out) := by
  induction out generalizing s with
  | nil => rw [Console.printed_nil]; rfl
  | cons c out ih =>
    rw [replPuts, run_bind_ok (replPutc_run env dev c s), ih, Console.printed_printed]
    rfl

theorem replCrlf_run (env : Env) (dev : Device κ) (s : Console κ) :
    replCrlf.run (conStep env dev) s = (.ok (), s.printed [0x0D, 0x0A]) := by
  rw [replCrlf, run_bind_ok (replPutc_run env dev _ s), replPutc_run, Console.printed_printed]
  rfl

def withDigits (v i : ℕ) (buf : ℕ → Option Byte) : ℕ → Option Byte := fun j =>
  if i ≤ j ∧ j < i + (Nat.digits 10 v).length then some (digitByte ((Nat.digits 10 v).getD (j - i) 0))
  else buf j

/-- The digits fit, so every store is inside the buffer. -/
theorem collectDigits_run (env : Env) (dev : Device κ) (s : Console κ) (v i : ℕ)
    (buf : ℕ → Option Byte) (hi : i + (Nat.digits 10 v).length ≤ 10) :
    (collectDigits v i buf).run (conStep env dev) s =
      (.ok (i + (Nat.digits 10 v).length, withDigits v i buf), s) := by
  induction v using Nat.strongRecOn generalizing i buf with
  | ind v ih =>
    rw [collectDigits]
    by_cases hv : v > 0
    · have hdigits : Nat.digits 10 v = v % 10 :: Nat.digits 10 (v / 10) :=
        Nat.digits_def' (by decide) hv
      rw [hdigits, List.length_cons] at hi
      have hstep : (i + 1) % 2 ^ 8 = i + 1 := Nat.mod_eq_of_lt (by omega)
      rw [if_pos hv, if_pos (by omega), hstep, ih _ (Nat.div_lt_self hv (by decide)) _ _ (by omega),
        hdigits, List.length_cons]
      congr 3
      · omega
      · funext j
        unfold withDigits
        rw [hdigits, List.length_cons]
        rcases Nat.lt_trichotomy j i with hlt | rfl | hgt
        · rw [if_neg (by omega), if_neg (by omega), Function.update_of_ne (by omega)]
        · rw [if_neg (by omega), if_pos (by omega), Function.update_self, Nat.sub_self]
          rfl
        · have hsub : j - i = j - (i + 1) + 1 := by omega
          rw [hsub, List.getD_cons_succ, Function.update_of_ne (by omega)]
          exact if_congr (by omega) rfl rfl
    · obtain rfl : v = 0 := by omega
      rw [if_neg hv]
      have hsame : withDigits 0 i buf = buf := by
        funext j
        exact if_neg (by simp)
      rw [hsame]
      rfl

/-- The bytes of the buffer come out from the last to the first. -/
theorem emitDigits_run (env : Env) (dev : Device κ) (s : Console κ) (ds : List ℕ)
    (hbuf : ∀ j, j < ds.length → buf j = some (digitByte (ds.getD j 0))) :
    (emitDigits ds.length buf).run (conStep env dev) s =
      (.ok (), s.printed (ds.reverse.map digitByte)) := by
  induction ds using List.reverseRecOn generalizing s with
  | nil => rw [List.reverse_nil, List.map_nil, Console.printed_nil]; rfl
  | append_singleton ds d ih =>
    have hlast := hbuf ds.length (by simp)
    have hrest : ∀ j, j < ds.length → buf j = some (digitByte (ds.getD j 0)) := by
      intro j hj
      rw [hbuf j (by simp; omega), List.getD_eq_getElem?_getD, List.getElem?_append_left hj,
        ← List.getD_eq_getElem?_getD]
    rw [List.getD_eq_getElem?_getD, List.getElem?_concat_length, Option.getD_some] at hlast
    rw [List.length_append, List.length_singleton, emitDigits, hlast]
    change (replPutc (digitByte d) >>= fun _ => emitDigits ds.length buf).run _ _ = _
    rw [run_bind_ok (replPutc_run env dev _ s), ih _ hrest, Console.printed_printed,
      List.reverse_append]
    rfl

def decimalDigits (v : ℕ) : List ℕ := if v = 0 then [0] else (Nat.digits 10 v).reverse

theorem replPutu32_run (env : Env) (dev : Device κ) (hv : v < 2 ^ 32) (s : Console κ) :
    (replPutu32 v).run (conStep env dev) s = (.ok (), s.printed ((decimalDigits v).map digitByte)) := by
  rw [replPutu32, decimalDigits]
  by_cases hzero : v = 0
  · rw [if_pos hzero, if_pos hzero, replPutc_run]
    rfl
  · have hlen : (Nat.digits 10 v).length ≤ 10 :=
      (Nat.digits_length_le_iff (by decide) v).mpr (Nat.lt_trans hv (by decide))
    rw [if_neg hzero, if_neg hzero,
      run_bind_ok (collectDigits_run env dev s v 0 _ (by rwa [Nat.zero_add])), Nat.zero_add]
    refine emitDigits_run env dev s _ fun j hj => ?_
    rw [withDigits, if_pos ⟨Nat.zero_le _, by rwa [Nat.zero_add]⟩, Nat.sub_zero]

/-- `repl_putu32` ends without a store outside its buffer, which would be undefined behaviour, and
prints decimal digits whose value is `v`, without a leading zero unless `v` is 0. -/
theorem putu32_prints (env : Env) (dev : Device κ) {v : ℕ} (hv : v < 2 ^ 32) (s : Console κ) :
    ∃ ds : List ℕ,
      (replPutu32 v).run (conStep env dev) s =
        (.ok (), { s with events := s.events ++ ds.map fun d => .out (.ofNat d + 0x30) }) ∧
      (∀ d ∈ ds, d < 10) ∧ Nat.ofDigits 10 ds.reverse = v ∧ ds ≠ [] ∧
      (ds.head? = some 0 → v = 0 ∧ ds = [0]) := by
  refine ⟨decimalDigits v, ?_, ?_⟩
  · rw [replPutu32_run env dev hv, Console.printed, List.map_map]
    rfl
  · by_cases hzero : v = 0
    · subst hzero
      exact ⟨by decide, by decide, by decide, fun _ => ⟨rfl, rfl⟩⟩
    · rw [decimalDigits, if_neg hzero]
      have hne : Nat.digits 10 v ≠ [] := Nat.digits_ne_nil_iff_ne_zero.mpr hzero
      refine ⟨fun d hd => Nat.digits_lt_base (by decide) (List.mem_reverse.mp hd), ?_, ?_, ?_⟩
      · rw [List.reverse_reverse, Nat.ofDigits_digits]
      · rwa [ne_eq, List.reverse_eq_nil_iff]
      · intro hhead
        rw [List.head?_reverse, List.getLast?_eq_some_getLast hne, Option.some.injEq] at hhead
        exact absurd hhead (Nat.getLast_digit_ne_zero 10 hzero)

def silent : Device ℕ := fun _ _ n => (0xFF, n)

def typing (input : List Byte) : Console ℕ :=
  ⟨{ machine := .powerUp (fun _ _ => 0) fun _ => 0xFF
     bus := ⟨⟨true, false, false⟩, true, false, fun _ => 0, 0, [], []⟩
     slot := 0
     cards := fun _ _ _ => 0
     opened := 0 }, input, []⟩

/-- The largest number. -/
theorem putu32_prints_max : ∃ ds : List ℕ,
    ((replPutu32 4294967295).run (conStep Env.ideal silent) (typing [])).2.events =
      (ds.map fun d => .out (.ofNat d + 0x30)) ∧
    Nat.ofDigits 10 ds.reverse = 4294967295 ∧ ds.head? ≠ some 0 := by
  obtain ⟨ds, hrun, -, hvalue, -, hhead⟩ :=
    putu32_prints Env.ideal silent (v := 4294967295) (by decide) (typing [])
  refine ⟨ds, ?_, hvalue, fun h => absurd (hhead h).1 (by decide)⟩
  rw [hrun]
  exact List.nil_append _

end Barelog
