import Barelog.Proofs.LineReader

/-! The stores of the line reader over a run of the command loop, with whatever the handlers do in
between. They stay in the line buffer as long as no line is ended with all 511 bytes in use. -/

namespace Barelog

open Prog
open Wire (Device)

variable {κ : Type} {env : Env} {dev : Device κ} {s s' u : Console κ} {fuel k n : ℕ}
  {t rest : List Byte} {e : Byte}

/-- The line that starts the input is ended with fewer than 511 bytes in it. -/
def LineFits (input : List Byte) : Prop :=
  ∀ t e rest, StartsLine input t e rest → (editLine t).length < 511

/-! Handlers neither read the UART nor touch the line buffer as such, and call no handler. -/

def Prints : ConOp → Prop
  | .putc _ => True
  | _ => False

def Quiet : ConOp → Prop
  | .sys _ => True
  | .putc _ => True
  | _ => False

def Offline : ConOp → Prop
  | .getc => False
  | .lineSet _ _ => False
  | _ => True

abbrev IsPrint {α : Type} (p : Con α) : Prop := p.Only (fun _ _ => True) Prints

abbrev IsQuiet {α : Type} (p : Con α) : Prop := p.Only (fun _ _ => True) Quiet

abbrev IsOffline {α : Type} (p : Con α) : Prop := p.Only (fun _ _ => True) Offline

theorem IsPrint.quiet {α : Type} {p : Con α} (hp : IsPrint p) : IsQuiet p := by
  refine hp.mono (fun _ _ h => h) fun o ho => ?_
  cases o with
  | putc c => trivial
  | _ => exact ho.elim

theorem IsQuiet.offline {α : Type} {p : Con α} (hp : IsQuiet p) : IsOffline p := by
  refine hp.mono (fun _ _ h => h) fun o ho => ?_
  cases o with
  | getc => exact ho.elim
  | lineSet i c => exact ho.elim
  | _ => trivial

theorem replPuts_print (out : List Byte) : IsPrint (replPuts out) := by
  induction out with
  | nil => trivial
  | cons c out ih => exact only_bind (only_perform trivial) fun _ => ih

theorem collectDigits_print (v i : ℕ) (buf : ℕ → Option Byte) : IsPrint (collectDigits v i buf) := by
  induction v using Nat.strongRecOn generalizing i buf with
  | ind v ih =>
    rw [collectDigits]
    refine only_ite (fun hv => only_ite (fun _ => ?_) fun _ => trivial) fun _ => trivial
    exact ih _ (Nat.div_lt_self hv (by decide)) _ _

theorem emitDigits_print (i : ℕ) (buf : ℕ → Option Byte) : IsPrint (emitDigits i buf) := by
  induction i with
  | zero => trivial
  | succ i ih =>
    rw [emitDigits]
    cases buf i with
    | none => trivial
    | some c => exact only_bind (only_perform trivial) fun _ => ih

theorem putField_print (name : String) (v : ℕ) : IsPrint (Console.putField name v) := by
  have hcrlf : IsPrint replCrlf := only_bind (only_perform trivial) fun _ => only_perform trivial
  refine only_bind (replPuts_print _) fun _ => only_bind ?_ fun _ => hcrlf
  exact only_ite (fun _ => only_perform trivial) fun _ =>
    only_bind (collectDigits_print _ _ _) fun x => emitDigits_print x.1 x.2

theorem diskFields_print (v : Vol) : IsPrint (do
    Console.putField "part_lba=" v.partLba
    Console.putField "fat_lba=" v.fatLba
    Console.putField "fat_sz32=" v.fatSz32
    Console.putField "num_fats=" v.numFats
    Console.putField "data_lba=" v.dataLba
    Console.putField "sec/clus=" v.secPerClus
    Console.putField "tot_sec=" v.totSec
    Console.putField "size_mb=" (v.totSec / 2048)) := by
  repeat refine only_bind (putField_print _ _) fun _ => ?_
  exact putField_print _ _

theorem report_print (b : Prop) [Decidable b] (x y : List Byte) :
    IsPrint (if b then replPuts x else replPuts y) :=
  only_ite (fun _ => replPuts_print x) fun _ => replPuts_print y

theorem onConsole_quiet {α : Type} (p : Sys α) : IsQuiet (onConsole p) := by
  induction p with
  | ret a => trivial
  | fail e => trivial
  | act o k ih => exact ⟨trivial, fun r _ => ih r⟩

theorem handler_quiet (fuel : ℕ) (c : Command) : IsQuiet (c.handler fuel) := by
  have hputs : ∀ out, IsQuiet (replPuts out) := fun out => (replPuts_print out).quiet
  cases c with
  | disk => exact only_bind (onConsole_quiet _) fun r => (diskFields_print r.vol).quiet
  | init => exact only_bind (onConsole_quiet _) fun ok => (report_print _ _ _).quiet
  | sync => exact only_bind (onConsole_quiet _) fun _ => hputs _
  | reset => exact only_bind (hputs _) fun _ => trivial
  | trimFree =>
    exact only_bind (hputs _) fun _ => only_bind (onConsole_quiet _) fun ret =>
      (report_print _ _ _).quiet
  | trimFuller => exact only_bind (hputs _) fun _ => only_bind (onConsole_quiet _) fun _ => hputs _
  | trimFull => exact only_bind (hputs _) fun _ => only_bind (onConsole_quiet _) fun _ => hputs _
  | _ => exact hputs _

theorem lineEq_offline (name : List Byte) (a : ℕ) : IsOffline (lineEq name a) := by
  induction name generalizing a with
  | nil => exact only_bind (only_perform trivial) fun _ => trivial
  | cons b name ih =>
    exact only_bind (only_perform trivial) fun _ => only_ite (fun _ => trivial) fun _ => ih _

theorem dispatchOn_offline (fuel : ℕ) (names : List (List Byte × Command)) :
    IsOffline (dispatchOn fuel names) := by
  induction names with
  | nil => exact (handler_quiet fuel .unknown).offline
  | cons x names ih =>
    refine only_bind (lineEq_offline _ _) fun eq => only_ite (fun _ => ?_) fun _ => ih
    exact only_bind (only_perform trivial) fun _ => (handler_quiet fuel _).offline

def afterRead (fuel : ℕ) : Con Unit := do
  let c ← lineGet lineBuf
  if c = 0 then replPutc 0x3E
  else do
    replDispatch fuel
    replPutc 0x3E

theorem replTurn_eq (fuel : ℕ) : replTurn fuel = (replReadLine fuel 0 >>= fun _ => afterRead fuel) :=
  rfl

theorem afterRead_offline (fuel : ℕ) : IsOffline (afterRead fuel) := by
  refine only_bind (only_perform trivial) fun c => only_ite (fun _ => only_perform trivial) fun _ => ?_
  exact only_bind (dispatchOn_offline fuel _) fun _ => only_perform trivial

theorem IsOffline.stores {α : Type} {p : Con α} (hp : IsOffline p) (s : Console κ) :
    lineStores (p.transcript (conStep env dev) s) = [] := by
  have hreq := Only.requests (h := conStep env dev) (s := s) hp (I := fun _ => True)
    (fun _ _ _ _ => ⟨trivial, trivial⟩) trivial
  refine List.filterMap_eq_nil_iff.mpr fun x hx => ?_
  have ho := hreq x hx
  obtain ⟨o, r⟩ := x
  cases o with
  | lineSet i c => exact ho.elim
  | _ => rfl

theorem IsOffline.input {α : Type} {p : Con α} (hp : IsOffline p) {r : Except Stop α}
    (hrun : p.run (conStep env dev) s = (r, s')) : s'.input = s.input := by
  have hstep : ∀ (o : ConOp) (v : Console κ), Offline o → v.input = s.input →
      True ∧ (conStep env dev o v).2.input = s.input := by
    intro o v ho hv
    cases o with
    | getc => exact ho.elim
    | _ => exact ⟨trivial, hv⟩
  have hinv := Only.invariant (I := fun v : Console κ => v.input = s.input) hp hstep rfl
  rwa [hrun] at hinv

/-! Turns. -/

theorem holdsLine_nil (ring : ℕ → Byte) : HoldsLine ring [] :=
  fun i hi => absurd hi (Nat.not_lt_zero i)

theorem turn_stores (env : Env) (dev : Device κ) (fuel : ℕ) (s : Console κ) :
    lineStores ((replTurn fuel).transcript (conStep env dev) s) =
      lineStores ((replReadLine fuel 0).transcript (conStep env dev) s) := by
  rw [replTurn_eq, transcript_bind, lineStores_append]
  rcases (replReadLine fuel 0).run (conStep env dev) s with ⟨r, u⟩
  cases r with
  | ok a =>
    change _ ++ lineStores ((afterRead fuel).transcript (conStep env dev) u) = _
    rw [(afterRead_offline fuel).stores, List.append_nil]
  | error e => exact List.append_nil _

theorem turn_input (hfuel : s.input.length < fuel)
    (hrun : (replTurn fuel).run (conStep env dev) s = (.ok (), u)) :
    u.input = afterLine s.input := by
  rw [replTurn_eq] at hrun
  obtain ⟨_, v, hread, hrest⟩ := bind_returned hrun
  rw [(afterRead_offline fuel).input hrest]
  rcases startsLine_or s.input with ⟨t, e, rest, hline⟩ | hnone
  · have hlen : t.length < fuel := by
      have := congrArg List.length hline.eq
      rw [List.length_append] at this
      omega
    obtain ⟨ring, hline', -⟩ := readLine_run env dev hline hlen (holdsLine_nil s.board.machine.ring)
    rw [List.length_nil, hread] at hline'
    rw [(Prod.mk.inj hline').2, hline.afterLine]
    rfl
  · have hwait := (readLine_waits env dev hnone hfuel (holdsLine_nil s.board.machine.ring)).1
    rw [List.length_nil, hread] at hwait
    cases hwait

theorem length_afterLine (input : List Byte) : (afterLine input).length ≤ input.length := by
  induction input with
  | nil => exact le_rfl
  | cons c input ih =>
    rw [afterLine]
    split_ifs
    · exact Nat.le_succ _
    · exact Nat.le_succ_of_le ih

theorem length_afterLines (k : ℕ) (input : List Byte) :
    (afterLines k input).length ≤ input.length := by
  induction k generalizing input with
  | zero => exact le_rfl
  | succ k ih => exact (ih _).trans (length_afterLine input)

theorem turn_shorter (hfuel : s.input.length < fuel)
    (hrun : (replTurn fuel).run (conStep env dev) s = (.ok (), u)) : u.input.length < fuel := by
  have hlen := length_afterLine s.input
  rw [turn_input hfuel hrun]
  omega

theorem loop_input (hfuel : s.input.length < fuel)
    (hrun : (replLoop fuel k).run (conStep env dev) s = (.ok (), u)) :
    u.input = afterLines k s.input := by
  induction k generalizing s with
  | zero =>
    cases hrun
    rfl
  | succ k ih =>
    obtain ⟨_, v, hturn, hrest⟩ := bind_returned hrun
    rw [ih (turn_shorter hfuel hturn) hrest, turn_input hfuel hturn]
    rfl

/-- One line: the last store is the only one that can be outside. -/
theorem readLine_inside (env : Env) (dev : Device κ) (hfuel : s.input.length < fuel) :
    (∀ i ∈ lineStores ((replReadLine fuel 0).transcript (conStep env dev) s), 512 ≤ i ∧ i ≤ 1022) ↔
      LineFits s.input := by
  have hlines : ∀ t e rest, StartsLine s.input t e rest →
      lineStores ((replReadLine fuel 0).transcript (conStep env dev) s) =
        storesOf [] t ++ [lineBuf + (editLine t).length] := by
    intro t e rest hline
    have hlen : t.length < fuel := by
      have := congrArg List.length hline.eq
      rw [List.length_append] at this
      omega
    obtain ⟨-, -, hstores, -⟩ :=
      readLine_run env dev hline hlen (holdsLine_nil s.board.machine.ring)
    exact hstores
  constructor
  · intro h t e rest hline
    have hlast := h (lineBuf + (editLine t).length) (by rw [hlines t e rest hline]; simp)
    unfold lineBuf at hlast
    omega
  · intro h i hi
    rcases startsLine_or s.input with ⟨t, e, rest, hline⟩ | hnone
    · have hshort := h t e rest hline
      rw [hlines t e rest hline] at hi
      rcases List.mem_append.mp hi with hi | hi
      · exact storesOf_range (Nat.zero_le _) i hi
      · obtain rfl := List.mem_singleton.mp hi
        unfold lineBuf
        omega
    · have hwait := (readLine_waits env dev hnone hfuel (holdsLine_nil s.board.machine.ring)).2
      rw [List.length_nil] at hwait
      rw [hwait] at hi
      exact storesOf_range (Nat.zero_le _) i hi

/-- The stores of the first turn, then those of the others. -/
theorem loop_stores (env : Env) (dev : Device κ) (fuel n : ℕ) (s : Console κ) :
    lineStores ((replLoop fuel (n + 1)).transcript (conStep env dev) s) =
      lineStores ((replReadLine fuel 0).transcript (conStep env dev) s) ++
        match (replTurn fuel).run (conStep env dev) s with
        | (.ok _, u) => lineStores ((replLoop fuel n).transcript (conStep env dev) u)
        | (.error _, _) => [] := by
  rw [replLoop, transcript_bind, lineStores_append, turn_stores]
  rcases (replTurn fuel).run (conStep env dev) s with ⟨r, u⟩
  cases r <;> rfl

/-- In a run of the command loop the stores of the line reader lie in `ring[512..1022]` exactly if no
line that is read is ended with 511 bytes in the buffer. -/
theorem line_stores_iff (env : Env) (dev : Device κ) {fuel : ℕ} {s : Console κ}
    (hfuel : s.input.length < fuel) (n : ℕ) :
    (∀ i ∈ lineStores ((replLoop fuel n).transcript (conStep env dev) s), 512 ≤ i ∧ i ≤ 1022) ↔
      ∀ k u, k < n → (replLoop fuel k).run (conStep env dev) s = (.ok (), u) →
        LineFits (afterLines k s.input) := by
  induction n generalizing s with
  | zero =>
    exact ⟨fun _ k _ hk => absurd hk (Nat.not_lt_zero k), fun _ i hi => absurd hi List.not_mem_nil⟩
  | succ n ih =>
    have hfirst := readLine_inside env dev hfuel
    rw [loop_stores]
    constructor
    · intro h k u hk hrun
      have hfits := hfirst.mp fun i hi => h i (List.mem_append_left _ hi)
      cases k with
      | zero => exact hfits
      | succ k =>
        obtain ⟨_, v, hturn, hrest⟩ := bind_returned hrun
        rw [hturn] at h
        have := (ih (turn_shorter hfuel hturn)).mp (fun i hi => h i (List.mem_append_right _ hi)) k u
          (Nat.lt_of_succ_lt_succ hk) hrest
        rwa [turn_input hfuel hturn] at this
    · intro h i hi
      rcases List.mem_append.mp hi with hi | hi
      · exact hfirst.mpr (h 0 s (Nat.succ_pos n) rfl) i hi
      · rcases hturn : (replTurn fuel).run (conStep env dev) s with ⟨r, v⟩
        rw [hturn] at hi
        cases r with
        | error e => cases hi
        | ok a =>
          refine (ih (turn_shorter hfuel hturn)).mpr (fun k u hk hrun => ?_) i hi
          rw [turn_input hfuel hturn]
          exact h (k + 1) u (Nat.succ_lt_succ hk) ((run_bind_ok hturn).trans hrun)

theorem editStep_grows (l : List Byte) (c : Byte) : (editStep l c).length ≤ l.length + 1 := by
  unfold editStep
  split_ifs
  · rw [List.length_dropLast]
    omega
  · rw [List.length_append, List.length_singleton]
  · exact Nat.le_succ _

theorem editLine_length (t l : List Byte) : (t.foldl editStep l).length ≤ l.length + t.length := by
  induction t generalizing l with
  | nil => exact le_rfl
  | cons c t ih =>
    have h1 := ih (editStep l c)
    have h2 := editStep_grows l c
    rw [List.foldl_cons, List.length_cons]
    omega

theorem lineFits_short {input : List Byte} (h : input.length ≤ 511) : LineFits input := by
  intro t e rest hline
  have hedit := editLine_length t []
  have hlen := congrArg List.length hline.eq
  rw [List.length_append, List.length_cons] at hlen
  rw [List.length_nil] at hedit
  unfold editLine
  omega

/-- `disk`, with a byte erased. -/
theorem line_stores_disk :
    (lineStores ((replLoop 8 1).transcript (conStep Env.ideal silent)
      (typing (text "disj" ++ [0x08] ++ text "k\r")))).length = 6 ∧
    ∀ i ∈ lineStores ((replLoop 8 1).transcript (conStep Env.ideal silent)
      (typing (text "disj" ++ [0x08] ++ text "k\r"))), 512 ≤ i ∧ i ≤ 1022 := by
  refine ⟨by decide +kernel, ?_⟩
  refine (line_stores_iff Env.ideal silent (s := typing (text "disj" ++ [0x08] ++ text "k\r"))
    (by decide) 1).mpr fun k _ hk _ => ?_
  obtain rfl : k = 0 := by omega
  exact lineFits_short (by decide)

/-- 511 bytes and CR: the NUL goes to `ring[1023]`. -/
theorem line_store_outside : ¬ ∀ i ∈ lineStores ((replLoop 513 1).transcript
    (conStep Env.ideal silent) (typing (List.replicate 511 0x61 ++ [0x0D]))),
      512 ≤ i ∧ i ≤ 1022 := by
  intro h
  have hline : StartsLine (typing (List.replicate 511 0x61 ++ [0x0D])).input
      (List.replicate 511 0x61) 0x0D [] := by
    refine ⟨rfl, fun c hc => ?_, .inl rfl⟩
    rw [List.eq_of_mem_replicate hc]
    decide
  have hfuel : (List.replicate 511 (0x61 : Byte)).length < 513 := by
    rw [List.length_replicate]
    decide
  obtain ⟨-, -, hstores, -⟩ := readLine_run Env.ideal silent hline hfuel
    (holdsLine_nil (typing _).board.machine.ring)
  have hlen : ((List.replicate 511 0x61).foldl editStep []).length = 511 := by decide +kernel
  rw [loop_stores, ← List.length_nil, hstores, hlen] at h
  have := h (lineBuf + 511)
    (List.mem_append_left _ (List.mem_append_right _ (List.mem_singleton_self _)))
  exact absurd this (by decide)

end Barelog
