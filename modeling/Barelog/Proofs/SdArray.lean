import Barelog.Lib.Triple
import Barelog.Proofs.Sd
import Barelog.Spec.SdCard

/-! The read and write functions against the card: an array of sectors, whatever time the card
takes. Between calls the card waits for a command, and in a call the two run in lockstep. -/

namespace Barelog.Wire

open Prog

/-! The array. -/

structure Disk where
  sectors : ℕ → Sector
  mem : ℕ → Byte

def Disk.put (d : Disk) (lba : ℕ) (data : Sector) : Disk :=
  { d with sectors := Function.update d.sectors lba data }

/-- What a call does to an array of sectors and the memory of the caller. -/
def SdCall.effect : SdCall → Disk → Disk
  | .read lba buf, d => { d with mem := load d.mem buf (d.sectors lba) 512 }
  | .write lba buf, d => d.put lba (sectorAt d.mem buf)
  | .writeZc lba spanA lenA spanB lenB, d =>
    d.put lba (sectorOf (spanBytes d.mem spanA lenA spanB lenB))
  | .writeZero lba, d => d.put lba fun _ => 0
  | _, d => d

def LbaOk (sdhc : Bool) (lba : ℕ) : Prop := if sdhc = true then lba < 2 ^ 32 else lba < 2 ^ 23

def SdCall.InContract (sdhc : Bool) : SdCall → Prop
  | .read lba _ => LbaOk sdhc lba
  | .write lba _ => LbaOk sdhc lba
  | .writeZc lba _ lenA spanB lenB => LbaOk sdhc lba ∧ lenA + spanLength spanB lenB = 512
  | .writeZero lba => LbaOk sdhc lba
  | _ => False

/-! Lockstep. -/

variable {sdhc : Bool} {timing : ℕ → Timing} {c c' c'' : SdCard} {m m' m'' : ℕ → Byte}
  {α β : Type} {a : α} {b : β} {lba : ℕ} {s : Bus SdCard}

structure At (sdhc : Bool) (c : SdCard) (m : ℕ → Byte) (s : Bus SdCard) : Prop where
  low : s.csHigh = false
  sdhc : s.sdhc = sdhc
  card : s.device = c
  mem : s.mem = m

abbrev Goes (sdhc : Bool) (timing : ℕ → Timing) (p : Spi α) (c : SdCard) (m : ℕ → Byte) (a : α)
    (c' : SdCard) (m' : ℕ → Byte) : Prop :=
  Gives (spiStep (cardDevice sdhc timing)) (At sdhc c m) p a (At sdhc c' m')

theorem goes_transfer {x y : Byte} (h : cardDevice sdhc timing false x c = (y, c')) :
    Goes sdhc timing (spiTransfer x) c m y c' m := by
  refine gives_iff.mpr fun s hs => ?_
  have hrun : (spiTransfer x).run (spiStep (cardDevice sdhc timing)) s =
      (.ok (cardDevice sdhc timing s.csHigh x s.device).1, { s with
        device := (cardDevice sdhc timing s.csHigh x s.device).2
        trace := s.trace ++ [.clock s.csHigh] }) := rfl
  rw [hs.low, hs.card, h] at hrun
  exact ⟨_, hrun, rfl, hs.sdhc, rfl, hs.mem⟩

theorem goes_clock {x y : Byte} (h : cardDevice sdhc timing false x c = (y, c')) :
    Goes sdhc timing (clock x) c m () c' m := (goes_transfer h).bind (gives_pure fun _ hs => hs)

/-! A command. -/

theorem frameByte_first {x : Byte} (hx : x &&& 0xC0 = 0x40) :
    (c.goto (.command [])).frameByte timing [] x = c.goto (.command [x]) := by
  rw [SdCard.frameByte, if_neg (fun h => h.2 hx), if_pos (by decide)]
  rfl

theorem frameByte_next {frame : List Byte} {x : Byte} (hne : frame ≠ []) (hlen : frame.length < 5) :
    (c.goto (.command frame)).frameByte timing frame x = c.goto (.command (frame ++ [x])) := by
  rw [SdCard.frameByte, if_neg (fun h => hne h.1), if_pos hlen]
  rfl

theorem frameByte_last {frame : List Byte} {x : Byte} (hlen : frame.length = 5) :
    (c.goto (.command frame)).frameByte timing frame x = { c with
      phase := .reply (timing (c.count + 1)).r1 (frame.getD 0 0 &&& 0x3F) (frameArg frame)
      count := c.count + 1 } := by
  have hne : frame ≠ [] := by
    rintro rfl
    cases hlen
  rw [SdCard.frameByte, if_neg (fun h => hne h.1), if_neg (by omega)]
  rfl

theorem frameArg_eq {arg : ℕ} (harg : arg < 2 ^ 32) (x : Byte) : frameArg [x, .ofNat (arg / 2 ^ 24),
    .ofNat (arg / 2 ^ 16), .ofNat (arg / 2 ^ 8), .ofNat arg] = arg := by
  simp only [frameArg, List.getD_cons_succ, List.getD_cons_zero, UInt8.toNat_ofNat']
  omega

theorem goes_pollR1 {n wait arg : ℕ} {cmd : Byte} (hwait : wait < n)
    (hans : c.answer sdhc timing cmd arg = (0x00, c')) :
    Goes sdhc timing (pollR1 n) (c.goto (.reply wait cmd arg)) m (some 0x00) c' m := by
  induction n generalizing wait with
  | zero => exact absurd hwait (Nat.not_lt_zero _)
  | succ n ih =>
    cases wait with
    | zero =>
      have h : cardDevice sdhc timing false 0xFF (c.goto (.reply 0 cmd arg)) = (0x00, c') := hans
      refine (goes_transfer h).bind ?_
      rw [if_pos (by decide)]
      exact gives_pure fun _ hs => hs
    | succ wait =>
      have h : cardDevice sdhc timing false 0xFF (c.goto (.reply (wait + 1) cmd arg)) =
        (0xFF, c.goto (.reply wait cmd arg)) := rfl
      refine (goes_transfer h).bind ?_
      rw [if_neg (by decide)]
      exact ih (by omega)

theorem goes_sdCmd {cmd crc : Byte} {arg : ℕ} (hlim : ∀ k, (timing k).Within) (harg : arg < 2 ^ 32)
    (hstart : (0x40 ||| cmd) &&& 0xC0 = 0x40) (hcmd : (0x40 ||| cmd) &&& 0x3F = cmd)
    (hans : SdCard.answer sdhc timing { c with count := c.count + 1 } cmd arg = (0x00, c')) :
    Goes sdhc timing (sdCmd cmd arg crc) (c.goto (.command [])) m (0, 0x00) c' m := by
  have h1 : cardDevice sdhc timing false (0x40 ||| cmd) (c.goto (.command [])) =
      (0xFF, c.goto (.command [0x40 ||| cmd])) := congrArg (Prod.mk 0xFF) (frameByte_first hstart)
  have hnext : ∀ (x y : Byte) (ys : List Byte), ys.length < 4 →
      cardDevice sdhc timing false x (c.goto (.command (y :: ys))) =
        (0xFF, c.goto (.command (y :: ys ++ [x]))) :=
    fun x y ys hlen => congrArg (Prod.mk 0xFF) (frameByte_next (List.cons_ne_nil _ _)
      (by rw [List.length_cons]; omega))
  refine (goes_clock h1).bind ?_
  refine (goes_clock (hnext _ _ [] (by simp))).bind ?_
  refine (goes_clock (hnext _ _ [_] (by simp))).bind ?_
  refine (goes_clock (hnext _ _ [_, _] (by simp))).bind ?_
  refine (goes_clock (hnext _ _ [_, _, _] (by simp))).bind ?_
  have hlast : cardDevice sdhc timing false crc (c.goto (.command [0x40 ||| cmd,
      .ofNat (arg / 2 ^ 24), .ofNat (arg / 2 ^ 16), .ofNat (arg / 2 ^ 8), .ofNat arg])) =
      (0xFF, SdCard.goto { c with count := c.count + 1 }
        (.reply (timing (c.count + 1)).r1 cmd arg)) := by
    refine congrArg (Prod.mk 0xFF) ((frameByte_last rfl).trans ?_)
    rw [frameArg_eq harg, List.getD_cons_zero, hcmd]
    rfl
  refine (goes_clock hlast).bind ((goes_pollR1 (hlim _).r1 hans).bind ?_)
  exact gives_pure fun _ hs => hs

/-! The address. -/

theorem LbaOk.arg (h : LbaOk sdhc lba) : (if sdhc = true then lba else u32 (lba * 2 ^ 9)) < 2 ^ 32 ∧
    ¬ (sdhc = false ∧ (if sdhc = true then lba else u32 (lba * 2 ^ 9)) % 512 ≠ 0) ∧
    (if sdhc = true then (if sdhc = true then lba else u32 (lba * 2 ^ 9))
      else (if sdhc = true then lba else u32 (lba * 2 ^ 9)) / 512) = lba := by
  unfold LbaOk u32 at *
  cases sdhc
  · simp only [Bool.false_eq_true, if_false, true_and] at h ⊢
    omega
  · simp only [if_true] at h ⊢
    exact ⟨h, nofun, trivial⟩

theorem goes_sdLbaArg : Goes sdhc timing (sdLbaArg lba) c m
    (if sdhc = true then lba else u32 (lba * 2 ^ 9)) c m := by
  refine gives_iff.mpr fun s hs => ?_
  have hrun : (sdLbaArg lba).run (spiStep (cardDevice sdhc timing)) s =
    (.ok (if s.sdhc = true then lba else u32 (lba * 2 ^ 9)), s) := rfl
  rw [hs.sdhc] at hrun
  exact ⟨s, hrun, hs⟩

theorem answer_read (h : LbaOk sdhc lba) : c.answer sdhc timing 17
    (if sdhc = true then lba else u32 (lba * 2 ^ 9)) =
      (0x00, c.goto (.token (timing c.count).token lba)) := by
  obtain ⟨-, hok, hlba⟩ := h.arg
  rw [SdCard.answer, if_neg hok, if_pos rfl, hlba]

theorem answer_write (h : LbaOk sdhc lba) : c.answer sdhc timing 24
    (if sdhc = true then lba else u32 (lba * 2 ^ 9)) = (0x00, c.goto (.awaitToken lba)) := by
  obtain ⟨-, hok, hlba⟩ := h.arg
  rw [SdCard.answer, if_neg hok, if_neg (by decide), if_pos rfl, hlba]

/-! Data blocks. -/

theorem goes_pollToken {n wait : ℕ} {tok : Byte} (hwait : wait < n) :
    Goes sdhc timing (pollToken n tok) (c.goto (.token wait lba)) m 0xFE (c.goto (.send lba 0)) m := by
  induction n generalizing wait tok with
  | zero => exact absurd hwait (Nat.not_lt_zero _)
  | succ n ih =>
    cases wait with
    | zero =>
      have h : cardDevice sdhc timing false 0xFF (c.goto (.token 0 lba)) =
        (0xFE, c.goto (.send lba 0)) := rfl
      refine (goes_transfer h).bind ?_
      rw [if_pos rfl]
      exact gives_pure fun _ hs => hs
    | succ wait =>
      have h : cardDevice sdhc timing false 0xFF (c.goto (.token (wait + 1) lba)) =
        (0xFF, c.goto (.token wait lba)) := rfl
      refine (goes_transfer h).bind ?_
      rw [if_neg (by decide)]
      exact ih (by omega)

theorem goes_sdWaitReady {n wait : ℕ} (hwait : wait < n) :
    Goes sdhc timing (sdWaitReady n) (c.goto (.busy wait)) m 0 (c.goto (.command [])) m := by
  induction n generalizing wait with
  | zero => exact absurd hwait (Nat.not_lt_zero _)
  | succ n ih =>
    cases wait with
    | zero =>
      have h : cardDevice sdhc timing false 0xFF (c.goto (.busy 0)) =
        (0xFF, c.goto (.command [])) := rfl
      refine (goes_transfer h).bind ?_
      rw [if_pos rfl]
      exact gives_pure fun _ hs => hs
    | succ wait =>
      have h : cardDevice sdhc timing false 0xFF (c.goto (.busy (wait + 1))) =
        (0x00, c.goto (.busy wait)) := rfl
      refine (goes_transfer h).bind ?_
      rw [if_neg (by decide)]
      exact ih (by omega)

theorem goes_memGet (i : ℕ) : Goes sdhc timing (spiOp (.memGet i)) c m (m i) c m :=
  gives_perform fun _ hs => ⟨congrFun hs.mem i, hs⟩

theorem goes_memSet (i : ℕ) (x : Byte) :
    Goes sdhc timing (spiOp (.memSet i x)) c m () c (Function.update m i x) :=
  gives_perform fun s hs =>
    ⟨rfl, hs.low, hs.sdhc, hs.card, show Function.update s.mem i x = _ by rw [hs.mem]⟩

theorem goes_spiReadBuf (buf : ℕ) : Goes sdhc timing (spiReadBuf buf 512) (c.goto (.send lba 0)) m ()
    (c.goto (.sendCrc false)) (load m buf (c.sectors lba) 512) := by
  have hbody : ∀ i, 0 ≤ i → i < 0 + 512 → Goes sdhc timing
      (do let b ← spiTransfer 0xFF; spiOp (.memSet (buf + i) b))
      (c.goto (if i < 512 then .send lba i else .sendCrc false)) (load m buf (c.sectors lba) i) ()
      (c.goto (if i + 1 < 512 then .send lba (i + 1) else .sendCrc false))
      (load m buf (c.sectors lba) (i + 1)) := by
    intro i _ hi
    have h : cardDevice sdhc timing false 0xFF (c.goto (.send lba i)) = ((c.sectors lba).byte i,
      c.goto (if i + 1 < 512 then .send lba (i + 1) else .sendCrc false)) := rfl
    rw [if_pos (by omega), ← load_succ]
    exact (goes_transfer h).bind (goes_memSet _ _)
  have hloop := gives_forUp (I := fun i => At sdhc (c.goto (if i < 512 then .send lba i
    else .sendCrc false)) (load m buf (c.sectors lba) i)) hbody
  rwa [load_none] at hloop

theorem goes_data {block : List Byte} {x : Byte} (hlen : block.length < 512) :
    Goes sdhc timing (clock x) (c.goto (received lba block)) m ()
      (c.goto (received lba (block ++ [x]))) m := by
  have h : cardDevice sdhc timing false x (c.goto (.receive lba block)) =
    (0xFF, c.goto (received lba (block ++ [x]))) := rfl
  rw [received, if_pos hlen]
  exact goes_clock h

theorem goes_spiWriteBuf {block : List Byte} {buf len : ℕ} (hlen : block.length + len ≤ 512) :
    Goes sdhc timing (spiWriteBuf buf len) (c.goto (received lba block)) m ()
      (c.goto (received lba (block ++ (List.range len).map fun i => m (buf + i)))) m := by
  have hbody : ∀ i, 0 ≤ i → i < 0 + len → Goes sdhc timing
      (do let b ← spiOp (.memGet (buf + i)); clock b)
      (c.goto (received lba (block ++ (List.range i).map fun k => m (buf + k)))) m ()
      (c.goto (received lba (block ++ (List.range (i + 1)).map fun k => m (buf + k)))) m := by
    intro i _ hi
    rw [List.range_succ, List.map_append, ← List.append_assoc]
    refine (goes_memGet _).bind (goes_data ?_)
    rw [List.length_append, List.length_map, List.length_range]
    omega
  have hloop := gives_forUp (I := fun i => At sdhc
    (c.goto (received lba (block ++ (List.range i).map fun k => m (buf + k)))) m) hbody
  rwa [List.range_zero, List.map_nil, List.append_nil, Nat.zero_add] at hloop

theorem goes_spiWriteBuf_start {buf len : ℕ} (hlen : len ≤ 512) :
    Goes sdhc timing (spiWriteBuf buf len) (c.goto (received lba [])) m ()
      (c.goto (received lba ((List.range len).map fun i => m (buf + i)))) m := by
  have hfit : ([] : List Byte).length + len ≤ 512 := by rwa [List.length_nil, Nat.zero_add]
  have hwrite : Goes sdhc timing (spiWriteBuf buf len) (c.goto (received lba [])) m ()
      (c.goto (received lba ([] ++ (List.range len).map fun i => m (buf + i)))) m :=
    goes_spiWriteBuf hfit
  rwa [List.nil_append] at hwrite

theorem spanBytes_length (ring : ℕ → Byte) (spanA lenA : ℕ) (spanB : Option ℕ) (lenB : ℕ) :
    (spanBytes ring spanA lenA spanB lenB).length = lenA + spanLength spanB lenB := by
  cases spanB with
  | none => simp [spanBytes, spanLength]
  | some b => simp [spanBytes, spanLength]

theorem goes_spans {spanA lenA lenB : ℕ} {spanB : Option ℕ}
    (hlen : lenA + spanLength spanB lenB = 512) :
    Goes sdhc timing (do spiWriteBuf spanA lenA; spiWriteSpan spanB lenB)
      (c.goto (received lba [])) m () (c.goto (received lba (spanBytes m spanA lenA spanB lenB))) m := by
  refine (goes_spiWriteBuf_start (by omega)).bind ?_
  cases spanB with
  | none =>
    rw [spanBytes, Option.elim_none, List.append_nil]
    exact gives_pure fun _ hs => hs
  | some b =>
    rw [spanBytes, Option.elim_some, spiWriteSpan, doIf]
    split
    · refine goes_spiWriteBuf ?_
      rw [List.length_map, List.length_range]
      exact hlen.le
    · obtain rfl : lenB = 0 := by omega
      rw [List.range_zero, List.map_nil, List.append_nil]
      exact gives_pure fun _ hs => hs

theorem goes_spiWriteZeros {len : ℕ} (hlen : len ≤ 512) :
    Goes sdhc timing (spiWriteZeros len) (c.goto (received lba [])) m ()
      (c.goto (received lba (List.replicate len 0))) m := by
  have hbody : ∀ i, 0 ≤ i → i < 0 + len → Goes sdhc timing (clock 0x00)
      (c.goto (received lba (List.replicate i 0))) m ()
      (c.goto (received lba (List.replicate (i + 1) 0))) m := by
    intro i _ hi
    rw [List.replicate_succ']
    refine goes_data ?_
    rw [List.length_replicate]
    omega
  have hloop := gives_forUp (I := fun i => At sdhc
    (c.goto (received lba (List.replicate i 0))) m) hbody
  rwa [List.replicate_zero, Nat.zero_add] at hloop

/-! Whole calls. -/

/-- Between calls: the card waits for a command, and the host knows how it is addressed. -/
structure Ready (sdhc : Bool) (s : Bus SdCard) : Prop where
  phase : s.device.phase = .command []
  sdhc : s.sdhc = sdhc

def view (s : Bus SdCard) : Disk := ⟨s.device.sectors, s.mem⟩

abbrev Completes (sdhc : Bool) (timing : ℕ → Timing) (p : Spi Unit) (c : SdCard) (m : ℕ → Byte)
    (d : Disk) : Prop :=
  Gives (spiStep (cardDevice sdhc timing)) (At sdhc c m) p () fun s => Ready sdhc s ∧ view s = d

theorem completes_release {f : Unit → Spi Unit} (hf : f () = pure ()) :
    Completes sdhc timing (spiCsRelease >>= fun _ => clock 0xFF >>= f) c m ⟨c.sectors, m⟩ := by
  refine gives_iff.mpr fun s hs => ?_
  refine ⟨_, congrArg (Prog.run (spiStep (cardDevice sdhc timing)) · _) hf, ⟨rfl, hs.sdhc⟩, ?_⟩
  change Disk.mk s.device.sectors s.mem = _
  rw [hs.card, hs.mem]

theorem completes_write {block : Spi Unit} {bytes : List Byte} (hlim : ∀ k, (timing k).Within)
    (hlba : LbaOk sdhc lba) (hlen : bytes.length = 512)
    (hblock : ∀ c, Goes sdhc timing block (SdCard.goto c (received lba [])) m ()
      (c.goto (received lba bytes)) m) :
    Completes sdhc timing (do
      let arg ← sdLbaArg lba
      let (code, r1) ← sdCmd 24 arg 0x01
      doIf (code ≠ 0 ∨ r1 ≠ 0x00) (releaseWith (-4))
      clock 0xFF
      clock 0xFE
      block
      sdWriteFinish) (c.goto (.command [])) m
      ⟨Function.update c.sectors lba (sectorOf bytes), m⟩ := by
  obtain ⟨c1, hc1⟩ : ∃ c1 : SdCard, c1 = { c with count := c.count + 1 } := ⟨_, rfl⟩
  have hcmd : Goes sdhc timing (sdCmd 24 (if sdhc = true then lba else u32 (lba * 2 ^ 9)) 0x01)
      (c.goto (.command [])) m (0, 0x00) (c1.goto (.awaitToken lba)) m :=
    goes_sdCmd hlim hlba.arg.1 (by decide) (by decide) (hc1 ▸ answer_write hlba)
  have hgap : cardDevice sdhc timing false 0xFF (c1.goto (.awaitToken lba)) =
    (0xFF, c1.goto (.awaitToken lba)) := rfl
  have htoken : cardDevice sdhc timing false 0xFE (c1.goto (.awaitToken lba)) =
    (0xFF, c1.goto (received lba [])) := rfl
  refine goes_sdLbaArg.bind (hcmd.bind ((gives_doIf (by decide)).bind ?_))
  refine (goes_clock hgap).bind ((goes_clock htoken).bind ((hblock c1).bind ?_))
  rw [received, if_neg (by omega)]
  have hcrc1 : cardDevice sdhc timing false 0xFF (c1.goto (.receiveCrc false lba bytes)) =
    (0xFF, c1.goto (.receiveCrc true lba bytes)) := rfl
  have hcrc2 : cardDevice sdhc timing false 0xFF (c1.goto (.receiveCrc true lba bytes)) =
    (0xFF, c1.goto (.respond lba bytes)) := rfl
  obtain ⟨c2, hc2⟩ : ∃ c2 : SdCard,
    c2 = { c1 with sectors := Function.update c1.sectors lba (sectorOf bytes) } := ⟨_, rfl⟩
  have hresp : cardDevice sdhc timing false 0xFF (c1.goto (.respond lba bytes)) =
      ((timing c1.count).resp, c2.goto (.busy (timing c1.count).busy)) := by
    rw [hc2]
    rfl
  refine (goes_clock hcrc1).bind ((goes_clock hcrc2).bind
    ((goes_transfer hresp).bind ((gives_doIf (not_not.mpr (hlim _).resp)).bind ?_)))
  refine (goes_sdWaitReady (hlim _).busy).bind ?_
  have hsectors : (c2.goto (.command [])).sectors = Function.update c.sectors lba (sectorOf bytes) := by
    rw [hc2, hc1]
    rfl
  rw [← hsectors]
  exact completes_release rfl

theorem completes_read (hlim : ∀ k, (timing k).Within) (hlba : LbaOk sdhc lba) (buf : ℕ) :
    Completes sdhc timing (do
      let arg ← sdLbaArg lba
      let (code, r1) ← sdCmd 17 arg 0x01
      doIf (code ≠ 0 ∨ r1 ≠ 0x00) (releaseWith (-5))
      let tok ← pollToken 200 0xFF
      doIf (tok ≠ 0xFE) (releaseWith (-1))
      spiReadBuf buf 512
      clock 0xFF
      clock 0xFF
      spiCsRelease
      clock 0xFF) (c.goto (.command [])) m ⟨c.sectors, load m buf (c.sectors lba) 512⟩ := by
  obtain ⟨c1, hc1⟩ : ∃ c1 : SdCard, c1 = { c with count := c.count + 1 } := ⟨_, rfl⟩
  have hsectors : c1.sectors = c.sectors := by rw [hc1]
  have hcmd : Goes sdhc timing (sdCmd 17 (if sdhc = true then lba else u32 (lba * 2 ^ 9)) 0x01)
      (c.goto (.command [])) m (0, 0x00) (c1.goto (.token (timing c1.count).token lba)) m :=
    goes_sdCmd hlim hlba.arg.1 (by decide) (by decide) (hc1 ▸ answer_read hlba)
  have hcrc1 : cardDevice sdhc timing false 0xFF (c1.goto (.sendCrc false)) =
    ((timing c1.count).crc1, c1.goto (.sendCrc true)) := rfl
  have hcrc2 : cardDevice sdhc timing false 0xFF (c1.goto (.sendCrc true)) =
    ((timing c1.count).crc2, c1.goto (.command [])) := rfl
  refine goes_sdLbaArg.bind (hcmd.bind ((gives_doIf (by decide)).bind ?_))
  refine (goes_pollToken (hlim _).token).bind ((gives_doIf (by decide)).bind ?_)
  refine (goes_spiReadBuf buf).bind ((goes_clock hcrc1).bind
    ((goes_clock hcrc2).bind ?_))
  rw [← hsectors, ← bind_pure (clock 0xFF)]
  exact completes_release (c := c1.goto (.command [])) rfl

theorem call_effect {call : SdCall} (hlim : ∀ k, (timing k).Within) (hcall : call.InContract sdhc)
    (hs : Ready sdhc s) : (call.run (cardDevice sdhc timing) s).1 = 0 ∧
      Ready sdhc (call.run (cardDevice sdhc timing) s).2 ∧
      view (call.run (cardDevice sdhc timing) s).2 = call.effect (view s) := by
  have hat : At sdhc (s.device.goto (.command [])) s.mem
      { s with csHigh := false, trace := s.trace ++ [.assert] } := by
    refine ⟨rfl, hs.sdhc, ?_, rfl⟩
    change s.device = { s.device with phase := .command [] }
    rw [← hs.phase]
  have hdone : ∀ {p : Spi Unit} {d : Disk},
      Completes sdhc timing p (s.device.goto (.command [])) s.mem d →
      call.code = (spiCsAssert >>= fun _ => p) → (call.run (cardDevice sdhc timing) s).1 = 0 ∧
        Ready sdhc (call.run (cardDevice sdhc timing) s).2 ∧
        view (call.run (cardDevice sdhc timing) s).2 = d := by
    intro p d hp hcode
    obtain ⟨s', hrun, hready, hview⟩ := gives_iff.mp hp _ hat
    have hassert : spiCsAssert.run (spiStep (cardDevice sdhc timing)) s =
      (.ok (), { s with csHigh := false, trace := s.trace ++ [.assert] }) := rfl
    rw [SdCall.run, hcode, run_bind_ok hassert, hrun]
    exact ⟨rfl, hready, hview⟩
  cases call with
  | init => exact hcall.elim
  | erase a b => exact hcall.elim
  | read lba buf => exact hdone (completes_read hlim hcall buf) rfl
  | write lba buf =>
    have hlen : ((List.range 512).map fun i => s.mem (buf + i)).length = 512 := by
      rw [List.length_map, List.length_range]
    have hput := hdone (completes_write hlim hcall hlen fun c => goes_spiWriteBuf_start le_rfl) rfl
    rw [sectorOf_ring] at hput
    exact hput
  | writeZc lba spanA lenA spanB lenB =>
    have hlen := (spanBytes_length s.mem spanA lenA spanB lenB).trans hcall.2
    exact hdone (completes_write hlim hcall.1 hlen fun c => goes_spans hcall.2) rfl
  | writeZero lba =>
    have hput := hdone (completes_write hlim hcall List.length_replicate
      fun c => goes_spiWriteZeros le_rfl) rfl
    rw [sectorOf_zeros] at hput
    exact hput

/-- Whatever time the card takes within the limits and whatever it holds, every call of a sequence
of reads and writes returns `SD_OK`, and together they do what they do to an array of sectors. -/
theorem calls_array (sdhc : Bool) (timing : ℕ → Timing) (hlim : ∀ k, (timing k).Within)
    (calls : List SdCall) (hcalls : ∀ c ∈ calls, c.InContract sdhc) (s : Bus SdCard)
    (hs : Ready sdhc s) :
    (runCalls (cardDevice sdhc timing) calls s).1 = List.replicate calls.length 0 ∧
      view (runCalls (cardDevice sdhc timing) calls s).2 =
        calls.foldl (fun d c => c.effect d) (view s) := by
  induction calls generalizing s with
  | nil => exact ⟨rfl, rfl⟩
  | cons c cs ih =>
    obtain ⟨hret, hready, hview⟩ := call_effect hlim (hcalls c List.mem_cons_self) hs
    obtain ⟨hrets, hviews⟩ := ih (fun d hd => hcalls d (List.mem_cons_of_mem _ hd)) _ hready
    rw [List.foldl_cons, ← hview]
    refine ⟨?_, hviews⟩
    change (c.run (cardDevice sdhc timing) s).1 ::
      (runCalls (cardDevice sdhc timing) cs (c.run (cardDevice sdhc timing) s).2).1 = _
    rw [hret, hrets, List.length_cons, List.replicate_succ]

/-- A card that takes its time, more or less of it from command to command. -/
def slowTiming (k : ℕ) : Timing := ⟨k % 8, k % 200, k % 50000, 0xE5, 0x12, 0x34⟩

theorem slowTiming_within (k : ℕ) : (slowTiming k).Within :=
  ⟨Nat.mod_lt _ (by decide), Nat.mod_lt _ (by decide), Nat.mod_lt _ (by decide),
    show 0xE5 &&& 0x1F = (0x05 : Byte) by decide⟩

def readyBus : Bus SdCard :=
  ⟨.fast, true, false, fun i => .ofNat i, ⟨fun _ _ => 0x55, .command [], 41⟩, [], []⟩

/-- Sector 7 is read after the two spans from addresses 500 and 0 have been written to it. -/
theorem calls_array_slow :
    (runCalls (cardDevice false slowTiming) [.writeZero 3, .writeZc 7 500 12 (some 0) 500, .read 7 0]
      readyBus).1 = [0, 0, 0] ∧
    view (runCalls (cardDevice false slowTiming)
      [.writeZero 3, .writeZc 7 500 12 (some 0) 500, .read 7 0] readyBus).2 =
        [SdCall.writeZero 3, .writeZc 7 500 12 (some 0) 500, .read 7 0].foldl
          (fun d c => c.effect d) (view readyBus) := by
  refine calls_array false slowTiming slowTiming_within
    [.writeZero 3, .writeZc 7 500 12 (some 0) 500, .read 7 0] (fun c hc => ?_) readyBus ⟨rfl, rfl⟩
  simp only [List.mem_cons, List.not_mem_nil, or_false] at hc
  rcases hc with rfl | rfl | rfl
  · exact show 3 < 2 ^ 23 by decide
  · exact ⟨show 7 < 2 ^ 23 by decide, rfl⟩
  · exact show 7 < 2 ^ 23 by decide

/-! What the array gives. -/

def SdCall.target : SdCall → Option ℕ
  | .write lba _ => some lba
  | .writeZc lba _ _ _ _ => some lba
  | .writeZero lba => some lba
  | _ => none

theorem effect_frame {call : SdCall} {d : Disk} (h : call.target ≠ some lba) :
    (call.effect d).sectors lba = d.sectors lba := by
  have hne : ∀ {k : ℕ}, some k ≠ some lba → lba ≠ k := fun hk heq => hk (heq ▸ rfl)
  cases call with
  | write k buf => exact Function.update_of_ne (hne h) _ _
  | writeZc k spanA lenA spanB lenB => exact Function.update_of_ne (hne h) _ _
  | writeZero k => exact Function.update_of_ne (hne h) _ _
  | _ => rfl

theorem effects_frame {calls : List SdCall} {d : Disk} (h : ∀ c ∈ calls, c.target ≠ some lba) :
    (calls.foldl (fun d c => c.effect d) d).sectors lba = d.sectors lba := by
  induction calls generalizing d with
  | nil => rfl
  | cons c cs ih =>
    rw [List.foldl_cons, ih fun c hc => h c (List.mem_cons_of_mem _ hc),
      effect_frame (h c List.mem_cons_self)]

/-- A read returns what the last write to its sector left there. -/
theorem read_last_written {calls : List SdCall} {d : Disk} (buf : ℕ)
    (h : ∀ c ∈ calls, c.target ≠ some lba) :
    (SdCall.read lba buf).effect (calls.foldl (fun d c => c.effect d) d) =
      { calls.foldl (fun d c => c.effect d) d with
        mem := load (calls.foldl (fun d c => c.effect d) d).mem buf (d.sectors lba) 512 } := by
  rw [SdCall.effect, effects_frame h]

/-- The code above the bus, for a call. -/
def SdCall.request : SdCall → Fw Unit
  | .read lba buf => Barelog.sdReadSector lba buf
  | .write lba buf => Barelog.sdWriteSector lba buf
  | .writeZc lba spanA lenA spanB lenB => Barelog.sdWriteSectorZc lba spanA lenA spanB lenB
  | .writeZero lba => Barelog.sdWriteZeroSector lba
  | .erase lbaStart lbaEnd => Barelog.sdErase lbaStart lbaEnd
  | .init => pure ()

/-- The requests of the machine have the effect that the bytes on the bus have. -/
theorem request_effect {env : Env} {call : SdCall} (hgood : env.Good)
    (hcall : call.InContract sdhc) (t : Machine) :
    ∃ t', call.request.run (fwStep env) t = (.ok (), t') ∧
      Disk.mk t'.card t'.ring = call.effect ⟨t.card, t.ring⟩ := by
  cases call with
  | init => exact hcall.elim
  | erase a b => exact hcall.elim
  | read lba buf =>
    rw [SdCall.request, sdReadSector_run, if_pos (hgood _)]
    exact ⟨_, rfl, rfl⟩
  | write lba buf =>
    rw [SdCall.request, sdWriteSector_run, send_good hgood]
    exact ⟨_, rfl, rfl⟩
  | writeZc lba spanA lenA spanB lenB =>
    rw [SdCall.request, sdWriteSectorZc_run, send_good hgood]
    exact ⟨_, rfl, rfl⟩
  | writeZero lba =>
    rw [SdCall.request, sdWriteZeroSector_run, send_good hgood]
    exact ⟨_, rfl, rfl⟩

end Barelog.Wire
