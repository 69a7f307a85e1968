import Barelog.Proofs.Flush

/-! The read-modify-write of the directory sector in `fat32_flush`, with RX interrupts between
any two of its operations. Each byte of the sector is followed on its own: the SD read stores
it in its ring cell, the SD write loads it from there, and only an interrupt in between can
change it. -/

namespace Barelog

open Prog Relation

variable {env : Env} {s s' s1 : Machine} {d t i : ℕ}

def Loads (i : ℕ) : FwOp → Prop
  | .ringGet j => j = i
  | _ => False

def StillLoads (q : Fw Unit) (s : Machine) (i : ℕ) : Prop :=
  q.May (FlushReply s.ram.logfile.dirOffset s.ringTail) (Loads i)

/-- The bytes of `file_size` in the directory entry at `d`. -/
def InField (d i : ℕ) : Prop := d + 28 ≤ i ∧ i < d + 32

/-- An RX interrupt which, if it stores its byte, does so in the `file_size` field, in a cell
that the code left stores before it loads it, or in one that it does not load any more. -/
def RxSafe (q : Fw Unit) (s s' : Machine) : Prop :=
  RxStep s s' ∧ (s'.accepted ≠ s.accepted → InField s.ram.logfile.dirOffset s.ringHead ∨
    StillStores q s s.ringHead ∨ ¬ StillLoads q s s.ringHead)

/-- The operations of `fat32_flush` before the card takes the sector, but for stores to `i`. -/
def PreOp (i : ℕ) : FwOp → Prop
  | .ringSet j _ => j ≠ i
  | .setTail _ => False
  | .setRam _ => False
  | .writeDone _ => False
  | .zeroDone _ => False
  | .erase _ _ => False
  | _ => True

/-- What an interrupt and `PreOp` operations leave alone. -/
structure Same (s0 s : Machine) : Prop where
  card : s.card = s0.card
  ram : s.ram = s0.ram
  tail : s.ringTail = s0.ringTail

theorem Same.rx {s0 : Machine} (hs : Same s0 s) (hrx : RxStep s s') : Same s0 s' := by
  obtain ⟨htail, hram, hcard, _⟩ := hrx.rest
  exact ⟨hcard.trans hs.card, hram.trans hs.ram, htail.trans hs.tail⟩

theorem Same.act (env : Env) {s0 : Machine} {o : FwOp} (hs : Same s0 s) (ho : PreOp i o) :
    FlushReply s0.ram.logfile.dirOffset s0.ringTail o (fwStep env o s).1 ∧
      Same s0 (fwStep env o s).2 := by
  obtain ⟨hcard, hram, htail⟩ := hs
  cases o with
  | getRam =>
    refine ⟨?_, hcard, hram, htail⟩
    rw [← hram]
    rfl
  | getTail => exact ⟨htail, hcard, hram, htail⟩
  | setTail t => exact ho.elim
  | setRam r => exact ho.elim
  | writeDone lba => exact ho.elim
  | zeroDone lba => exact ho.elim
  | erase a b => exact ho.elim
  | _ => exact ⟨trivial, hcard, hram, htail⟩

theorem exec_same {β : Type} {R : Fw β → Machine → Machine → Prop} {p : Fw β} {r : Except Stop β}
    (hR : ∀ q s s', R q s s' → RxStep s s')
    (hrun : Exec (fwStep env) R p s r s')
    (hp : p.Only (FlushReply s.ram.logfile.dirOffset s.ringTail) (PreOp i)) : Same s s' :=
  hrun.invariant hp (fun _ _ ho hs => hs.act env ho) (fun q u u' hu hs => hs.rx (hR q u u' hu))
    ⟨rfl, rfl, rfl⟩

theorem same_star {R : Machine → Machine → Prop} (hR : ∀ s s', R s s' → RxStep s s')
    (hstar : ReflTransGen R s s') : Same s s' ∧ s'.block = s.block := by
  induction hstar with
  | refl => exact ⟨⟨rfl, rfl, rfl⟩, rfl⟩
  | tail _ h1 ih => exact ⟨ih.1.rx (hR _ _ h1), (hR _ _ h1).rest.2.2.2.2.1.trans ih.2⟩

theorem RxStep.ring (hrx : RxStep s s') :
    s'.ring = s.ring ∨ s'.accepted ≠ s.accepted ∧
      ∃ b, s'.ring = Function.update s.ring s.ringHead b := by
  obtain ⟨_, byte, rfl⟩ := hrx
  unfold rxIsr
  split
  · exact .inr ⟨by simp, byte, rfl⟩
  · exact .inl rfl

/-- While the byte in cell `i` is waiting to be sent, a safe interrupt does not change it. -/
theorem RxSafe.keep {q : Fw Unit} (hrx : RxSafe q s s')
    (hfield : ¬ InField s.ram.logfile.dirOffset i) (hstores : ¬ StillStores q s i)
    (hloads : StillLoads q s i) : s'.ring i = s.ring i := by
  rcases hrx.1.ring with h | ⟨hacc, b, h⟩
  · rw [h]
  · by_cases hi : i = s.ringHead
    · subst hi
      rcases hrx.2 hacc with h1 | h1 | h1
      · exact absurd h1 hfield
      · exact absurd h1 hstores
      · exact absurd hloads h1
    · rw [h, Function.update_of_ne hi]

/-- Code that does not store cell `i`, followed by code that loads it before it stores it. -/
theorem keep_cell {β : Type} {p : Fw β} {f : β → Fw Unit} {b : β}
    (hrun : Exec (fwStep env) (fun q => RxSafe (q >>= f)) p s (.ok b) s')
    (hfield : ¬ InField s.ram.logfile.dirOffset i)
    (hp : p.Only (FlushReply s.ram.logfile.dirOffset s.ringTail) (PreOp i))
    (hf : ∀ c, (f c).Only (FlushReply s.ram.logfile.dirOffset s.ringTail) fun o => ¬ Stores i o)
    (hload : (f b).May (FlushReply s.ram.logfile.dirOffset s.ringTail) (Loads i)) :
    s'.ring i = s.ring i := by
  have hgo : ∀ (q : Fw β) (u : Machine) (r : Except Stop β) (u' : Machine),
      Exec (fwStep env) (fun q => RxSafe (q >>= f)) q u r u' → r = .ok b → Same s u →
      q.Only (FlushReply s.ram.logfile.dirOffset s.ringTail) (PreOp i) → u'.ring i = u.ring i := by
    intro q u r u' hq hr hu honly
    induction hq with
    | ret a u => rfl
    | fail e u => rfl
    | @act o k u u' r hk ih =>
      obtain ⟨hreply, hu'⟩ := hu.act env honly.1
      rw [ih hr hu' (honly.2 _ hreply)]
      have ho := honly.1
      cases o with
      | ringSet j x => exact Function.update_of_ne (Ne.symm ho) _ _
      | writeDone lba => exact ho.elim
      | zeroDone lba => exact ho.elim
      | erase a b => exact ho.elim
      | _ => rfl
    | @env q u u1 u' r h1 h2 ih =>
      subst hr
      rw [ih rfl (hu.rx h1.1) honly]
      have hslot : u.ram.logfile.dirOffset = s.ram.logfile.dirOffset := by rw [hu.ram]
      refine h1.keep (hslot ▸ hfield) ?_ ?_
      · rw [StillStores, hslot, hu.tail]
        refine not_may_of_only (only_bind (honly.mono (fun _ _ hr => hr) fun o ho => ?_) hf)
          fun _ ho => ho
        cases o <;> first | exact ho | exact id
      · rw [StillLoads, hslot, hu.tail]
        refine Returns.may_bind (a := b) ?_ hload
        exact h2.returns honly (fun _ _ ho hs => hs.act env ho)
          (fun q u u' hu hs => hs.rx hu.1) (hu.rx h1.1)
  exact hgo p s _ s' hrun rfl ⟨rfl, rfl, rfl⟩ hp

/-! `fat32_flush` seen at byte `i` of the sector. -/

def loadByte (lba i : ℕ) : Fw Unit := do
  let b ← spiRecv lba i
  ringSet (0 + i) b

def sendByte (i : ℕ) : Fw Unit := do
  let b ← ringGet (0 + i)
  spiSend b

def beforeLoad (lba i : ℕ) : Fw Unit := do
  let ret ← readCmd lba
  check ret
  forUp 0 i (loadByte lba)

def betweenBytes (lba field size i : ℕ) : Fw Unit := do
  forUp (i + 1) (511 - i) (loadByte lba)
  ringSet32 field size
  let ret ← writeCmd lba
  check ret
  forUp 0 i sendByte

def afterSend (i : ℕ) : Fw Unit := forUp (i + 1) (511 - i) sendByte

def finishWrite (lba : ℕ) : Fw Unit := do
  let ret ← writeDone lba
  check ret

theorem forUp_at (hi : i < 512) (body : ℕ → Fw Unit) : forUp 0 512 body =
    (forUp 0 i body >>= fun _ => body i >>= fun _ => forUp (i + 1) (511 - i) body) := by
  have h := forUp_split 0 i (511 - i) body
  rw [show i + 1 + (511 - i) = 512 by omega, Nat.zero_add] at h
  exact h

theorem fat32Flush_at (hi : i < 512) : fat32Flush = (do
    let r ← getRam
    beforeLoad r.logfile.dirLba i
    loadByte r.logfile.dirLba i
    betweenBytes r.logfile.dirLba (r.logfile.dirOffset + deFileSize) r.logfile.bytesWritten i
    sendByte i
    afterSend i
    finishWrite r.logfile.dirLba) := by
  have hread : ∀ lba, spiReadBuf lba 0 512 = (forUp 0 i (loadByte lba) >>= fun _ =>
      loadByte lba i >>= fun _ => forUp (i + 1) (511 - i) (loadByte lba)) :=
    fun lba => forUp_at hi (loadByte lba)
  have hwrite : spiWriteBuf 0 512 = (forUp 0 i sendByte >>= fun _ =>
      sendByte i >>= fun _ => forUp (i + 1) (511 - i) sendByte) := forUp_at hi sendByte
  simp only [fat32Flush, sdReadSector, sdWriteSector, hread, hwrite, beforeLoad, betweenBytes,
    afterSend, finishWrite, bind_assoc]

/-! What each part may request. -/

section Parts

variable {G : (o : FwOp) → o.Reply → Prop}

theorem check_only {A : FwOp → Prop} (ret : ℤ) : (check ret).Only G A :=
  only_ite (fun _ => trivial) fun _ => trivial

theorem loadByte_pre {j : ℕ} (lba : ℕ) (hj : j ≠ i) : (loadByte lba j).Only G (PreOp i) :=
  only_bind (only_perform trivial) fun _ => only_perform (show 0 + j ≠ i by omega)

theorem sendByte_pre (j : ℕ) : (sendByte j).Only G (PreOp i) :=
  only_bind (only_perform trivial) fun _ => only_perform trivial

theorem beforeLoad_pre (lba : ℕ) : (beforeLoad lba i).Only G (PreOp i) := by
  refine only_bind (only_perform trivial) fun ret => only_bind (check_only ret) fun _ => ?_
  exact only_forUp fun j _ hj => loadByte_pre lba (by omega)

theorem betweenBytes_pre (lba size : ℕ) (hi : ¬ InField d i) :
    (betweenBytes lba (d + deFileSize) size i).Only G (PreOp i) := by
  have hfield : ∀ k n, k < 4 → (ringSet (d + deFileSize + k) n).Only G (PreOp i) := by
    intro k n hk
    refine only_perform (show d + deFileSize + k ≠ i from fun he => hi ?_)
    unfold InField
    unfold deFileSize at he
    omega
  refine only_bind (only_forUp fun j hj _ => loadByte_pre lba (by omega)) fun _ => ?_
  refine only_bind (only_bind ?_ fun _ => ?_) fun _ => ?_
  · exact only_bind (hfield 0 _ (by omega)) fun _ => hfield 1 _ (by omega)
  · exact only_bind (hfield 2 _ (by omega)) fun _ => hfield 3 _ (by omega)
  · refine only_bind (only_perform trivial) fun ret => only_bind (check_only ret) fun _ => ?_
    exact only_forUp fun j _ _ => sendByte_pre j

end Parts

/-! The data block, which interrupts do not touch. -/

theorem block_stable (P : List Byte → Prop) : Stable RxStep fun s => P s.block := by
  intro s s' hrx hs
  rwa [hrx.rest.2.2.2.2.1]

theorem triple_block {E : Stop → Prop} {P Q : List Byte → Prop} (o : FwOp)
    (ho : ∀ s, P s.block → Q (fwStep env o s).2.block) :
    Triple (fwStep env) RxStep (fun s => P s.block) (op o) (fun _ s => Q s.block) E :=
  triple_perform (block_stable P) (fun _ => block_stable Q) ho

theorem triple_sendByte {E : Stop → Prop} {P Q : List Byte → Prop} (j : ℕ)
    (hPQ : ∀ l b, P l → Q (l ++ [b])) :
    Triple (fwStep env) RxStep (fun s => P s.block) (sendByte j) (fun _ s => Q s.block) E :=
  triple_bind (M := fun _ s => P s.block) (triple_block _ fun _ hs => hs) fun b =>
    triple_block _ fun s hs => hPQ s.block b hs

/-- When byte `i` is about to be sent, `i` bytes have been. -/
theorem triple_betweenBytes (lba field size : ℕ) :
    Triple (fwStep env) RxStep (fun _ => True) (betweenBytes lba field size i)
      (fun _ s => s.block.length = i) fun _ => True := by
  have hkeep : ∀ o, Triple (fwStep env) RxStep (fun _ => True) (op o : Fw _) (fun _ _ => True)
      fun _ => True :=
    fun o => triple_perform (fun _ _ _ => id) (fun _ _ _ _ => id) fun _ _ => trivial
  refine triple_bind (M := fun _ _ => True) (triple_forUp (I := fun _ _ => True)
    (fun _ _ _ _ => id) fun j _ _ => triple_bind (hkeep _) fun _ => hkeep _) fun _ => ?_
  refine triple_bind (M := fun _ _ => True) (triple_bind
    (triple_bind (hkeep _) fun _ => hkeep _) fun _ => triple_bind (hkeep _) fun _ => hkeep _)
    fun _ => ?_
  refine triple_bind (M := fun _ s => s.block.length = 0) (triple_block (P := fun _ => True)
    (Q := fun l => l.length = 0) _ fun _ _ => rfl) fun ret => ?_
  refine triple_bind (M := fun _ s => s.block.length = 0) (triple_ite (fun _ => triple_pure
    (block_stable fun l => l.length = 0) fun _ hs => hs) fun _ => triple_fail trivial) fun _ => ?_
  have hloop : Triple (fwStep env) RxStep (fun s => s.block.length = 0) (forUp 0 i sendByte)
      (fun _ s => s.block.length = 0 + i) fun _ => True :=
    triple_forUp (I := fun k (s : Machine) => s.block.length = k)
      (fun k => block_stable fun l => l.length = k)
      (fun k _ _ => triple_sendByte (P := fun l => l.length = k) (Q := fun l => l.length = k + 1) k
        fun l b hl => by rw [List.length_append, hl, List.length_singleton])
  rwa [Nat.zero_add] at hloop

theorem triple_afterSend (x : Byte) :
    Triple (fwStep env) RxStep (fun s => s.block[i]? = some x) (afterSend i)
      (fun _ s => s.block[i]? = some x) fun _ => False := by
  refine triple_forUp (I := fun _ (s : Machine) => s.block[i]? = some x) (fun _ => block_stable fun l =>
    l[i]? = some x) fun j _ _ => triple_sendByte (P := fun l => l[i]? = some x)
    (Q := fun l => l[i]? = some x) j fun l b hl => ?_
  obtain ⟨hlt, _⟩ := List.getElem?_eq_some_iff.mp hl
  rw [List.getElem?_append_left hlt, hl]

/-- The card takes the data block, or keeps the sector it had. -/
theorem finishWrite_card {lba : ℕ} {x : Byte} {r : Except Stop Unit} (hi : i < 512)
    (hrun : Exec (fwStep env) RxSafe (finishWrite lba) s r s') (hx : s.block[i]? = some x) :
    s'.card = s.card ∨ ∃ d, s'.card = Function.update s.card lba d ∧ d.byte i = x := by
  obtain ⟨s1, hstar, hcheck⟩ := Exec.act_inv hrun
  obtain ⟨hsame, hblock⟩ := same_star (fun _ _ h => h.1) hstar
  have hend := exec_same (i := i) (fun _ _ _ h => h.1) hcheck (check_only _)
  have hbyte : (sectorOf s1.block).byte i = x := by
    rw [Sector.byte, dif_pos hi, sectorOf, hblock, List.getD_eq_getElem?_getD, hx]
    rfl
  rw [hend.card, ← hsame.card]
  simp only [fwStep, Machine.finish]
  split
  · exact .inr ⟨_, rfl, hbyte⟩
  · exact .inl rfl

def sendRest (lba i : ℕ) : Fw Unit := do
  sendByte i
  afterSend i
  finishWrite lba

/-- Byte `i` is loaded from its cell, which is not stored any more. -/
theorem sendRest_only (lba : ℕ) :
    (sendRest lba i).Only (FlushReply d t) fun o => ¬ Stores i o := by
  have hsend : ∀ j, (sendByte j).Only (FlushReply d t) fun o => ¬ Stores i o := fun j =>
    only_bind (only_perform id) fun _ => only_perform id
  refine only_bind (hsend i) fun _ => only_bind (only_forUp fun j _ _ => hsend j) fun _ => ?_
  exact only_bind (only_perform id) fun ret => check_only ret

theorem sendRest_loads (lba : ℕ) : (sendRest lba i).May (FlushReply d t) (Loads i) :=
  .inl (Nat.zero_add i)

theorem sendRest_ring {lba : ℕ} (hstar : ReflTransGen (RxSafe (sendRest lba i)) s s')
    (hfield : ¬ InField s.ram.logfile.dirOffset i) : s'.ring i = s.ring i := by
  induction hstar with
  | refl => rfl
  | @tail u u' hu h1 ih =>
    have hsame := (same_star (fun _ _ h => h.1) hu).1
    rw [h1.keep (hsame.ram ▸ hfield) (not_may_of_only (sendRest_only lba) fun _ ho => ho)
      (sendRest_loads lba), ih]

/-- What the card takes when byte `i` is in its cell. -/
theorem sendRest_card {lba : ℕ} {r : Except Stop Unit} (hi : i < 512)
    (hrun : Exec (fwStep env) RxSafe (sendRest lba i) s r s')
    (hfield : ¬ InField s.ram.logfile.dirOffset i) (hlen : s.block.length = i) :
    s'.card = s.card ∨ ∃ d, s'.card = Function.update s.card lba d ∧ d.byte i = s.ring i := by
  obtain ⟨s1, hstar1, hrun1⟩ := Exec.act_inv hrun
  obtain ⟨hsame1, hblock1⟩ := same_star (fun _ _ h => h.1) hstar1
  obtain ⟨s2, hstar2, hrun2⟩ := Exec.act_inv hrun1
  obtain ⟨hsame2, hblock2⟩ := same_star (fun _ _ h => h.1) hstar2
  have hsent : (s2.block ++ [s1.ring (0 + i)])[i]? = some (s.ring i) := by
    have hblock : s2.block = s.block := hblock2.trans hblock1
    rw [hblock, Nat.zero_add, sendRest_ring hstar1 hfield,
      List.getElem?_append_right (by omega), hlen, Nat.sub_self]
    rfl
  have hcard : s2.card = s.card := hsame2.card.trans hsame1.card
  rw [← hcard]
  have hrest : Exec (fwStep env) RxSafe (afterSend i >>= fun _ => finishWrite lba)
    { s2 with block := s2.block ++ [s1.ring (0 + i)] } r s' := hrun2
  rcases hrest.elim_inv with ⟨_, s3, hsend, hfin⟩ | ⟨e, s3, hsend, _⟩
  · have hblock3 := triple_afterSend _ _ _ _ hsent (hsend.mono fun _ _ _ h => h.1)
    have hsame3 := exec_same (i := i) (fun _ _ _ h => h.1) hsend
      (only_forUp fun j _ _ => sendByte_pre j)
    have htaken := finishWrite_card hi hfin hblock3
    rwa [hsame3.card] at htaken
  · exact (triple_afterSend _ _ _ _ hsent (hsend.mono fun _ _ _ h => h.1)).elim

theorem fail_card {e : Stop} {r : Except Stop Unit}
    (hrun : Exec (fwStep env) RxSafe (.fail e) s r s') : s'.card = s.card :=
  (same_star (fun _ _ h => h.1) hrun.fail_inv.2).1.card

/-- The code between the load of byte `i` and its transfer. -/
theorem between_card {lba size : ℕ} {r : Except Stop Unit} (hi : i < 512)
    (hrun : Exec (fwStep env) RxSafe
      (betweenBytes lba (d + deFileSize) size i >>= fun _ => sendRest lba i) s r s')
    (hslot : s.ram.logfile.dirOffset = d) (hfield : ¬ InField d i) :
    s'.card = s.card ∨ ∃ d, s'.card = Function.update s.card lba d ∧ d.byte i = s.ring i := by
  subst hslot
  rcases Exec.elim_inv hrun with ⟨_, s1, hbetween, hrest⟩ | ⟨e, s1, hbetween, hrest⟩
  · have hsame := exec_same (fun _ _ _ h => h.1) hbetween (betweenBytes_pre _ _ hfield)
    have hring := keep_cell hbetween hfield (betweenBytes_pre _ _ hfield)
      (fun _ => sendRest_only lba) (sendRest_loads lba)
    have hlen := triple_betweenBytes _ _ _ _ _ _ trivial (hbetween.mono fun _ _ _ h => h.1)
    have htaken := sendRest_card hi hrest (hsame.ram ▸ hfield) hlen
    rwa [hsame.card, hring] at htaken
  · have hsame := exec_same (fun _ _ _ h => h.1) hbetween (betweenBytes_pre _ _ hfield)
    exact .inl ((fail_card hrest).trans hsame.card)

/-- The flush, seen at a byte outside the `file_size` field. -/
theorem flush_card {r : Except Stop Unit} (hi : i < 512)
    (hrun : Exec (fwStep env) RxSafe fat32Flush s r s')
    (hfield : ¬ InField s.ram.logfile.dirOffset i) : s'.card = s.card ∨
      ∃ d, s'.card = Function.update s.card s.ram.logfile.dirLba d ∧
        d.byte i = (s.card s.ram.logfile.dirLba).byte i := by
  rw [fat32Flush_at hi] at hrun
  obtain ⟨s1, hstar1, hrun1⟩ := Exec.act_inv hrun
  have hsame1 := (same_star (fun _ _ h => h.1) hstar1).1
  rw [← hsame1.ram, ← hsame1.card] at *
  set lba := s1.ram.logfile.dirLba
  have hrun1' : Exec (fwStep env) RxSafe (beforeLoad lba i >>= fun _ => loadByte lba i >>= fun _ =>
    betweenBytes lba (s1.ram.logfile.dirOffset + deFileSize) s1.ram.logfile.bytesWritten i >>=
      fun _ => sendRest lba i) s1 r s' := hrun1
  rcases hrun1'.elim_inv with ⟨_, s2, hbefore, hrun2⟩ | ⟨e, s2, hbefore, hrun2⟩
  · have hsame2 := exec_same (fun _ _ _ h => h.1) hbefore (beforeLoad_pre _)
    obtain ⟨s3, hstar3, hrun3⟩ := Exec.act_inv hrun2
    have hsame3 := (same_star (fun _ _ h => h.1) hstar3).1
    obtain ⟨s4, hstar4, hrun4⟩ := Exec.act_inv hrun3
    have hsame4 := (same_star (fun _ _ h => h.1) hstar4).1
    have hram4 : s4.ram = s1.ram := hsame4.ram.trans (hsame3.ram.trans hsame2.ram)
    have hcard4 : s4.card = s1.card := hsame4.card.trans (hsame3.card.trans hsame2.card)
    have htaken := between_card hi hrun4 (congrArg (fun r => r.logfile.dirOffset) hram4) hfield
    change s'.card = s4.card ∨ ∃ d, s'.card = Function.update s4.card lba d ∧
      d.byte i = Function.update s4.ring (0 + i) ((s3.card lba).byte i) i at htaken
    rwa [Nat.zero_add, Function.update_self, hcard4, hsame3.card, hsame2.card] at htaken
  · have hsame2 := exec_same (fun _ _ _ h => h.1) hbefore (beforeLoad_pre _)
    exact .inl ((fail_card hrun2).trans hsame2.card)

/-- While RX interrupts store only in the `file_size` field or in cells that are not between
their load from the card and their transfer, a flush changes no other byte of the card. -/
theorem fat32_flush_frame (env : Env) (s s' : Machine) (r : Except Stop Unit)
    (hrun : Exec (fwStep env) RxSafe fat32Flush s r s') :
    (∀ lba, lba ≠ s.ram.logfile.dirLba → s'.card lba = s.card lba) ∧
      ∀ i, i < 512 → ¬ InField s.ram.logfile.dirOffset i →
        (s'.card s.ram.logfile.dirLba).byte i = (s.card s.ram.logfile.dirLba).byte i := by
  refine ⟨fun lba hlba => ?_, fun i hi hfield => ?_⟩
  · -- byte 0 is in no `file_size` field
    have hzero : ¬ InField s.ram.logfile.dirOffset 0 := by
      unfold InField
      omega
    rcases flush_card (by omega) hrun hzero with hcard | ⟨d, hcard, _⟩
    · rw [hcard]
    · rw [hcard, Function.update_of_ne hlba]
  · rcases flush_card hi hrun hfield with hcard | ⟨d, hcard, hd⟩
    · rw [hcard]
    · rw [hcard, Function.update_self, hd]

def flushWrite (l : Logfile) : Fw Unit := do
  ringSet32 (l.dirOffset + deFileSize) l.bytesWritten
  sdWriteSector l.dirLba 0

/-- A flush with one interrupt, between the read of the sector and the update of the field. -/
theorem exec_between {R : Fw Unit → Machine → Machine → Prop}
    (hread : (sdReadSector s.ram.logfile.dirLba 0).run (fwStep env) s = (.ok (), s1))
    (hrx : R (flushWrite s.ram.logfile) s1 s')
    (hret : (flushWrite s.ram.logfile).returns env s' = true) :
    Exec (fwStep env) R fat32Flush s (.ok ()) ((flushWrite s.ram.logfile).run (fwStep env) s').2 := by
  obtain ⟨_, hrun⟩ := Fw.returns_run hret
  have hexec : Exec (fwStep env) R (sdReadSector s.ram.logfile.dirLba 0 >>= fun _ =>
      flushWrite s.ram.logfile) s (.ok ()) ((flushWrite s.ram.logfile).run (fwStep env) s').2 :=
    .bind (exec_of_run hread) (.env hrx (exec_of_run hrun))
  exact .act hexec

/-- The idle machine with the directory sector in the buffer. -/
def dirRead (head : ℕ) : Machine :=
  { (idleMachine head).asked with
    ring := load (idleMachine head).ring 0 ((idleMachine head).card 11) 512 }

theorem dirRead_run (head : ℕ) : (sdReadSector (idleMachine head).ram.logfile.dirLba 0).run
    (fwStep Env.ideal) (idleMachine head) = (.ok (), dirRead head) := by
  rw [sdReadSector_run, if_pos (show Env.ideal.answer (idleMachine head).reqs = .good from rfl)]
  rfl

/-- A byte that arrives with the head in the field, which the flush then updates. -/
theorem fat32_flush_frame_field : ∃ s', Exec (fwStep Env.ideal) RxSafe fat32Flush (idleMachine 28)
    (.ok ()) s' ∧ (s'.card 11).byte 0 = ((idleMachine 28).card 11).byte 0 := by
  have hrx : RxSafe (flushWrite (idleMachine 28).ram.logfile) (dirRead 28)
      (rxIsr 0x42 (dirRead 28)) :=
    ⟨⟨rfl, _, rfl⟩, fun _ => .inl (by unfold InField; decide)⟩
  have hexec := exec_between (dirRead_run 28) hrx (by decide +kernel)
  have hframe : ∀ s', Exec (fwStep Env.ideal) RxSafe fat32Flush (idleMachine 28) (.ok ()) s' →
      (s'.card 11).byte 0 = ((idleMachine 28).card 11).byte 0 := fun s' h =>
    (fat32_flush_frame Env.ideal (idleMachine 28) s' _ h).2 0 (by decide) (by unfold InField; decide)
  exact ⟨_, hexec, hframe _ hexec⟩

/-- The same with the head at 0: the byte goes into the first name of the sector. -/
theorem fat32_flush_stores_byte : ∃ s', Exec (fwStep Env.ideal) (fun _ => RxStep) fat32Flush
    (idleMachine 0) (.ok ()) s' ∧ ((idleMachine 0).card 11).byte 0 = 0x00 ∧
      (s'.card 11).byte 0 = 0x42 ∧ ¬ InField (idleMachine 0).ram.logfile.dirOffset 0 := by
  have hrx : RxStep (dirRead 0) (rxIsr 0x42 (dirRead 0)) := ⟨rfl, _, rfl⟩
  have hexec := exec_between (R := fun _ => RxStep) (dirRead_run 0) hrx (by decide +kernel)
  refine ⟨_, hexec, rfl, by decide +kernel, ?_⟩
  unfold InField
  decide

end Barelog
