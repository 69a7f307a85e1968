import Barelog.Spec.Repl

/-! The command loop of `repl.c` with the UART: the line reader, the comparison with the names of
the commands, and the handlers with what they print. The line buffer is the upper half of the
ring. -/

namespace Barelog

open Wire (Bus Device)

/-- `LINE_BUF - ring` -/
def lineBuf : ℕ := 512

def lineBufMax : ℕ := 511

/-- The operations of the command loop: those of the functions it calls, the UART, the line buffer
by index in the ring, and a mark for the call of a command's handler. -/
inductive ConOp
  | sys (o : SysOp)
  | getc
  | putc (c : Byte)
  | lineGet (i : ℕ)
  | lineSet (i : ℕ) (c : Byte)
  | call (c : Command)

abbrev ConOp.Reply : ConOp → Type
  | sys o => o.Reply
  | getc => Option Byte
  | lineGet _ => Byte
  | _ => Unit

abbrev conSig : Sig := ⟨ConOp, ConOp.Reply⟩

abbrev Con (α : Type) := Prog conSig Stop α

inductive ConEvent
  | out (c : Byte)
  | called (c : Command)
deriving DecidableEq

structure Console (κ : Type) where
  board : Board κ
  /-- the bytes still to be typed -/
  input : List Byte
  /-- the bytes printed and the handlers called, oldest first -/
  events : List ConEvent

def Board.withRing {κ : Type} (s : Board κ) (ring : ℕ → Byte) : Board κ :=
  s.withMachine { s.machine with ring := ring }

def conStep {κ : Type} (env : Env) (dev : Device κ) : Handler conSig (Console κ)
  | .sys o, s => ((sysStep env dev o s.board).1, { s with board := (sysStep env dev o s.board).2 })
  | .getc, s => (s.input.head?, { s with input := s.input.tail })
  | .putc c, s => ((), { s with events := s.events ++ [.out c] })
  | .lineGet i, s => (s.board.machine.ring i, s)
  | .lineSet i c, s =>
    ((), { s with board := s.board.withRing (Function.update s.board.machine.ring i c) })
  | .call c, s => ((), { s with events := s.events ++ [.called c] })

def uartGetc : Con (Option Byte) := Prog.perform (S := conSig) .getc
def lineGet (i : ℕ) : Con Byte := Prog.perform (S := conSig) (.lineGet i)
def lineSet (i : ℕ) (c : Byte) : Con Unit := Prog.perform (S := conSig) (.lineSet i c)
def callMark (c : Command) : Con Unit := Prog.perform (S := conSig) (.call c)

def onConsole {α : Type} : Sys α → Con α
  | .ret a => .ret a
  | .fail e => .fail e
  | .act o k => .act (.sys o) fun r => onConsole (k r)

/-- The wait has no end when nothing more is typed. -/
def replGetc : Con Byte := do
  let c ← uartGetc
  match c with
  | some c => pure c
  | none => .fail .hang

def replPutc (c : Byte) : Con Unit := Prog.perform (S := conSig) (.putc c)

def text (s : String) : List Byte := s.toList.map fun c => .ofNat c.toNat

def replPuts : List Byte → Con Unit
  | [] => pure ()
  | c :: s => do
    replPutc c
    replPuts s

def replCrlf : Con Unit := do
  replPutc 0x0D
  replPutc 0x0A

/-- The first loop of `repl_putu32`: the digits of `v` go into a buffer of 10 bytes, the last one
first. -/
def collectDigits (v i : ℕ) (buf : ℕ → Option Byte) : Con (ℕ × (ℕ → Option Byte)) :=
  if v > 0 then
    if i < 10 then
      collectDigits (v / 10) ((i + 1) % 2 ^ 8) (Function.update buf i (some (.ofNat (v % 10) + 0x30)))
    else .fail .undef
  else pure (i, buf)
termination_by v
decreasing_by exact Nat.div_lt_self ‹_› (by decide)

/-- The second loop, from the last byte stored to the first. -/
def emitDigits : ℕ → (ℕ → Option Byte) → Con Unit
  | 0, _ => pure ()
  | i + 1, buf =>
    match buf i with
    | some c => do
      replPutc c
      emitDigits i buf
    | none => .fail .undef

def replPutu32 (v : ℕ) : Con Unit :=
  if v = 0 then replPutc 0x30
  else do
    let (i, buf) ← collectDigits v 0 fun _ => none
    emitDigits i buf

def replReadLine : ℕ → ℕ → Con Unit
  | 0, _ => .fail .hang
  | fuel + 1, len => do
    let c ← replGetc
    if c = 0x0D ∨ c = 0x0A then
      lineSet (lineBuf + len) 0
      replCrlf
    else if c = 0x7F ∨ c = 0x08 then
      if len > 0 then
        replPutc 0x08
        replPutc 0x20
        replPutc 0x08
        replReadLine fuel (len - 1)
      else replReadLine fuel len
    else if len < lineBufMax then
      lineSet (lineBuf + len) c
      replPutc c
      replReadLine fuel (len + 1)
    else replReadLine fuel len

/-- `line_eq`, with `a` the index that the pointer into the line has come to. -/
def lineEq : List Byte → ℕ → Con Bool
  | [], a => do
    let c ← lineGet a
    pure (c = 0)
  | b :: bs, a => do
    let c ← lineGet a
    if c ≠ b then pure false else lineEq bs (a + 1)

/-! The handlers. -/

namespace Console

def cmdHelp : Con Unit :=
  replPuts (text "?\r\ndisk\r\ninit\r\nsync\r\nreset\r\ntrim free\r\ntrim full\r\ntrim fuller\r\n")

def putField (name : String) (v : ℕ) : Con Unit := do
  replPuts (text name)
  replPutu32 v
  replCrlf

def cmdDisk : Con Unit := do
  let r ← onConsole (onMachine getRam)
  putField "part_lba=" r.vol.partLba
  putField "fat_lba=" r.vol.fatLba
  putField "fat_sz32=" r.vol.fatSz32
  putField "num_fats=" r.vol.numFats
  putField "data_lba=" r.vol.dataLba
  putField "sec/clus=" r.vol.secPerClus
  putField "tot_sec=" r.vol.totSec
  putField "size_mb=" (r.vol.totSec / 2048)

def cmdInit : Con Unit := do
  let ok ← onConsole cmdInitReport
  if ok then replPuts (text "ok\r\n") else replPuts (text "!\r\n")

def cmdSync (fuel : ℕ) : Con Unit := do
  onConsole (onMachine (logFlush fuel))
  replPuts (text "ok\r\n")

/-- The watchdog ends the wait. -/
def cmdReset : Con Unit := do
  replPuts (text "reset\r\n")
  .fail .hang

def cmdTrimFree : Con Unit := do
  replPuts (text "trimming free...\r\n")
  let ret ← onConsole (onMachine fat32TrimFree.returnCode)
  if ret = 0 then replPuts (text "ok\r\n") else replPuts (text "!\r\n")

def cmdTrimFull : Con Unit := do
  replPuts (text "trimming data...\r\n")
  onConsole (onMachine fat32TrimFull)
  replPuts (text "ok\r\n")

def cmdTrimFuller : Con Unit := do
  replPuts (text "trimming card...\r\n")
  onConsole (onMachine fat32TrimFuller)
  replPuts (text "ok\r\n")

end Console

/-- The handler of a command; the last case is the error mark. -/
def Command.handler (fuel : ℕ) : Command → Con Unit
  | help => Console.cmdHelp
  | disk => Console.cmdDisk
  | init => Console.cmdInit
  | sync => Console.cmdSync fuel
  | reset => Console.cmdReset
  | trimFree => Console.cmdTrimFree
  | trimFuller => Console.cmdTrimFuller
  | trimFull => Console.cmdTrimFull
  | unknown => replPuts (text "!\r\n")

def commandNames : List (List Byte × Command) :=
  [(text "?", .help), (text "disk", .disk), (text "init", .init), (text "sync", .sync),
    (text "reset", .reset), (text "trim free", .trimFree), (text "trim fuller", .trimFuller),
    (text "trim full", .trimFull)]

/-- `if (line_eq(name)) handler(); else ...` for each name of the list. -/
def dispatchOn (fuel : ℕ) : List (List Byte × Command) → Con Unit
  | [] => Command.unknown.handler fuel
  | (name, c) :: rest => do
    let eq ← lineEq name lineBuf
    if eq then do
      callMark c
      c.handler fuel
    else dispatchOn fuel rest

def replDispatch (fuel : ℕ) : Con Unit := dispatchOn fuel commandNames

def replTurn (fuel : ℕ) : Con Unit := do
  replReadLine fuel 0
  let c ← lineGet lineBuf
  if c = 0 then replPutc 0x3E
  else do
    replDispatch fuel
    replPutc 0x3E

def replLoop (fuel : ℕ) : ℕ → Con Unit
  | 0 => pure ()
  | n + 1 => do
    replTurn fuel
    replLoop fuel n

end Barelog
