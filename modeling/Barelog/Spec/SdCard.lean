import Barelog.Spec.SdWire

/-! An SD card in SPI mode, as the comments of `sd.c` describe it: R1 after at most 7 bytes of
0xFF, the data token after at most 199, the data response right after the CRC, and busy for
less than 50000 bytes. How long it takes over each command is a parameter. -/

namespace Barelog.Wire

/-- What the card does as it likes in the course of a command. -/
structure Timing where
  /-- bytes of 0xFF before R1 -/
  r1 : ℕ
  /-- bytes of 0xFF before the data token -/
  token : ℕ
  /-- bytes of 0x00 after a write -/
  busy : ℕ
  /-- the data response, of which only the low five bits count -/
  resp : Byte
  crc1 : Byte
  crc2 : Byte

structure Timing.Within (d : Timing) : Prop where
  r1 : d.r1 < 8
  token : d.token < 200
  busy : d.busy < 50000
  resp : d.resp &&& 0x1F = 0x05

inductive Phase
  /-- receiving a command frame -/
  | command (frame : List Byte)
  | reply (wait : ℕ) (cmd : Byte) (arg : ℕ)
  | token (wait lba : ℕ)
  | send (lba i : ℕ)
  | sendCrc (last : Bool)
  | awaitToken (lba : ℕ)
  | receive (lba : ℕ) (block : List Byte)
  | receiveCrc (last : Bool) (lba : ℕ) (block : List Byte)
  | respond (lba : ℕ) (block : List Byte)
  | busy (wait : ℕ)

structure SdCard where
  sectors : ℕ → Sector
  phase : Phase
  /-- commands received so far -/
  count : ℕ

def SdCard.goto (c : SdCard) (p : Phase) : SdCard := { c with phase := p }

def frameArg (frame : List Byte) : ℕ :=
  (frame.getD 1 0).toNat * 2 ^ 24 + (frame.getD 2 0).toNat * 2 ^ 16 +
    (frame.getD 3 0).toNat * 2 ^ 8 + (frame.getD 4 0).toNat

/-- A byte of a command frame. The first one has the start bits 01. -/
def SdCard.frameByte (timing : ℕ → Timing) (c : SdCard) (frame : List Byte) (b : Byte) : SdCard :=
  if frame = [] ∧ b &&& 0xC0 ≠ 0x40 then c
  else if frame.length < 5 then c.goto (.command (frame ++ [b]))
  else { c with
    phase := .reply (timing (c.count + 1)).r1 (frame.getD 0 0 &&& 0x3F) (frameArg frame)
    count := c.count + 1 }

def received (lba : ℕ) (block : List Byte) : Phase :=
  if block.length < 512 then .receive lba block else .receiveCrc false lba block

/-- R1, and what follows it. An SDSC card takes byte addresses of whole sectors only. -/
def SdCard.answer (sdhc : Bool) (timing : ℕ → Timing) (c : SdCard) (cmd : Byte) (arg : ℕ) :
    Byte × SdCard :=
  if sdhc = false ∧ arg % 512 ≠ 0 then (0x20, c.goto (.command []))
  else
    let lba := if sdhc = true then arg else arg / 512
    if cmd = 17 then (0x00, c.goto (.token (timing c.count).token lba))
    else if cmd = 24 then (0x00, c.goto (.awaitToken lba))
    else (0x04, c.goto (.command []))

def cardDevice (sdhc : Bool) (timing : ℕ → Timing) : Device SdCard := fun csHigh b c =>
  if csHigh = true then (0xFF, c.goto (.command []))
  else
    match c.phase with
    | .command frame => (0xFF, c.frameByte timing frame b)
    | .reply 0 cmd arg => c.answer sdhc timing cmd arg
    | .reply (n + 1) cmd arg => (0xFF, c.goto (.reply n cmd arg))
    | .token 0 lba => (0xFE, c.goto (.send lba 0))
    | .token (n + 1) lba => (0xFF, c.goto (.token n lba))
    | .send lba i =>
      ((c.sectors lba).byte i, c.goto (if i + 1 < 512 then .send lba (i + 1) else .sendCrc false))
    | .sendCrc false => ((timing c.count).crc1, c.goto (.sendCrc true))
    | .sendCrc true => ((timing c.count).crc2, c.goto (.command []))
    | .awaitToken lba => (0xFF, c.goto (if b = 0xFE then .receive lba [] else .awaitToken lba))
    | .receive lba block => (0xFF, c.goto (received lba (block ++ [b])))
    | .receiveCrc false lba block => (0xFF, c.goto (.receiveCrc true lba block))
    | .receiveCrc true lba block => (0xFF, c.goto (.respond lba block))
    | .respond lba block => ((timing c.count).resp, { c with
        sectors := Function.update c.sectors lba (sectorOf block)
        phase := .busy (timing c.count).busy })
    | .busy 0 => (0xFF, c.goto (.command []))
    | .busy (n + 1) => (0x00, c.goto (.busy n))

end Barelog.Wire
