import Barelog.Proofs.Drain
import Barelog.Proofs.Trim
import Barelog.Proofs.Flush
import Barelog.Proofs.DirSector
import Barelog.Proofs.AppendRun
import Barelog.Proofs.CreateCrash
import Barelog.Proofs.Rotation
import Barelog.Proofs.FlushFlag
import Barelog.Proofs.PadSector
import Barelog.Proofs.Scan
import Barelog.Proofs.Escape
import Barelog.Proofs.SdArray
import Barelog.Proofs.SpiClock
import Barelog.Proofs.CardSwap
import Barelog.Proofs.Reopen
import Barelog.Proofs.IdleFlush
import Barelog.Proofs.FlashLife
import Barelog.Proofs.LogName
import Barelog.Proofs.RootEntries
import Barelog.Proofs.Retry
import Barelog.Proofs.FailedOpen
import Barelog.Proofs.EepromLayout
import Barelog.Proofs.FatWrite
import Barelog.Proofs.BusDiscipline
import Barelog.Proofs.WritePaths
import Barelog.Proofs.InitSound
import Barelog.Proofs.InitAtomic
import Barelog.Proofs.TornRead
import Barelog.Proofs.MountGeometry
import Barelog.Proofs.ChainWalk
import Barelog.Proofs.LongLog
import Barelog.Proofs.TornRecord
import Barelog.Proofs.ScanCalls
import Barelog.Proofs.NoAlias
import Barelog.Proofs.CommandLine
import Barelog.Proofs.HandlerBoard
import Barelog.Proofs.StreamLog
import Barelog.Proofs.LogNumbers
