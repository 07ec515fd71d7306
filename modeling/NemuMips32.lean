import NemuMips32.Lib.StateExcept
import NemuMips32.Lib.Words
import NemuMips32.Lib.Chain
import NemuMips32.Lib.Fifo
import NemuMips32.Lib.ReadModifyWrite
import NemuMips32.Lib.HexText
import NemuMips32.Lib.RemoteSerial
import NemuMips32.Reg
import NemuMips32.Decode
import NemuMips32.Machine
import NemuMips32.Mmu
import NemuMips32.Exec.Body
import NemuMips32.Exec.Arith
import NemuMips32.Exec.Float
import NemuMips32.Exec.Branch
import NemuMips32.Exec.Memory
import NemuMips32.Exec.System
import NemuMips32.CpuExec
import NemuMips32.Board
import NemuMips32.Translate
import NemuMips32.Access
import NemuMips32.Page
import NemuMips32.Tlb
import NemuMips32.Exec.Effect
import NemuMips32.Iteration
import NemuMips32.Run
import NemuMips32.Frame
import NemuMips32.Cp0
import NemuMips32.Timer
import NemuMips32.LargePage
import NemuMips32.Asid
import NemuMips32.Precise
import NemuMips32.MmuTransparency
import NemuMips32.MmuCache
import NemuMips32.Exec.Simulation
import NemuMips32.DelaySlot
import NemuMips32.Branching
import NemuMips32.OneException
import NemuMips32.Interrupt
import NemuMips32.DecodeChain
import NemuMips32.Operands
import NemuMips32.Integer
import NemuMips32.Alignment
import NemuMips32.Devices
import NemuMips32.Gdb
import NemuMips32.DecodeLabel
import NemuMips32.Flow
import NemuMips32.DecodeEntry
import NemuMips32.DecodeReplay
import NemuMips32.DecodeSafe
import NemuMips32.Bench
import NemuMips32.Flash
import NemuMips32.FlashStorage
import NemuMips32.Spi
import NemuMips32.FlashChip
import NemuMips32.Elite
import NemuMips32.Ulite
import NemuMips32.HostPage
import NemuMips32.Unaligned
import NemuMips32.Continue
import NemuMips32.GdbMemory
import NemuMips32.DebugRead
import NemuMips32.Lib.Ieee
import NemuMips32.TlbRoundTrip
import NemuMips32.HiLo
import NemuMips32.FpuControl
import NemuMips32.FpuCompare
import NemuMips32.CondMove
import NemuMips32.Softfloat
import NemuMips32.Trunc
import NemuMips32.Difftest
import NemuMips32.GdbRegs
import NemuMips32.Boot
import NemuMips32.ElfLoad
import NemuMips32.Hash
import NemuMips32.InstrPerf
import NemuMips32.Elfsym
import NemuMips32.ElfPerf
import NemuMips32.FifoMacros
import NemuMips32.Backtrace
import NemuMips32.UliteStop
import NemuMips32.Vga
import NemuMips32.File
import NemuMips32.MemoryMap
import NemuMips32.LlSc
import NemuMips32.GdbProto
import NemuMips32.GdbExchange
import NemuMips32.Lib.Rounding
import NemuMips32.SoftfloatArith
import NemuMips32.Lib.Sticky
import NemuMips32.SoftfloatPack
import NemuMips32.Lib.Arithmetic
import NemuMips32.SoftfloatSum
import NemuMips32.SoftfloatProduct
import NemuMips32.SoftfloatWords
import NemuMips32.SoftfloatNan
import NemuMips32.Arith
import NemuMips32.Lib.Root
import NemuMips32.SoftfloatEstimate
import NemuMips32.SoftfloatSqrt
import NemuMips32.SquareRoot
