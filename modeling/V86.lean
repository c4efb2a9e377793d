import V86.Ir.Passes.Gvn
import V86.Ir.Safety
import V86.Ir.Passes.ScalarCorrect
import V86.Ir.Passes.SimdCorrect
import V86.Ir.Passes.TrivialPhisCorrect
import V86.Cpu.Handshake
import V86.Cpu.SpecialMask
import V86.State.RoundTrip
import V86.State.SingleCorrect
import V86.X64.AccessCacheCorrect
import V86.Cpu.TlbCorrect
import V86.Fs.LocksCorrect
import V86.Fs.WritesCorrect
import V86.Disk.Reads
import V86.Fs.TreeCorrect
import V86.Transfers.LongRings
import V86.Ir.Frontend.StraightLine
import V86.Pci.IntxCorrect
import V86.Net.Send
import V86.Dma.ProgrammedCorrect
import V86.Hpet.Levels
import V86.Hpet.Matches
import V86.Net.Ne2kRing
import V86.Mmio.Layers
import V86.Disk.Export
import V86.Fs.ReaddirCorrect
import V86.Jit.Watches
import V86.Gpu.Served
import V86.Ps2.Packets
import V86.Disk.SegmentsCorrect
import V86.Rtc.Deadlines
import V86.Floppy.TransfersCorrect
import V86.Uart.Coherent
import V86.Virtio.BlobsCorrect
import V86.Pit.Order
import V86.X64.WalkCorrect
import V86.Bus.WideCorrect
import V86.Bus.PhysicalCorrect
import V86.Cdrom.Iso9660Correct
import V86.Ir.Mir.StackCorrect
import V86.Ir.Mir.BudgetCorrect
import V86.Ir.Mir.LoopCacheCorrect
import V86.Cpu.BmiCorrect
import V86.Ir.Runtime.HotIndex
