import FenwickOS.Boot.Rings
import FenwickOS.Boot.Start
import FenwickOS.Drv.Binding
import FenwickOS.Drv.CursorCalls
import FenwickOS.Drv.Decoders
import FenwickOS.Drv.DeviceIds
import FenwickOS.Drv.Extended
import FenwickOS.Drv.FirstMatch
import FenwickOS.Drv.KbdInterleaving
import FenwickOS.Drv.KbdIoctl
import FenwickOS.Drv.KbdKeys
import FenwickOS.Drv.Probing
import FenwickOS.Drv.Register
import FenwickOS.Drv.Renderers
import FenwickOS.Drv.SerialLine
import FenwickOS.Drv.SharedScreen
import FenwickOS.Drv.Typing
import FenwickOS.Idt.Controllers
import FenwickOS.Idt.Exceptions
import FenwickOS.Idt.Handshakes
import FenwickOS.Idt.Install
import FenwickOS.Idt.Panic
import FenwickOS.Idt.Routing
import FenwickOS.Idt.Timer
import FenwickOS.Kbd.Extended
import FenwickOS.Lib.Displaced
import FenwickOS.Lib.Held
import FenwickOS.Lib.Layout
import FenwickOS.Libk.Comparisons
import FenwickOS.Libk.Copies
import FenwickOS.Libk.Formats
import FenwickOS.Libk.HeapSafety
import FenwickOS.Libk.Realloc
import FenwickOS.Libk.RoundTrips
import FenwickOS.Libk.SerialPutc
import FenwickOS.Libk.Strings
import FenwickOS.Libk.Variadic
import FenwickOS.Libk.Wrapping
import FenwickOS.Mm.BestFit
import FenwickOS.Mm.BlockList
import FenwickOS.Mm.FreeBytes
import FenwickOS.Mm.FreePage
import FenwickOS.Mm.HugePages
import FenwickOS.Mm.KernelHeap
import FenwickOS.Mm.Owners
import FenwickOS.Mm.PagingRefinement
import FenwickOS.Mm.PoolSafety
import FenwickOS.Mm.Reports
import FenwickOS.Mm.Sharing
import FenwickOS.Mm.AccessedBits
import FenwickOS.Rtc.Encoding
import FenwickOS.Rtc.Rtc
import FenwickOS.Syscall.Counts
import FenwickOS.Syscall.Entry
import FenwickOS.Syscall.Input
import FenwickOS.Syscall.Mirror
import FenwickOS.Syscall.Session
import FenwickOS.Vfs.ExactNames
