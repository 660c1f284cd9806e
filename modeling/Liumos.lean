import Liumos.Virtio.Transmit
import Liumos.Inet.RoundTrip
import Liumos.Syscall.Files
import Liumos.Syscall.Window
import Liumos.Machine.RingQueue
import Liumos.Liumlib.Memmove
import Liumos.Usb.TrbRing
import Liumos.Browser.CssRoundTrip
import Liumos.Browser.DomRoundTrip
import Liumos.Saji.Termination
import Liumos.Saji.RoundTrip
import Liumos.Elf.Create
import Liumos.Sched.Capacity
import Liumos.Sched.Fairness
import Liumos.Sched.Lock
import Liumos.Paging.FlushMapped
import Liumos.Elf.UserRights
import Liumos.Process.Sbrk
import Liumos.Dram.Capacity
import Liumos.Process.WrittenPages
import Liumos.Process.KernelHalf
import Liumos.Switching.FpuPrivacy
import Liumos.Inet.Icmp
import Liumos.Inet.DhcpOptions
import Liumos.Gui.Alpha
import Liumos.Gui.ZOrder
import Liumos.Gui.MapAccess
import Liumos.Loader.Chain
import Liumos.Shell.InitialStack
import Liumos.Gui.Console
import Liumos.Inet.Completions
import Liumos.Liumlib.InetAddr
import Liumos.Browser.HtmlScan
import Liumos.Elf.SectionName
import Liumos.Liumlib.Strstr
import Liumos.Usb.Descriptor
import Liumos.Usb.Ecm
import Liumos.Virtio.Capability
