import Osdev64.FrameQueue
import Osdev64.FrameCounters
import Osdev64.PmmUsable
import Osdev64.MmuLocal
import Osdev64.MmuFail
import Osdev64.MmuNewTables
import Osdev64.MmuLive
import Osdev64.MmuTranslate
import Osdev64.MmuRights
import Osdev64.MmuWindow
import Osdev64.BootstrapMap
import Osdev64.BootElf
import Osdev64.BootMap
import Osdev64.BootWalk
import Osdev64.FrameArray
import Osdev64.FrameFlags
import Osdev64.FrameMark
import Osdev64.PmmOrder
import Osdev64.PmmIndices
import Osdev64.PmmLeftover
import Osdev64.FrameSmp
import Osdev64.Term
import Osdev64.IoApic
import Osdev64.Acpi
import Osdev64.ElfLoad
import Osdev64.ElfHeaders
import Osdev64.ElfPages
import Osdev64.Config
import Osdev64.RtcUnix
import Osdev64.Trap
import Osdev64.TermSheet
import Osdev64.PrintfLog
import Osdev64.PrintfNumbers
import Osdev64.MadtWalk
import Osdev64.IoApicOverride
import Osdev64.TermPretty
import Osdev64.AcpiTables
import Osdev64.Pci
import Osdev64.MmuRecursive
import Osdev64.ListFamily
import Osdev64.SseString
import Osdev64.SseCopy
import Osdev64.StringOrder
import Osdev64.StringCopy
import Osdev64.StackTrace
import Osdev64.TrapEntry
import Osdev64.Syscall
import Osdev64.Uart
