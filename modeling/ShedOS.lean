import ShedOS.Memory.PmmHint
import ShedOS.Memory.PmmCount
import ShedOS.Memory.Tlb
import ShedOS.Memory.Exhaustion
import ShedOS.Memory.CowEffect
import ShedOS.Memory.VmmRelease
import ShedOS.Task.Ids
import ShedOS.Task.Create
import ShedOS.Terminal.Tape
import ShedOS.Device.Drive
import ShedOS.Device.Nvme
import ShedOS.Device.ReadBlocks
import ShedOS.Device.BringUp
import ShedOS.Syscall.Print
import ShedOS.Heap.Mfree
import ShedOS.Syscall.Dispatch
import ShedOS.Libk.Format
import ShedOS.Vfs.LoadDrive
import ShedOS.Memory.BootMap
import ShedOS.Heap.Tags
import ShedOS.Heap.Limit
import ShedOS.Interrupts.Hpet
import ShedOS.Libk.Timestamp
import ShedOS.Pci.Capabilities
import ShedOS.Pci.Enumerate
import ShedOS.Interrupts.Madt
import ShedOS.Interrupts.Ioapic
import ShedOS.Interrupts.Exceptions
import ShedOS.Vfs.FileOpen
import ShedOS.Terminal.Bounds
import ShedOS.Device.Registry
import ShedOS.Libk.Utos
import ShedOS.Libk.Strtok
import ShedOS.Libk.Strcmp
import ShedOS.Libk.Memcpy128
import ShedOS.Interrupts.Delivery
import ShedOS.Task.Fairness
import ShedOS.Task.Ownership
import ShedOS.Task.Startup
