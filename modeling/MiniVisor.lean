import MiniVisor.Allocator.Reserve
import MiniVisor.Allocator.Global
import MiniVisor.Gic.Timer
import MiniVisor.Gic.Sharing
import MiniVisor.Fat.Directory
import MiniVisor.Fat.Store
import MiniVisor.Drivers.Control
import MiniVisor.Drivers.Pieces
import MiniVisor.Lock.Ticket
import MiniVisor.Gic.Banks
import MiniVisor.Gic.Retry
import MiniVisor.Gic.Enabling
import MiniVisor.Vm.Retire
import MiniVisor.Vm.Yield
import MiniVisor.Smp.Start
import MiniVisor.Paging.Range
import MiniVisor.Virtio.Guests
import MiniVisor.Trap.Loads
import MiniVisor.Trap.Stores
import MiniVisor.Drivers.Sdhci
import MiniVisor.Drivers.Genet
import MiniVisor.Uart.Input
import MiniVisor.Uart.Console
import MiniVisor.DeviceTree.Compatible
import MiniVisor.Drivers.Configuration
