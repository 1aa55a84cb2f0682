import Roanix.Mem.Vmem.Reach
import Roanix.Mem.Vmem.Undo
import Roanix.Mem.Amap.Reach
import Roanix.Mem.Swap.Calls
import Roanix.Mem.Phys.Reach
import Roanix.Mem.Object.Account
import Roanix.Mem.Object.Reach
import Roanix.Sys.RwLock.Correct
import Roanix.Sys.Mutex.Correct
import Roanix.Sys.Event.Correct
import Roanix.Driver.Graph.Correct
import Roanix.Driver.Device.Correct
import Roanix.Driver.Interface
import Roanix.Driver.Irq.Mask
import Roanix.Driver.Lease
import Roanix.Driver.Mmio
import Roanix.Driver.Pci
import Roanix.Mem.Policy.Invariant
import Roanix.Mem.Slab.Correct
import Roanix.Proc.Descriptor
import Roanix.Proc.Epoll
import Roanix.Proc.TimerFd
import Roanix.Proc.Pipe
import Roanix.Proc.Signal.Correct
import Roanix.Proc.Signal.Nesting
import Roanix.Sys.Klog.Correct
import Roanix.Dev.Block.Correct
import Roanix.Fs.Fat32.Correct
import Roanix.Fs.Tmpfs.Correct
import Roanix.Fs.NameCache.Correct
import Roanix.Proc.Inotify.Correct
import Roanix.Dev.Tty.Correct
import Roanix.Dev.Tty.Echo
import Roanix.Fs.Partition.Correct
import Roanix.Fs.DevNode
import Roanix.Sys.RunQueue.Correct
import Roanix.Sys.Clock.Correct
