import Easyio.W25q16.Overwrite
import Easyio.Boot.Restore
import Easyio.Ota.Sessions
import Easyio.Ota.Frame
import Easyio.Update.VerifiedBytes
import Easyio.Boot.ImageCopy
import Easyio.Packager.Package
import Easyio.Boot.Integrity
import Easyio.Cmux.RoundTrip
import Easyio.Cmux.Soundness
import Easyio.Cmux.Commands
import Easyio.Cmux.AtResponse
import Easyio.Config.UserRoundTrip
import Easyio.Kernel.Objects
import Easyio.Kernel.MemPool
import Easyio.Kernel.TimerCallbacks
import Easyio.Kernel.FirstFit
import Easyio.Kernel.ReallocContract
import Easyio.Kernel.RoundRobin
import Easyio.Kernel.WakeOrder
import Easyio.Kernel.Preemption
import Easyio.Kernel.Restoration
import Easyio.Kernel.EventDelivery
import Easyio.Kernel.MailboxWakeups
import Easyio.Kernel.NoTrace
import Easyio.Kernel.QueueIsolation
import Easyio.Drivers.DataQueueMask
import Easyio.Drivers.SerialDma
import Easyio.Drivers.Completion
import Easyio.Drivers.Pipe
import Easyio.Kernel.Device
import Easyio.Kernel.MallocAlign
import Easyio.Dfs.Descriptors
import Easyio.Dfs.Mounts
import Easyio.Dfs.NormalForm
import Easyio.Format.Cut
import Easyio.Tcp.Client
import Easyio.Ymodem.Receive
import Easyio.Tracker.Presence
import Easyio.Modem.Apn
import Easyio.Tracker.Lowpower
import Easyio.Ota.Polling
import Easyio.Base64.Codec
import Easyio.CString.Parameters
