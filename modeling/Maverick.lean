import Maverick.ThreadLogProofs
import Maverick.DonationProofs
import Maverick.StrictProofs
import Maverick.DirRunProofs
import Maverick.NewcomerProofs
import Maverick.CondProofs
import Maverick.SyscallProofs
import Maverick.LengthProofs
import Maverick.IpOutputProofs
import Maverick.OpenFileProofs
import Maverick.ExitStatusRunProofs
import Maverick.ProcessExitProofs
import Maverick.VmLockRunProofs
import Maverick.RaidProofs
import Maverick.RedoProofs
import Maverick.CheckpointProofs
import Maverick.StdioReadProofs
import Maverick.PagedirProofs
import Maverick.CorruptionProofs
import Maverick.CapacityProofs
import Maverick.CreationProofs
import Maverick.DenyProofs
import Maverick.MallocProofs
import Maverick.MappingProofs
import Maverick.LoadAvgProofs
import Maverick.RouteProofs
import Maverick.SleepProofs
import Maverick.VirtioProofs
