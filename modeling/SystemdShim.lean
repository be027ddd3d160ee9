import SystemdShim.Lib.Prog
import SystemdShim.Lib.Stages
import SystemdShim.Lib.Since
import SystemdShim.ReleasedPaths
import SystemdShim.CgroupCalls
import SystemdShim.UserSlices
import SystemdShim.ObjectNames
import SystemdShim.Lifetime
import SystemdShim.ReleaseAgent
import SystemdShim.IdleTime
import SystemdShim.CodecBounds
import SystemdShim.Independence
import SystemdShim.TimerHandle
import SystemdShim.SleepDebounce
import SystemdShim.Life
import SystemdShim.NtpSwitch
import SystemdShim.ReplyOrder
import SystemdShim.Durable
import SystemdShim.PowerRequests
import SystemdShim.ReleasedUnits
import SystemdShim.AskedActs
import SystemdShim.EmptiedUnits
import SystemdShim.LeftAlone
