import Xv6.Sched.Quantum
import Xv6.Sched.Alert
import Xv6.Sched.RoundRobin
import Xv6.Agent.Actuation
import Xv6.Agent.ClosedLoop
import Xv6.Signal.Nested
import Xv6.Log.Crash
import Xv6.Log.Admission
import Xv6.Fs.Failure
import Xv6.Fs.Shared
import Xv6.Fs.Reallocate
import Xv6.Bio.Store
import Xv6.Fs.Map
import Xv6.Fs.Path
import Xv6.Fs.Refusal
import Xv6.Fs.Reservation
import Xv6.Mkfs.Readback
import Xv6.Agent.Exact
import Xv6.Agent.Deadband
import Xv6.Agent.Ema
import Xv6.Sched.Rotation
import Xv6.Sched.Overtaking
import Xv6.Agent.Abuse
import Xv6.Vm.Copyout
import Xv6.Vm.Args
import Xv6.Life.Alarm
import Xv6.Life.Fatal
import Xv6.User.Grep
import Xv6.Bio.Ide
