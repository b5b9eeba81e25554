import Sel4bench.Driver.Benchmarks
import Sel4bench.Driver.Ipc
import Sel4bench.Driver.Frame
import Sel4bench.Driver.Mode
import Sel4bench.Driver.Launch
import Sel4bench.Driver.Sync
import Sel4bench.Driver.Fdt
import Sel4bench.Support.Caps
import Sel4bench.Support.Vspace
import Sel4bench.Support.Spawn
import Sel4bench.Support.ResultMessage
import Sel4bench.Overhead.Stability
import Sel4bench.Overhead.Agreement
import Sel4bench.Overhead.Warmup
import Sel4bench.Overhead.Underflow
import Sel4bench.Ipc.Pairing
import Sel4bench.Ipc.Elapsed
import Sel4bench.Fault.Matching
import Sel4bench.Signal.Samples
import Sel4bench.Scheduler.Handshake
import Sel4bench.Sync.Monitor
import Sel4bench.Broadcast.Waiters
import Sel4bench.Vcpu.Extremes
import Sel4bench.Vcpu.Anomalies
import Sel4bench.Vcpu.Sessions
import Sel4bench.PageMapping.Runs
import Sel4bench.PageMapping.Labels
import Sel4bench.Smp.Throughput
import Sel4bench.Driver.Quantile
import Sel4bench.Driver.EarlyVariance
import Sel4bench.Driver.Translation
import Sel4bench.Vcpu.Rows
import Sel4bench.Ipc.Rows
import Sel4bench.Signal.Rows
import Sel4bench.Irquser.Rows
