import Shclog.Lib.Run
import Shclog.Lib.Log
import Shclog.Lib.Window
import Shclog.Lib.Tally
import Shclog.Lib.Calls
import Shclog.Lib.Fifo
import Shclog.Lib.Chain
import Shclog.Lib.Ring
import Shclog.Lib.Checked
import Shclog.Lib.Sums
import Shclog.Lib.OrderStatistic
import Shclog.Lib.Scale
import Shclog.Lib.Numeral
import Shclog.Lib.Emit
import Shclog.Lib.Tokens
import Shclog.Lib.Logged
import Shclog.Lib.Custody
import Shclog.Lib.Scope
import Shclog.Lib.Jobs
import Shclog.Lib.Image
import Shclog.Lib.Memory
import Shclog.Types
import Shclog.Cast
import Shclog.Math
import Shclog.Reduce
import Shclog.Syscall
import Shclog.Collections.Slice
import Shclog.Collections.Make
import Shclog.Fmt
import Shclog.UniqueFd
import Shclog.File
import Shclog.Cpu.Basic
import Shclog.Cpu.Grammar
import Shclog.Cpu.Parse
import Shclog.Cpu.Siblings
import Shclog.Cpu.Safety
import Shclog.Cpu.Outcome
import Shclog.Cpu.Cores
import Shclog.Cpu.Listing
import Shclog.Cpu.Descriptors
import Shclog.MPSCQueue.Basic
import Shclog.MPSCQueue.Invariant
import Shclog.MPSCQueue.Delivery
import Shclog.MPSCQueue.Sequential
import Shclog.MPSCQueue.Accounting
import Shclog.MPSCQueue.Answers
import Shclog.MPSCQSlotted.Basic
import Shclog.MPSCQSlotted.Invariant
import Shclog.MPSCQSlotted.Delivery
import Shclog.MPSCQSlotted.Sequential
import Shclog.MPSCQSlotted.Sizes
import Shclog.MPSCQSlotted.Progress
import Shclog.UnboundedLinkedMPSCQ.Basic
import Shclog.UnboundedLinkedMPSCQ.Invariant
import Shclog.UnboundedLinkedMPSCQ.Delivery
import Shclog.UnboundedLinkedMPSCQ.Lifetime
import Shclog.UnboundedLinkedMPSCQ.Sequential
import Shclog.UnboundedLinkedMPSCQ.Progress
import Shclog.UnboundedLinkedMPSCQ.RealTime
import Shclog.Interchange
import Shclog.EventedIo.Basic
import Shclog.EventedIo.Create
import Shclog.EventedIo.Machine
import Shclog.EventedIo.Submission
import Shclog.EventedIo.Completion
import Shclog.EventedIo.Failure
import Shclog.EventedIo.Calls
import Shclog.EventedIo.Lifetime
import Shclog.EventedIo.Registration
import Shclog.EventedIo.Serving
import Shclog.EventedIo.Device
import Shclog.EventedIo.Raw
import Shclog.EventedIo.Pointers
import Shclog.EventedIo.Layout
import Shclog.DualBuffer.Basic
import Shclog.DualBuffer.Invariant
import Shclog.DualBuffer.Parts
import Shclog.DualBuffer.Delivery
import Shclog.DualBuffer.Ring
import Shclog.Bench.Sample.Basic
import Shclog.Bench.Sample.Invariant
import Shclog.Bench.Sample.Statistics
import Shclog.Bench.Sample.Percentile
import Shclog.Bench.Sample.Avg
import Shclog.Bench.Time
import Shclog.Bench.Report.Basic
import Shclog.Bench.Report.Fit
import Shclog.Bench.Report.Table
import Shclog.Bench.Report.Scales
import Shclog.Bench.Report.Laws
import Shclog.Bench.Report.Write
import Shclog.Bench.Report.Reading
