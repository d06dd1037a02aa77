import Spool.Main
import Spool.Queue.Machine
import Spool.Rehearsal.Pool
import Spool.Rehearsal.Queue
import Spool.Proofs.Queue.Turns
import Spool.Proofs.Queue.Wakeups
import Spool.Proofs.Queue.Courses
import Spool.Proofs.Queue.Puts
import Spool.Proofs.Queue.Fifo
import Spool.Proofs.Queue.Signals
import Spool.Proofs.Pool.Tables
import Spool.Proofs.Pool.Turns
import Spool.Proofs.Pool.Stages
import Spool.Proofs.Job
import Spool.Proofs.Pool.Phases
import Spool.Proofs.Pool.Callbacks
import Spool.Proofs.Pool.Handling
import Spool.Proofs.Pool.Progress
import Spool.Proofs.Pool.Announcing
import Spool.Proofs.Pool.Shutdown
import Spool.Proofs.Disk.Below
import Spool.Proofs.Disk.Files
import Spool.Proofs.Disk.Sources
import Spool.Proofs.Disk.Aside
import Spool.Proofs.Push.Addressed
import Spool.Proofs.Push.Parity
import Spool.Proofs.Push.Clashes
import Spool.Proofs.Disk.Arrivals
import Spool.Proofs.Pool.Barrier
import Spool.Proofs.Pool.Pending
import Spool.Proofs.Pool.Errands
import Spool.Proofs.Pool.Pushes
import Spool.Proofs.Pool.Counts
import Spool.Proofs.Pool.Tellings
import Spool.Proofs.Pool.Erasing
import Spool.Proofs.Pool.Forward
import Spool.Proofs.Pool.Refusals
import Spool.Proofs.Pool.Dropping
import Spool.Proofs.Queue.Awake
import Spool.Proofs.Pool.Launch
import Spool.Proofs.Pool.Abandonment
import Spool.Proofs.Pool.Script
import Spool.Proofs.Pool.Payloads
import Spool.Proofs.Pool.Sequential
import Spool.Proofs.Push.Freight
import Spool.Proofs.Push.Keeping
import Spool.Proofs.Upload.Cargo
import Spool.Proofs.Disk.Codes
import Spool.Proofs.Push.Codes
import Spool.Proofs.Upload.Course
import Spool.Proofs.Upload.Delivery
import Spool.Proofs.Upload.Kept
import Spool.Proofs.Upload.Tally
import Spool.Proofs.Flate.Bits
import Spool.Proofs.Flate.Code
import Spool.Proofs.Flate.Coded
import Spool.Proofs.Flate.Description
import Spool.Proofs.Flate.Blocks
import Spool.Proofs.Flate.Matching
import Spool.Proofs.Flate.Stream
import Spool.Proofs.Disk.Copies
import Spool.Proofs.Push.Copying
import Spool.Proofs.Push.Failing
import Spool.Proofs.Push.Confined
import Spool.Proofs.Definition
import Spool.Proofs.Push.Presence
import Spool.Proofs.Push.Receipts
import Spool.Proofs.Decimal
import Spool.Proofs.Job.Uses
import Spool.Proofs.Pool.Codes
