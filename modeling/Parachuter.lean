import Parachuter.Lib.Blob
import Parachuter.Lib.Calls
import Parachuter.Lib.Runs
import Parachuter.Lib.Crc
import Parachuter.Lib.UnixPath
import Parachuter.Lib.Utf8
import Parachuter.Lib.Bitmap
import Parachuter.Lib.Strings
import Parachuter.Lib.FlatQueue
import Parachuter.Basic
import Parachuter.Proto
import Parachuter.Chunker
import Parachuter.Disk
import Parachuter.Manifest
import Parachuter.Reassembler
import Parachuter.Progress
import Parachuter.Assembly
import Parachuter.Arrivals
import Parachuter.Ground
import Parachuter.Resize
import Parachuter.Torn
import Parachuter.Sidecars
import Parachuter.Crash
import Parachuter.RateLimiter
import Parachuter.Config
import Parachuter.Watch
import Parachuter.Ledger
import Parachuter.Queue
import Parachuter.Scanner
import Parachuter.Sender
import Parachuter.Operations
import Parachuter.Sendable
import Parachuter.Vanished
import Parachuter.Datagram
import Parachuter.Pending
import Parachuter.Cleaner
import Parachuter.Reconcile
import Parachuter.Snapshot
import Parachuter.Submitted
import Parachuter.Plan
import Parachuter.Tidy
import Parachuter.Transmit
import Parachuter.Repair
import Parachuter.Recut
import Parachuter.Stranded
import Parachuter.Reopened
import Parachuter.Raced
import Parachuter.Moving
import Parachuter.Landing
import Parachuter.Issued
import Parachuter.Budget
import Parachuter.Overlap
import Parachuter.Repeats
import Parachuter.Period
import Parachuter.Restarts
import Parachuter.Expiry
import Parachuter.Settings
import Parachuter.Wire
import Parachuter.Announced
import Parachuter.Downlinked
import Parachuter.Autoscan
import Parachuter.Partition
import Parachuter.Checked
import Parachuter.Corrupt
import Parachuter.Window
import Parachuter.GroundPath
import Parachuter.Agreed
import Parachuter.Growth
import Parachuter.Rejected
import Parachuter.Downlink
import Parachuter.Resend
import Parachuter.Converge
import Parachuter.Control
import Parachuter.Daemon
import Parachuter.Loop
import Parachuter.Lib.Table
import Parachuter.Lib.Wal
import Parachuter.Newest
import Parachuter.Store
import Parachuter.Lib.Births
import Parachuter.Listing
import Parachuter.Modes
import Parachuter.Recent
