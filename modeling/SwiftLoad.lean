import SwiftLoad.Machine.Basic
import SwiftLoad.Machine.Ranked
import SwiftLoad.Machine.Program
import SwiftLoad.Machine.Faults
import SwiftLoad.Machine.TwoRuns
import SwiftLoad.Range.Basic
import SwiftLoad.Rate.Basic
import SwiftLoad.Bytes.Base128
import SwiftLoad.Text.Basic
import SwiftLoad.Text.Percent
import SwiftLoad.Config
import SwiftLoad.Util.Intervals
import SwiftLoad.Util.Canonical
import SwiftLoad.Util.Queries
import SwiftLoad.Util.Saturation
import SwiftLoad.Util.Codec
import SwiftLoad.Util.Varint
import SwiftLoad.Util.Filename
import SwiftLoad.Util.SafeName
import SwiftLoad.Util.Truncation
import SwiftLoad.Util.Disposition
import SwiftLoad.Util.Destination
import SwiftLoad.Util.Resolve
import SwiftLoad.Util.Backoff
import SwiftLoad.Util.Rate
import SwiftLoad.Util.Redact
import SwiftLoad.Fsx
import SwiftLoad.Publishing
import SwiftLoad.Publishing.Collision
import SwiftLoad.Publishing.Steps
import SwiftLoad.Publishing.Folder
import SwiftLoad.Http.Errors
import SwiftLoad.Http.Headers
import SwiftLoad.Http.Url
import SwiftLoad.Http.Redirect
import SwiftLoad.Http.Client
import SwiftLoad.Task.Plan
import SwiftLoad.Task.Accounting
import SwiftLoad.Task.Pool
import SwiftLoad.Task.Splitting
import SwiftLoad.Task.Writer
import SwiftLoad.Task.Coalescing
import SwiftLoad.Task.Governor
import SwiftLoad.Task.Observation
import SwiftLoad.Task.Dwell
import SwiftLoad.Task.GovernorSafety
import SwiftLoad.Task.Settling
import SwiftLoad.Task.Probe
import SwiftLoad.Task.Probing
import SwiftLoad.Task.Windows
import SwiftLoad.Task.Identity
import SwiftLoad.Task.ValidationCost
import SwiftLoad.Task.Worker
import SwiftLoad.Task.Retries
import SwiftLoad.Task.Solo
import SwiftLoad.Task.Drive
import SwiftLoad.Task.Ownership
import SwiftLoad.Task.Placement
import SwiftLoad.Task.Retirement
import SwiftLoad.Task.Metering
import SwiftLoad.Task.Requests
import SwiftLoad.Task.Progress
import SwiftLoad.Task.Expiry
import SwiftLoad.Task.Download
import SwiftLoad.Task.Delivery
import SwiftLoad.Task.SingleStream
import SwiftLoad.Task.Caps
import SwiftLoad.Task.Hints
import SwiftLoad.Task.Roster
import SwiftLoad.Task.RateLimit
import SwiftLoad.Task.Credentials
import SwiftLoad.Store.Basic
import SwiftLoad.Store.History
import SwiftLoad.Store.Bookkeeping
import SwiftLoad.Store.Tables
import SwiftLoad.Store.Catalog
import SwiftLoad.Store.Sound
import SwiftLoad.Store.Refinement
import SwiftLoad.Cli.Commands
import SwiftLoad.Cli.PartFiles
import SwiftLoad.Cli.Refresh
import SwiftLoad.Cli.CleanStop
import SwiftLoad.Cli.PartPath
import SwiftLoad.Cli.Sessions
import SwiftLoad.Cli.Integrity
import SwiftLoad.Cli.Resume
import SwiftLoad.Cli.Diagnostics
import SwiftLoad.Cli.Expiry
import SwiftLoad.Testserver.Content
import SwiftLoad.Testserver.Serve
import SwiftLoad.Testserver.Throttle
import SwiftLoad.Testserver.Streams
import SwiftLoad.Testserver.Download
import SwiftLoad.Testserver.Refresh
