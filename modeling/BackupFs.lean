import BackupFs.Kernel.Granted
import BackupFs.Library.BoundedDeque
import BackupFs.Library.Transition
import BackupFs.Chain.State
import BackupFs.Chain.History
import BackupFs.Chain.Window
import BackupFs.Client.List
import BackupFs.Failure.Write
import BackupFs.Failure.Restore
import BackupFs.Content.Coverage
import BackupFs.Cache.SameTree
import BackupFs.Cache.Sweep
import BackupFs.Cache.Independence
import BackupFs.Mount.Lookup
import BackupFs.Mount.Match
import BackupFs.Kernel.Namespace
import BackupFs.Lifetime.Fresh
import BackupFs.Library.Path
import BackupFs.Client.Address
import BackupFs.Client.Agreement
import BackupFs.Chain.Youngest
import BackupFs.Concurrency.Stages
import BackupFs.Concurrency.Race
import BackupFs.Lifetime.Provenance
import BackupFs.Isolation.Agreement
import BackupFs.Isolation.Chains
import BackupFs.Locals.Requests
import BackupFs.Chain.Counted
import BackupFs.Chain.Restored
import BackupFs.Chain.Restart
import BackupFs.Copying.Reported
import BackupFs.Copying.Complete
import BackupFs.Client.Reply
import BackupFs.Client.View
import BackupFs.Failure.Delete
import BackupFs.Client.Command
import BackupFs.Buffers.Formats
import BackupFs.Chain.Range
import BackupFs.Lifetime.References
import BackupFs.Copying.Loop
import BackupFs.Library.Nesting
import BackupFs.Library.Forest
import BackupFs.Library.Refcount
import BackupFs.OpenFile.Ledger
import BackupFs.OpenFile.Runs
import BackupFs.OpenFile.Safety
import BackupFs.Stack.Cycles
import BackupFs.Tree.Below
import BackupFs.Tree.Calls
import BackupFs.Concurrency.Fleet
import BackupFs.Library.Lockstep
import BackupFs.Session.Agreement
import BackupFs.Session.Steady
import BackupFs.Versions.Calls
import BackupFs.Versions.Ideal
import BackupFs.Versions.Served
import BackupFs.Versions.Sessions
import BackupFs.Versions.Careful
import BackupFs.Streams.Calls
import BackupFs.Streams.Steady
import BackupFs.Links.State
import BackupFs.Links.Walk
import BackupFs.Stack.Loading
import BackupFs.Locals.Numbers
