import Gitility.Base.Bytes
import Gitility.Base.Object
import Gitility.Base.Links
import Gitility.Base.Program
import Gitility.Base.Pages
import Gitility.Base.ShiftRegister
import Gitility.Base.Traversal
import Gitility.Base.Progress
import Gitility.Base.Sweep
import Gitility.Base.GraphSearch
import Gitility.Base.Lines
import Gitility.Cursor.Codec
import Gitility.Cursor.Corruption
import Gitility.Cache.Lru
import Gitility.Cache.LruInvariant
import Gitility.Cache.LruRefinement
import Gitility.Cache.LruWeight
import Gitility.Store.ObjectDb
import Gitility.Budget.Budget
import Gitility.Budget.Ceiling
import Gitility.Store.LayeredOdb
import Gitility.Store.LayeredUnion
import Gitility.History.Commit
import Gitility.History.Walk
import Gitility.History.CommitGraph
import Gitility.History.CommitParsers
import Gitility.History.WalkComplete
import Gitility.History.Log
import Gitility.History.LogPages
import Gitility.Tree.Entries
import Gitility.Tree.Listing
import Gitility.Tree.Order
import Gitility.Tree.Pruning
import Gitility.Tree.ListPages
import Gitility.History.PathHistory
import Gitility.History.PathHistoryPages
import Gitility.History.Ancestry
import Gitility.Search.Scan
import Gitility.Search.Search
import Gitility.Search.MatchLines
import Gitility.Search.Candidates
import Gitility.Search.SearchPages
import Gitility.Search.SearchBudget
import Gitility.Runtime.Jobs
import Gitility.Runtime.Lifecycle
import Gitility.Runtime.Ledger
import Gitility.Runtime.Admission
import Gitility.Provider.Rendezvous
import Gitility.Provider.Delivery
import Gitility.Provider.Answers
import Gitility.Provider.ProviderOdb
import Gitility.Provider.Trust
import Gitility.Bundle.Format
import Gitility.Bundle.Grammar
import Gitility.Bundle.Snapshot
import Gitility.Bundle.Writer
import Gitility.Bundle.Sections
import Gitility.Bundle.SnapshotRows
import Gitility.Bundle.Publication
import Gitility.Bundle.Generations
import Gitility.Mirror.Metadata
import Gitility.Mirror.Publish
import Gitility.Mirror.PublishSafety
import Gitility.Mirror.TipsDigest
import Gitility.Fetch.Locks
import Gitility.Fetch.LeaseSteps
import Gitility.Fetch.LeaseSafety
import Gitility.Search.ScanCache
import Gitility.Diff.Projection
import Gitility.Diff.Selection
import Gitility.Diff.ProjectedLeaves
import Gitility.Diff.PathLimited
import Gitility.Refs.Resolution
import Gitility.File.Slice
import Gitility.File.CappedReads
import Gitility.Base.Contract
import Gitility.Base.LongArithmetic
import Gitility.Refs.Cursor
import Gitility.Refs.CursorRoundTrip
import Gitility.Refs.Listing
import Gitility.Refs.ListingPages
import Gitility.PackFetch.Manifest
import Gitility.PackFetch.Persist
import Gitility.PackFetch.PersistExact
import Gitility.Fetch.Prune
import Gitility.Fetch.PruneExact
import Gitility.History.ShallowPayload
import Gitility.Submodules.GitConfig
import Gitility.Tree.DirectoryLists
import Gitility.Tree.ScopedListing
import Gitility.Provider.Dispatcher
import Gitility.Provider.DispatcherRuns
import Gitility.Submodules.Declarations
import Gitility.Submodules.OuterJoin
import Gitility.Base.Alignment
import Gitility.Base.Delimited
import Gitility.Bundle.Rewrite
import Gitility.Cursor.Fingerprints
import Gitility.Diff.Content
import Gitility.Diff.ExactHunks
import Gitility.Diff.Limits
import Gitility.PackFetch.Rewrites
import Gitility.Base.Occurrences
import Gitility.Search.LiteralScan
import Gitility.Mirror.DefiniteFailures
import Gitility.PackFetch.FailedHydrations
import Gitility.Base.MergeJoin
import Gitility.Diff.ExactDiff
import Gitility.Diff.Renames
import Gitility.Base.ConditionalWrites
import Gitility.ObjectStore.Local
import Gitility.ObjectStore.LocalChanges
import Gitility.ObjectStore.LocalCleanup
import Gitility.ObjectStore.LocalReads
