import BlockForest.Bytes.Laws
import BlockForest.Json.Access
import BlockForest.Value.Json
import BlockForest.Stream.Dumper
import BlockForest.Stream.Loader
import BlockForest.Workspace
import BlockForest.Stock.Types
import BlockForest.Stock.Project
import BlockForest.Proofs.SlotsAndNames
import BlockForest.Proofs.ForestInvariant
import BlockForest.Proofs.BlockLocalChanges
import BlockForest.Proofs.ChildListReplacement
import BlockForest.Proofs.ChildListEdits
import BlockForest.Proofs.SoundTree
import BlockForest.Proofs.OperationInvariants
import BlockForest.Proofs.DestroySubtree
import BlockForest.Proofs.ForestPreservation
import BlockForest.Proofs.SoundPreservation
import BlockForest.Proofs.CatalogueInvariants
import BlockForest.Proofs.ReachedSites
import BlockForest.Proofs.TypeRegistration
import BlockForest.Proofs.InflatedSubtree
import BlockForest.Proofs.FailedInflate
import BlockForest.Proofs.SlotGenerations
import BlockForest.Proofs.ByteDecoding
import BlockForest.Proofs.ValueNesting
import BlockForest.Proofs.StreamGrammar
import BlockForest.Proofs.InflateParses
import BlockForest.Proofs.PayloadKinds
import BlockForest.Proofs.DeflateWellFormed
import BlockForest.Proofs.RoundTrip
import BlockForest.Proofs.ChildListRearrangement
import BlockForest.Proofs.WrittenExcerpt
import BlockForest.Proofs.DumpLoadRoundTrip
import BlockForest.Proofs.SameSettingsReading
import BlockForest.Proofs.DeletionMarks
import BlockForest.Proofs.RefusedCalls
import BlockForest.Proofs.DestroyOutcome
import BlockForest.Proofs.ObserverNotices
import BlockForest.Proofs.AnnouncedCalls
import BlockForest.Proofs.InstanceCounts
import BlockForest.Proofs.RegisteredEntries
import BlockForest.Proofs.WorkspaceCounters
import BlockForest.Proofs.CanonicalEncoding
import BlockForest.Proofs.TruncatedStreams
import BlockForest.Proofs.StoppedDeflate
import BlockForest.Proofs.FreezePropagation
import BlockForest.Proofs.DestroyNotices
import BlockForest.Proofs.DestroyEventOrder
import BlockForest.Proofs.RemovalNotices
import BlockForest.Proofs.ReadingConditions
import BlockForest.Proofs.TypeRevision
import BlockForest.Proofs.TreeTraversal
import BlockForest.Proofs.InsertionChecks
import BlockForest.Proofs.SaveAfterLoad
import BlockForest.Proofs.DeflateReports
import BlockForest.Proofs.InflateReports
import BlockForest.Proofs.DumperFinish
import BlockForest.Proofs.LoadableStreams
import BlockForest.Proofs.PropertySlots
import BlockForest.Proofs.ExtensionHistory
import BlockForest.Proofs.HeaderLayout
