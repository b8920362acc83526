import Tagdata.Library.SearchOrder
import Tagdata.Library.Results
import Tagdata.Library.Digits
import Tagdata.Analysis.Refinement
import Tagdata.Analysis.Scans
import Tagdata.Interface.Selections
import Tagdata.Analysis.Watches
import Tagdata.Interface.Requests
import Tagdata.Model.Ttl
import Tagdata.Analysis.TtlIndexes
import Tagdata.Model.Merge
import Tagdata.Analysis.MergeSteps
import Tagdata.Analysis.TtlRuns
import Tagdata.Analysis.MergeUnion
import Tagdata.Analysis.Merges
import Tagdata.Analysis.MergeTtl
import Tagdata.Model.Collections
import Tagdata.Analysis.Collections
import Tagdata.Library.Parsers
import Tagdata.Model.Journal
import Tagdata.Analysis.JournalContents
import Tagdata.Analysis.JournalRuns
import Tagdata.Library.Memory
import Tagdata.Model.Layout
import Tagdata.Model.Open
import Tagdata.Analysis.PageBlocks
import Tagdata.Analysis.PageReads
import Tagdata.Analysis.Opens
import Tagdata.Analysis.Traversals
import Tagdata.Analysis.Positions
import Tagdata.Analysis.Ranges
import Tagdata.Analysis.CollectionScans
import Tagdata.Analysis.TypedRanges
import Tagdata.Analysis.ScanPages
import Tagdata.Analysis.Simulation
import Tagdata.Analysis.Prefixes
import Tagdata.Analysis.ScanUses
import Tagdata.Analysis.Purges
import Tagdata.Model.Maintenance
import Tagdata.Analysis.Snapshots
import Tagdata.Analysis.JournalCodec
import Tagdata.Analysis.JournalKeys
import Tagdata.Analysis.JournalPages
import Tagdata.Analysis.Tracking
import Tagdata.Analysis.CursorCalls
import Tagdata.Analysis.LiveSets
import Tagdata.Analysis.Exchanges
import Tagdata.Analysis.Freelists
import Tagdata.Analysis.Splits
import Tagdata.Library.Frames
import Tagdata.Model.Codecs
import Tagdata.Analysis.KeyCodecs
import Tagdata.Model.Coordination
import Tagdata.Analysis.Readers
import Tagdata.Model.Files
import Tagdata.Analysis.MetaPages
import Tagdata.Analysis.FormatCandidates
import Tagdata.Analysis.FormatDetection
import Tagdata.Library.Evaluation
import Tagdata.Interface.Machine
import Tagdata.Model.Definitions
import Tagdata.Analysis.Isolation
import Tagdata.Analysis.CommitVerdicts
import Tagdata.Analysis.Interference
import Tagdata.Analysis.Reclamation
import Tagdata.Analysis.MergedNodes
import Tagdata.Analysis.Rebalancing
