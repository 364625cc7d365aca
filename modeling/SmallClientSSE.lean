import SmallClientSSE.AbsentData
import SmallClientSSE.Horus.Absent
import SmallClientSSE.Horus.Blocks
import SmallClientSSE.Horus.Calls
import SmallClientSSE.Horus.Client
import SmallClientSSE.Horus.Exact
import SmallClientSSE.Horus.Failing
import SmallClientSSE.Horus.Keys
import SmallClientSSE.Horus.Ledger
import SmallClientSSE.Horus.Live
import SmallClientSSE.Horus.NewestVersion
import SmallClientSSE.Horus.OMAP
import SmallClientSSE.Horus.OMAPExact
import SmallClientSSE.Horus.PRFORAM
import SmallClientSSE.Horus.PRFORAMExact
import SmallClientSSE.Horus.Reads
import SmallClientSSE.Horus.Setup
import SmallClientSSE.Horus.SetupExact
import SmallClientSSE.Horus.Shortage
import SmallClientSSE.Horus.Space
import SmallClientSSE.Horus.VersionSearch
import SmallClientSSE.Lib.BinaryCounter
import SmallClientSSE.Lib.Bytes
import SmallClientSSE.Lib.Decimal
import SmallClientSSE.Lib.Dyadic
import SmallClientSSE.Lib.Effect
import SmallClientSSE.Lib.MergeSchedule
import SmallClientSSE.Lib.Numbered
import SmallClientSSE.Lib.Run
import SmallClientSSE.Lib.SearchTree
import SmallClientSSE.Lib.Stash
import SmallClientSSE.Lib.Table
import SmallClientSSE.Lib.Tally
import SmallClientSSE.Mitra.Client
import SmallClientSSE.Mitra.Exact
import SmallClientSSE.Mitra.Fresh
import SmallClientSSE.Mitra.Isolation
import SmallClientSSE.Mitra.Layout
import SmallClientSSE.Mitra.Local
import SmallClientSSE.Mitra.OverOmap
import SmallClientSSE.Mitra.Records
import SmallClientSSE.Mitra.Search
import SmallClientSSE.Omap.AVLTree
import SmallClientSSE.Omap.Batch
import SmallClientSSE.Omap.BatchInsert
import SmallClientSSE.Omap.BatchSearch
import SmallClientSSE.Omap.Bulk
import SmallClientSSE.Omap.Capacity
import SmallClientSSE.Omap.CountUp
import SmallClientSSE.Omap.Counters
import SmallClientSSE.Omap.Exact
import SmallClientSSE.Omap.Finilize
import SmallClientSSE.Omap.FiniteMap
import SmallClientSSE.Omap.Increment
import SmallClientSSE.Omap.Insert
import SmallClientSSE.Omap.Lacks
import SmallClientSSE.Omap.Layout
import SmallClientSSE.Omap.Links
import SmallClientSSE.Omap.Memory
import SmallClientSSE.Omap.OMAP
import SmallClientSSE.Omap.ORAM
import SmallClientSSE.Omap.Padding
import SmallClientSSE.Omap.Path
import SmallClientSSE.Omap.Reached
import SmallClientSSE.Omap.Rebalance
import SmallClientSSE.Omap.Refine
import SmallClientSSE.Omap.Setup
import SmallClientSSE.Omap.Views
import SmallClientSSE.Qos.Client
import SmallClientSSE.Qos.Counters
import SmallClientSSE.Qos.CountersAgree
import SmallClientSSE.Qos.Exact
import SmallClientSSE.Qos.Remote
import SmallClientSSE.Qos.Removal
import SmallClientSSE.Qos.SearchStep
import SmallClientSSE.Qos.Server
import SmallClientSSE.Qos.Setup
import SmallClientSSE.Qos.SetupExact
import SmallClientSSE.Qos.Slots
import SmallClientSSE.Qos.Steps
import SmallClientSSE.Qos.Tree
import SmallClientSSE.Qos.Visit
import SmallClientSSE.Qos.Walk
import SmallClientSSE.Static.Amortized
import SmallClientSSE.Static.AmortizedExact
import SmallClientSSE.Static.AmortizedFrame
import SmallClientSSE.Static.AmortizedLevels
import SmallClientSSE.Static.AmortizedSets
import SmallClientSSE.Static.AmortizedSize
import SmallClientSSE.Static.DeAmortized
import SmallClientSSE.Static.DeAmortizedExact
import SmallClientSSE.Static.DeAmortizedLevels
import SmallClientSSE.Static.DeAmortizedMerges
import SmallClientSSE.Static.DeAmortizedSchedule
import SmallClientSSE.Static.DeAmortizedSets
import SmallClientSSE.Static.DeAmortizedSteps
import SmallClientSSE.Static.Epochs
import SmallClientSSE.Static.Record
import SmallClientSSE.Utils.Encode
import SmallClientSSE.Utils.Utilities
