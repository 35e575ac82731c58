import Sse.Basic.Bytes
import Sse.Basic.Bid
import Sse.Lib.Runs
import Sse.Orion.Orion
import Sse.Orion.Frame
import Sse.Orion.Slots
import Sse.Lib.SortedMap
import Sse.Mitra.Client
import Sse.Mitra.Search
import Sse.Mitra.Isolation
import Sse.Diana.Core
import Sse.Diana.Interface
import Sse.Diana.Ledger
import Sse.Diana.Isolation
import Sse.Diana.Exact
import Sse.Fides.Client
import Sse.Fides.Search
import Sse.Mitra.Cleaning
import Sse.Mitra.Fresh
import Sse.Mitra.Remote
import Sse.Mitra.Lossy
import Sse.Diana.Remote
import Sse.Lib.PathOram
import Sse.Horus.PrfOram
import Sse.Horus.Horus
import Sse.Horus.Probe
import Sse.Omap.Oram
import Sse.Omap.Finilize
import Sse.Omap.OramRuns
import Sse.Lib.AvlTree
import Sse.Lib.Wp
import Sse.Omap.Avl
import Sse.Omap.AvlSpec
import Sse.Omap.AvlStore
import Sse.Diana.Parallel
import Sse.Diana.Absent
import Sse.Diana.Deleted
import Sse.Orion.Setup
import Sse.Orion.Capacity
import Sse.Janus.Client
import Sse.Janus.Ppke
import Sse.Janus.Punctures
import Sse.Diana.Taking
import Sse.Janus.Server
import Sse.Diana.Batch
import Sse.Janus.Epochs
import Sse.Janus.Search
import Sse.Horus.Rounds
import Sse.Horus.Rows
import Sse.Horus.Entries
import Sse.Horus.Shelf
import Sse.Horus.Exact
import Sse.Diana.Words
import Sse.Diana.Naive
import Sse.Fides.Codec
import Sse.Orion.Invariant
import Sse.Diana.Restart
import Sse.Horus.Queries
import Sse.Omap.AvlSearch
import Sse.Omap.Omap
import Sse.Horus.Setup
import Sse.Omap.OmapRuns
import Sse.Horus.SetupAgrees
import Sse.Basic.BidOrder
import Sse.Horus.Labels
import Sse.Janus.Cache
import Sse.Horus.Newest
import Sse.Lib.Simulation
import Sse.Omap.Parametric
import Sse.Omap.Room
import Sse.Omap.Space
import Sse.Horus.Stack
import Sse.Horus.Space
import Sse.Omap.Serves
import Sse.Omap.FiniteMap
import Sse.Orion.Stack
import Sse.Orion.StackExact
import Sse.Orion.StackSetup
import Sse.Fides.Tdp
import Sse.Fides.Parallel
import Sse.Crypto.Aesni
import Sse.Crypto.Prg
import Sse.Diana.Builds
import Sse.Diana.CounterCode
import Sse.Omap.ByteRuns
