import Ucesb.Bitsone
import Ucesb.ChunkCalls
import Ucesb.ClientWriteFits
import Ucesb.CompactBounds
import Ucesb.CorrelationPlot
import Ucesb.CwnReadBack
import Ucesb.DataMapRun
import Ucesb.EventCounterSync
import Ucesb.EventMergeRun
import Ucesb.FanOrder
import Ucesb.FileHeader
import Ucesb.FileMmap
import Ucesb.InputMergeRun
import Ucesb.LmdGetEvent
import Ucesb.LmdOutputSticky
import Ucesb.MatchAgree
import Ucesb.MatchRange
import Ucesb.MergeFifo
import Ucesb.MergeRun
import Ucesb.MergeWindow
import Ucesb.MultiChunksEvents
import Ucesb.MultiEventEnds
import Ucesb.NetMemory
import Ucesb.NetReceive
import Ucesb.NoRevisit
import Ucesb.NtupleRight
import Ucesb.PipeBufferFifo
import Ucesb.PipeLink
import Ucesb.PipeSorted
import Ucesb.RangeRounds
import Ucesb.ShmConsumer
import Ucesb.ShmReadFifo
import Ucesb.SignalRangeRight
import Ucesb.SparseCorrRuns
import Ucesb.StagedMessages
import Ucesb.StickyProbe
import Ucesb.StickyRecord
import Ucesb.StitchMarks
import Ucesb.StructMapping
import Ucesb.SubeventBytes
import Ucesb.SubeventCopy
import Ucesb.SyncCheckRun
import Ucesb.TcpComplete
import Ucesb.TcpReplay
import Ucesb.ThreadBufferSafe
import Ucesb.UnitMatch
import Ucesb.ValidBlocks
import Ucesb.ValueExact
import Ucesb.VarExpr
