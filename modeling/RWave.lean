import RWave.Misc.StableSort
import RWave.Misc.BinaryHeap
import RWave.Misc.BoundedHeap
import RWave.Misc.StdHeap
import RWave.Misc.TickGroups
import RWave.Misc.Segments
import RWave.Misc.Runs
import RWave.Misc.TwoRun
import RWave.Misc.Outcome
import RWave.Misc.Clip
import RWave.Misc.Numeral
import RWave.Misc.FourState
import RWave.Misc.Glob
import RWave.Misc.Forest
import RWave.Misc.Calendar
import RWave.Misc.JsonText
import RWave.Misc.EntryMap
import RWave.Host
import RWave.Str
import RWave.Ascii
import RWave.Str.Pattern
import RWave.Json
import RWave.Json.Text
import RWave.Backend.Value
import RWave.Backend.Basic
import RWave.Backend.Window
import RWave.Backend.FoldChange
import RWave.Backend.NetChange
import RWave.Backend.Fsdb
import RWave.Backend.FstWindow
import RWave.Backend.Wlf
import RWave.Backend.NpiRecord
import RWave.Backend.NpiDump
import RWave.Format
import RWave.Format.Ticks
import RWave.Format.UnixUtc
import RWave.Condition
import RWave.Condition.Number
import RWave.Condition.Pattern
import RWave.Condition.Match
import RWave.Condition.Display
import RWave.Condition.RoundTrip
import RWave.Condition.Key
import RWave.Condition.Binary
import RWave.Condition.Radix
import RWave.Filter
import RWave.Filter.Glob
import RWave.Select
import RWave.Select.Scope
import RWave.Select.Gates
import RWave.Select.Leaf
import RWave.Cli
import RWave.Cli.Loop
import RWave.Cli.Parse
import RWave.Cli.Inherit
import RWave.Cli.Quote
import RWave.Model.Wave
import RWave.Model.Mock
import RWave.Model.Cache
import RWave.Model.SignalTable
import RWave.Model.WlfSymbols
import RWave.Model.FsdbSignals
import RWave.Model.Replay
import RWave.Model.Bounds
import RWave.Model.Collect
import RWave.Model.Windowed
import RWave.Model.Snapshot
import RWave.Model.Seeking
import RWave.Model.LastEvent
import RWave.Model.Merge
import RWave.Commands.Search
import RWave.Commands.SearchState
import RWave.Commands.SearchEvent
import RWave.Commands.SearchInterval
import RWave.Commands.SearchLimit
import RWave.Commands.SearchEnd
import RWave.Commands.Common
import RWave.Commands.Info
import RWave.Commands.Selected
import RWave.Commands.Dump
import RWave.Commands.Summary
import RWave.Commands.SummaryRows
import RWave.Commands.UnknownFlag
import RWave.Commands.Snapshot
import RWave.Commands.SearchCommand
import RWave.Commands.Resolve
import RWave.Commands.SearchDedup
import RWave.Commands.SearchOrder
import RWave.Commands.Tree
import RWave.Commands.TreeForest
import RWave.Commands.TreeRoots
import RWave.Commands.Trace
import RWave.Commands.Endpoint
import RWave.Commands.Compute
import RWave.Commands.Isolation
import RWave.Commands.Compare
import RWave.Commands.VisibleDiff
import RWave.Batch
import RWave.Batch.Lines
import RWave.Wellen.Value
import RWave.Wellen.Signal
import RWave.Wellen.VcdValue
import RWave.Wellen.SignalEncoder
import RWave.Wellen.SignalRecords
import RWave.Wellen.WaveMem
import RWave.Wellen.Block
import RWave.Wellen.Timeline
import RWave.Wellen.Store
import RWave.Wellen.Load
import RWave.Wellen.VcdBody
import RWave.Wellen.VcdText
import RWave.Wellen.ReadValues
import RWave.Backend.WellenBackend
import RWave.Model.VcdFile
