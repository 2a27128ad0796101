import FsCore.Effect
import FsCore.Table
import FsCore.LastBelow
import FsCore.LittleEndian
import FsCore.Regex
import FsCore.Words
import FsCore.CText
import FsCore.NumeralBases
import FsCore.Binary64
import FsCore.Layout
import FsCore.Sql
import FsCore.Session
import FsCore.LogIndex
import FsCore.Mmap
import FsCore.Storage
import FsCore.Image
import FsCore.StoreSteps
import FsCore.StoreRuns
import FsCore.StoreProgress
import FsCore.StoreOpen
import FsCore.SessionRuns
import FsCore.Browse
import FsCore.Reference
import FsCore.DerivedFields
import FsCore.Reopen
import FsCore.WriterSteps
import FsCore.WriterReaders
import FsCore.OpenRace
import FsCore.StorageToken
import FsCore.AscReader
import FsCore.AscLines
import FsCore.RecordText
import FsCore.ReadForms
import FsCore.RecordTokens
import FsCore.PayloadStores
import FsCore.AcceptedLines
import FsCore.WellFormedRecords
import FsCore.Worker
import FsCore.EntryPoints
import FsCore.CanDecoder
import FsCore.DecodedDb
import FsCore.DecodeRun
import FsCore.PageReads
import FsCore.PageSamples
import FsCore.DecodeSteps
import FsCore.DecodeSamples
import FsCore.BitFields
import FsCore.ExtractSignal
import FsCore.DecodeBounds
import FsCore.PageCuts
import FsCore.DecodeTwice
import FsCore.DecodeFailure
import FsCore.SignalWrites
import FsCore.Failures
import FsCore.BatchFailure
import FsCore.FaultRuns
import FsCore.UpdateFailure
import FsCore.Chains
import FsCore.Rechaining
import FsCore.RenderedFrames
import FsCore.AscHeader
import FsCore.DeclaredBase
import FsCore.NumeralTokens
import FsCore.FrameFields
import FsCore.FrameNames
import FsCore.LetterCase
import FsCore.CaseLines
import FsCore.DataStore
import FsCore.DataPages
import FsCore.UpdateFrame
import FsCore.Metadata
import FsCore.MetadataLists
import FsCore.TimeSpan
import FsCore.Views
import FsCore.Identity
import FsCore.Pickle
import FsCore.SplitScan
import FsCore.StartTimes
import FsCore.Retries
import FsCore.Replace
import FsCore.Recovery
import FsCore.WholeDoubles
import FsCore.Captures
import FsCore.DateTimes
import FsCore.DateForms
import FsCore.MonthNames
import FsCore.DatedLogs
import FsCore.Ownership
import FsCore.Objects
import FsCore.Handles
import FsCore.Lifetimes
import FsCore.Connections
import FsCore.DatabaseLifetimes
import FsCore.Simulation
import FsCore.Codec
import FsCore.ByteLayout
import FsCore.MappedFiles
import FsCore.MappedSimulation
import FsCore.MappedHistories
import FsCore.BrowsedLogs
