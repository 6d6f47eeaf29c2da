import LazyFS.MachineWords
import LazyFS.SlotTable
import LazyFS.LinkedCells
import LazyFS.PosixStore
import LazyFS.GuardedRun
import LazyFS.PathNames
import LazyFS.PatternParser
import LazyFS.PatternAcceptance
import LazyFS.FileOperations
import LazyFS.ContentReads
import LazyFS.StaleMemory
import LazyFS.SlicedReads
import LazyFS.ServedRequests
import LazyFS.SafeRuns
import LazyFS.StoredKeys
import LazyFS.ErrorReports
import LazyFS.SizeHistory
import LazyFS.PatternLaw
import LazyFS.DirectoryListing
import LazyFS.FailedRequests
import LazyFS.RealFiles
import LazyFS.OpenFlags
import LazyFS.OpenHandles
import LazyFS.Teardown
import LazyFS.CloseDiscipline
import LazyFS.ByteRecords
import LazyFS.MetaDatabase
import LazyFS.DatabaseRoundTrip
import LazyFS.SavedDatabase
import LazyFS.DamagedFiles
import LazyFS.TextDatabase
import LazyFS.FailedPersist
import LazyFS.CompactSizes
import LazyFS.RestoredNames
import LazyFS.MockPatterns
import LazyFS.MockContents
import LazyFS.Timelines
import LazyFS.SchedulerAccounting
import LazyFS.IndexedLoops
import LazyFS.SeparatedWords
import LazyFS.ProcFiles
import LazyFS.ResourceMonitor
import LazyFS.SamplingSweeps
import LazyFS.MonitorExit
import LazyFS.PythonFloats
import LazyFS.UnfoundProcesses
import LazyFS.UsageLog
import LazyFS.UsageRates
import LazyFS.MemoryRegions
import LazyFS.LinkedChains
import LazyFS.HashTable
import LazyFS.SortedPiles
import LazyFS.ChainLoad
import LazyFS.HashLayout
import LazyFS.HashQueries
import LazyFS.HashExpansion
import LazyFS.HashUpdates
import LazyFS.HashDeletion
import LazyFS.JenkinsHash
import LazyFS.StepSimulation
import LazyFS.PointerOperations
import LazyFS.HashFrames
import LazyFS.HashGuarantees
import LazyFS.TableRefinement
import LazyFS.RequestRefinement
import LazyFS.TableRuns
import LazyFS.RingHistory
import LazyFS.UtilizationPlot
import LazyFS.ProcessTracking
import LazyFS.ReadRates
import LazyFS.GroupShutdown
import LazyFS.ShutdownRuns
import LazyFS.FreshDraws
import LazyFS.MockSupply
import LazyFS.ListingOrder
import LazyFS.MonitorRounds
import LazyFS.TextRoundTrip
import LazyFS.SaveHistory
import LazyFS.UnfoundProcesses
