import StrangeIO.Transition
import StrangeIO.CacheManager
import StrangeIO.CacheLoops
import StrangeIO.CacheTable
import StrangeIO.CacheHeap
import StrangeIO.CacheLaws
import StrangeIO.CacheOwnership
import StrangeIO.OwnershipLaws
import StrangeIO.Profile
import StrangeIO.Unit
import StrangeIO.Backend
import StrangeIO.SyncFrame
import StrangeIO.CycleFrame
import StrangeIO.SyncPass
import StrangeIO.GlobalSync
import StrangeIO.SyncAgreement
import StrangeIO.Desk
import StrangeIO.LineState
import StrangeIO.LineLaws
import StrangeIO.RackLoop
import StrangeIO.WakeUp
import StrangeIO.LockDiscipline
import StrangeIO.SyncRequests
import StrangeIO.LostRequests
import StrangeIO.BoundedQueue
import StrangeIO.Circular
import StrangeIO.CircularQueue
import StrangeIO.CircularLaws
import StrangeIO.CacheBlock
import StrangeIO.DispatchProfile
import StrangeIO.Flow
import StrangeIO.CycleFlow
import StrangeIO.CombineFlow
import StrangeIO.FlushState
import StrangeIO.WorkQueue
import StrangeIO.PackageOrder
import StrangeIO.PackageRuns
import StrangeIO.StrandedPackages
import StrangeIO.EventLoop
import StrangeIO.Linked
import StrangeIO.EventCycle
import StrangeIO.EventMessages
import StrangeIO.EventDelivery
import StrangeIO.CacheFirstFit
import StrangeIO.CacheOrder
import StrangeIO.LinkGraph
import StrangeIO.Mount
import StrangeIO.Mainlines
import StrangeIO.CycleResult
import StrangeIO.Warmup
import StrangeIO.Building
import StrangeIO.Document
import StrangeIO.RackElement
import StrangeIO.Independence
import StrangeIO.Assemblable
import StrangeIO.LinkOrder
import StrangeIO.SyncReach
import StrangeIO.UpstreamFrame
import StrangeIO.CombineInputs
import StrangeIO.KickOff
import StrangeIO.JumpCount
import StrangeIO.LineProfile
import StrangeIO.CircularIndex
import StrangeIO.CircularReserve
import StrangeIO.CircularAt
import StrangeIO.Delay
import StrangeIO.CacheSwap
import StrangeIO.CacheCounts
import StrangeIO.Disconnect
import StrangeIO.FillLine
import StrangeIO.LoadDefaults
import StrangeIO.MidiRoutes
import StrangeIO.UnitEntries
import StrangeIO.Registry
import StrangeIO.UnitMetrics
import StrangeIO.Moves
import StrangeIO.Sound
import StrangeIO.CacheLayout
import StrangeIO.LinkBounds
import StrangeIO.PoolBounds
import StrangeIO.CacheTracking
import StrangeIO.LostBlocks
import StrangeIO.Picojson
import StrangeIO.PicojsonInput
import StrangeIO.PicojsonStrings
import StrangeIO.PicojsonValues
import StrangeIO.PicojsonText
import StrangeIO.PicojsonWriter
import StrangeIO.PackageFate
import StrangeIO.QueueProgress
import StrangeIO.EventService
import StrangeIO.EventServed
import StrangeIO.EventUnserved
import StrangeIO.EventAtRest
import StrangeIO.AssembledRack
import StrangeIO.LedRoutes
import StrangeIO.MidiThread
import StrangeIO.PicojsonCut
import StrangeIO.Scheduled
