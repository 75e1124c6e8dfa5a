import Ttracker.TransitionRuns
import Ttracker.CLibrary
import Ttracker.LinkedNodes
import Ttracker.ObjectPools
import Ttracker.BoundedPrint
import Ttracker.HttpQuery
import Ttracker.PeerRequest
import Ttracker.RequestCopies
import Ttracker.Torrents
import Ttracker.PeerListReply
import Ttracker.TorrentCache
import Ttracker.RetryLoops
import Ttracker.DatabaseLookups
import Ttracker.AnnounceHandler
import Ttracker.AnnounceRaces
import Ttracker.PeerCounters
import Ttracker.AnnouncedPeers
import Ttracker.ScrapeHandler
import Ttracker.InfoHashKeys
import Ttracker.SharedTorrents
import Ttracker.Holdings
import Ttracker.ServerThreads
import Ttracker.PoolJoins
import Ttracker.WorkLists
import Ttracker.Shutdown
import Ttracker.CompletedDownloads
import Ttracker.AnnouncedNumbers
import Ttracker.SignalledLists
import Ttracker.WorkQueues
import Ttracker.Buffers
import Ttracker.PoolCallers
import Ttracker.SharedPools
import Ttracker.Serving
import Ttracker.BufferBound
import Ttracker.ConnectionReleases
import Ttracker.JobsWorking
import Ttracker.Bencode
import Ttracker.AnnounceReplies
import Ttracker.ScrapeText
import Ttracker.ScrapeReplies
import Ttracker.QueryReadings
import Ttracker.QueryMemory
import Ttracker.BufferTexts
import Ttracker.HttpMessages
import Ttracker.HttpResponses
import Ttracker.MeasuredPrints
import Ttracker.BencodeTrees
import Ttracker.PeerEncoders
import Ttracker.DrainingRuns
import Ttracker.ServerLoad
import Ttracker.ShutdownEnds
import Ttracker.ConnectionOrder
import Ttracker.PoolSignals
import Ttracker.PoolWakeups
import Ttracker.OwnedBlocks
import Ttracker.BencodeMemory
import Ttracker.ServedRequests
import Ttracker.RequestFaults
import Ttracker.HeapLists
import Ttracker.RequestMemory
import Ttracker.ServedMemory
import Ttracker.FirstMatches
import Ttracker.Swarms
import Ttracker.TrackerRefinement
import Ttracker.Linearizations
import Ttracker.AnnounceSteps
import Ttracker.AnnounceAnswers
import Ttracker.ConcurrentAnnounces
import Ttracker.DividedStops
