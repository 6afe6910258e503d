import Ashttpd.TrieBuilder
import Ashttpd.Bisection
import Ashttpd.TrieRadix
import Ashttpd.TrieLayout
import Ashttpd.TrieRecords
import Ashttpd.Webroot
import Ashttpd.TrieRoundTrip
import Ashttpd.TrieWide
import Ashttpd.HeadScan
import Ashttpd.HttpReq
import Ashttpd.HeadAgreement
import Ashttpd.RequestHeaders
import Ashttpd.InPlaceRewriting
import Ashttpd.Normalize
import Ashttpd.UriPasses
import Ashttpd.PathSegments
import Ashttpd.CanonicalPath
import Ashttpd.PublishedUris
import Ashttpd.Connection
import Ashttpd.FileIo
import Ashttpd.GuardedRuns
import Ashttpd.HttpConn
import Ashttpd.Responding
import Ashttpd.BodyStream
import Ashttpd.BodyRuns
import Ashttpd.SyncResponse
import Ashttpd.RequestFrame
import Ashttpd.Pipelining
import Ashttpd.StrongEtags
import Ashttpd.BitTrees
import Ashttpd.CritBit
import Ashttpd.CritBitMap
import Ashttpd.Vhosts
import Ashttpd.References
import Ashttpd.VhostTable
import Ashttpd.VhostEvents
import Ashttpd.VhostWatch
import Ashttpd.VhostFollow
import Ashttpd.EventLoop
import Ashttpd.NbioCalls
import Ashttpd.Epoll
import Ashttpd.EpollRuns
import Ashttpd.Poll
import Ashttpd.PollRuns
import Ashttpd.LoopPasses
import Ashttpd.ConnectionStates
import Ashttpd.ConnectionWrites
import Ashttpd.Answers
import Ashttpd.ConnectionReads
import Ashttpd.ConnectionRuns
import Ashttpd.ConnPool
import Ashttpd.Teardown
import Ashttpd.WebrootRefs
import Ashttpd.WebrootUse
import Ashttpd.Site
import Ashttpd.SiteRefs
import Ashttpd.SiteRuns
import Ashttpd.CritBitDelete
import Ashttpd.CritBitInsert
import Ashttpd.HeadChunks
import Ashttpd.HeadDecoding
import Ashttpd.QueuedAnswers
import Ashttpd.FailedPasses
import Ashttpd.RejectedUris
import Ashttpd.BlankLines
import Ashttpd.HeadFraming
import Ashttpd.WebrootBinding
import Ashttpd.AioCallbacks
import Ashttpd.AioInFlight
import Ashttpd.Listeners
import Ashttpd.ParkedListeners
import Ashttpd.DamagedWebroots
import Ashttpd.LinkedUris
import Ashttpd.NumericHeaders
import Ashttpd.VhostPorts
import Ashttpd.HexDecoding
import Ashttpd.Utf8Sequences
import Ashttpd.Utf8Tables
import Ashttpd.OverlongAscii
import Ashttpd.NulBytes
import Ashttpd.LocalPasses
import Ashttpd.PartialTries
import Ashttpd.ResponseBuffers
import Ashttpd.BufferPointers
import Ashttpd.Fobuf
import Ashttpd.SymlinkTargets
import Ashttpd.RandomBits
import Ashttpd.Calendar
import Ashttpd.LastModified
import Ashttpd.ThreadedLists
import Ashttpd.Hgang
import Ashttpd.RedBlackTrees
import Ashttpd.Rbtree
import Ashttpd.RbtreeInsert
import Ashttpd.RbtreeRebalance
import Ashttpd.RbtreeDelete
import Ashttpd.Fsck
import Ashttpd.FsckEntries
import Ashttpd.FsckHistograms
import Ashttpd.IntrusiveLists
import Ashttpd.TrieHeap
import Ashttpd.RadixLinks
import Ashttpd.LayoutLinks
import Ashttpd.BreadthFirstLayout
import Ashttpd.DeepTries
import Ashttpd.BlockStreams
import Ashttpd.SecureHash
import Ashttpd.ByteImages
import Ashttpd.Sha1
import Ashttpd.Sha1Rounds
import Ashttpd.Sha1Stream
import Ashttpd.MkrootWriter
import Ashttpd.WrittenRecords
import Ashttpd.ScanInvariant
import Ashttpd.WebrootImage
import Ashttpd.WebrootReading
import Ashttpd.MkrootRoundTrip
import Ashttpd.WriterProgress
import Ashttpd.MkrootProgress
import Ashttpd.PublishedTrees
import Ashttpd.WebrootRoundTrip
import Ashttpd.WireRuns
import Ashttpd.Sessions
import Ashttpd.ServedTrees
import Ashttpd.StreamReaders
import Ashttpd.HttpResp
import Ashttpd.ResponseHeads
import Ashttpd.ClientReads
import Ashttpd.ClientViews
