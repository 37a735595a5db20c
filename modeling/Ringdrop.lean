import Ringdrop.Library.Interleaving
import Ringdrop.Core.ExportConfinement
import Ringdrop.Core.CatalogAudit
import Ringdrop.Daemon.ReceiveConfinement
import Ringdrop.Daemon.TagRetention
import Ringdrop.Daemon.RequestOutcome
import Ringdrop.Daemon.CleanShutdown
import Ringdrop.Core.CatalogTickets
import Ringdrop.Core.CatalogRoundTrip
import Ringdrop.Daemon.StartUp
import Ringdrop.Core.Resumption
import Ringdrop.Core.DirectoryRoundTrip
import Ringdrop.Core.GuardedDownload
import Ringdrop.Daemon.ReceiveOverlap
import Ringdrop.Cli.PathMeaning
import Ringdrop.Daemon.PeerRemoval
import Ringdrop.Daemon.FailedRemoval
import Ringdrop.Daemon.ReceiveLocation
import Ringdrop.Daemon.KnownMembers
import Ringdrop.Daemon.SharingInTurn
import Ringdrop.Core.FailingLookups
import Ringdrop.Daemon.InterruptedRemoval
import Ringdrop.Daemon.Nicknames
import Ringdrop.Daemon.BlobDeletion
import Ringdrop.Core.MigrationFailure
import Ringdrop.Core.RingPeers
import Ringdrop.Daemon.RequestLine
import Ringdrop.Core.TicketUri
import Ringdrop.Daemon.EventLines
import Ringdrop.Core.RemainingTime
import Ringdrop.Core.Config
import Ringdrop.Cli.RingExpiry
import Ringdrop.Daemon.KnownPeers
import Ringdrop.Core.Views
import Ringdrop.Core.Cells
import Ringdrop.Daemon.Footprint
import Ringdrop.Daemon.Authority
import Ringdrop.Daemon.CatalogDisclosure
import Ringdrop.Daemon.Delivery
import Ringdrop.Daemon.ClientStream
import Ringdrop.Daemon.Session
import Ringdrop.Cli.ReceiveDisplay
import Ringdrop.Daemon.RemoteListing
import Ringdrop.Core.Lasting
import Ringdrop.Daemon.LastingAccess
