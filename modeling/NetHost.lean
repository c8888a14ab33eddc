import NetHost.Http.Percent
import NetHost.Http.Client
import NetHost.Icmp.Engine.Call
import NetHost.Proofs.Text.Numeral
import NetHost.Proofs.Http.Pieces
import NetHost.Proofs.Http.OneShot
import NetHost.Proofs.Icmp.Conservation
import NetHost.Proofs.Icmp.Ownership
import NetHost.Proofs.Http.ChunkGrammar
import NetHost.Proofs.Http.Lines
import NetHost.Proofs.Http.Framing
import NetHost.Proofs.Http.RoundTrip
import NetHost.Proofs.Icmp.Blocking
import NetHost.Proofs.Icmp.BlockingPing
import NetHost.Proofs.Http.Calls
import NetHost.Proofs.Http.Budget
import NetHost.Proofs.Http.WireForm
import NetHost.Proofs.Icmp.Tries
import NetHost.Proofs.Icmp.Schedule
import NetHost.Proofs.Checksum
import NetHost.Proofs.Icmp.Integrity
import NetHost.Proofs.Icmp.Quoting
import NetHost.Proofs.Http.Timing
import NetHost.Proofs.Http.Connection
import NetHost.Proofs.Icmp.Loopback
import NetHost.Proofs.Icmp.DistinctKeys
import NetHost.Proofs.Icmp.StaleRuns
import NetHost.Proofs.Icmp.RoundTrips
import NetHost.Proofs.Icmp.Sweeps
import NetHost.Proofs.Http.AnnouncedLength
import NetHost.Proofs.Icmp.Writing
import NetHost.Proofs.Icmp.Inbound
import NetHost.Proofs.Http.UrlGrammar
import NetHost.Proofs.Http.Percent
import NetHost.Proofs.Icmp.PendingBag
import NetHost.Proofs.Icmp.Refusals
