import TransportStream.Main
import TransportStream.Pacing
import TransportStream.Proofs.Section.Bursts
import TransportStream.Proofs.Packing.Economy
import TransportStream.Proofs.Packing.Layout
import TransportStream.Proofs.Transfer.RoundTrip
import TransportStream.Proofs.Table.Completion
import TransportStream.Proofs.Demux.Contributors
import TransportStream.Proofs.Demux.Pending
import TransportStream.Proofs.Demux.Repetitions
import TransportStream.Proofs.Listing.Output
import TransportStream.Proofs.Ring.Metering
import TransportStream.Proofs.Table.Orders
import TransportStream.Proofs.Demux.Refusals
import TransportStream.Proofs.Ring.Batches
import TransportStream.Proofs.Ring.WindowSize
import TransportStream.Proofs.Bitrate.Rolling
import TransportStream.Proofs.Bitrate.SteadyRate
import TransportStream.Proofs.Pacing.Acceleration
import TransportStream.Proofs.Pacing.Phases
import TransportStream.Proofs.Pacing.Limits
import TransportStream.Proofs.Pacing.Backlogs
import TransportStream.Proofs.Packet.Partition
import TransportStream.Proofs.Packet.Clock
import TransportStream.Proofs.Packet.Writes
import TransportStream.Proofs.Pacing.Averages
import TransportStream.Proofs.Demux.Fragments
import TransportStream.Proofs.Section.Residue
