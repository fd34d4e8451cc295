import Motmot.System.Schedule
import Motmot.Proofs.Containers.Ilist
import Motmot.Proofs.Paxos.Lasting
import Motmot.Proofs.Paxos.Selection
import Motmot.Proofs.Paxos.Advance
import Motmot.Proofs.Paxos.Dropped
import Motmot.Proofs.Paxos.Peer
import Motmot.Proofs.Paxos.Count
import Motmot.Proofs.Paxos.Contact
import Motmot.Proofs.Paxos.Election
import Motmot.Proofs.Paxos.Fealty
import Motmot.Proofs.Paxos.Stall
import Motmot.Proofs.Paxos.Bids
import Motmot.Proofs.Paxos.Supply
import Motmot.Proofs.System.Membership
import Motmot.Proofs.System.Validity
import Motmot.Proofs.Types.SessionList
import Motmot.Proofs.Types.Containers
import Motmot.Proofs.Plume.Consent
import Motmot.Proofs.Plume.Failures
import Motmot.Proofs.Plume.Reciprocity
import Motmot.Proofs.Plume.Pushes
import Motmot.Proofs.Paxos.Framing
import Motmot.Proofs.Paxos.Link
import Motmot.Proofs.Turquoise.Statuses
import Motmot.Proofs.Turquoise.Calls
import Motmot.Proofs.System.Progress
