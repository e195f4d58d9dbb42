import NeroConsensus.Primary.Backing
import NeroConsensus.Primary.TallyExactness
import NeroConsensus.Primary.Panics
import NeroConsensus.Primary.ProofMeaning
import NeroConsensus.Primary.Certificates
import NeroConsensus.Primary.OwnVotes
import NeroConsensus.Primary.Layout
import NeroConsensus.Primary.Stakes
import NeroConsensus.Protocol.Authenticity
import NeroConsensus.Protocol.CastingValidating
import NeroConsensus.Protocol.Agreement
import NeroConsensus.Protocol.Validity
import NeroConsensus.Protocol.RoundDiscipline
import NeroConsensus.Protocol.Delivery
import NeroConsensus.Protocol.FastPath
import NeroConsensus.Protocol.DecisionRounds
import NeroConsensus.Protocol.Indecision
import NeroConsensus.Primary.Independence
import NeroConsensus.Primary.Relaying
import NeroConsensus.Primary.Pending
import NeroConsensus.Primary.Verdicts
import NeroConsensus.Primary.Redelivery
import NeroConsensus.Primary.ByzantineVotes
import NeroConsensus.Primary.ByzantineNode
import NeroConsensus.Config.Thresholds
import NeroConsensus.Config.KeyFiles
import NeroConsensus.Network.Acknowledgement
import NeroConsensus.Network.Backoff
import NeroConsensus.Network.SimpleSender
import NeroConsensus.Store.History
import NeroConsensus.Store.FailedWrites
import NeroConsensus.Store.Clients
import NeroConsensus.Crypto.SignatureService
import NeroConsensus.Simulation.Validity
import NeroConsensus.Primary.Wire
import NeroConsensus.Deployment.Ordering
import NeroConsensus.Deployment.Completion
import NeroConsensus.Deployment.Isolation
