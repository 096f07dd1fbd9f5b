import TrustAlloc.AddressConversions
import TrustAlloc.BridgeHandshake
import TrustAlloc.CapabilityTopics
import TrustAlloc.CapabilityViews
import TrustAlloc.CertificateGrammar
import TrustAlloc.ChallengeRounds
import TrustAlloc.ChallengeScores
import TrustAlloc.ChallengeSolving
import TrustAlloc.ChallengerEdges
import TrustAlloc.ClientAcks
import TrustAlloc.CryptoWorkers
import TrustAlloc.EdgeAvailability
import TrustAlloc.EdgeBridge
import TrustAlloc.EdgeFollowers
import TrustAlloc.EdgeFrames
import TrustAlloc.EdgeNode
import TrustAlloc.EdgeNodeRuns
import TrustAlloc.EdgePings
import TrustAlloc.HmmCodec
import TrustAlloc.InteractionHistoryBytes
import TrustAlloc.KeyRequests
import TrustAlloc.KeystoreContexts
import TrustAlloc.KeystorePressure
import TrustAlloc.KeystoreProgress
import TrustAlloc.LimbConversion
import TrustAlloc.MismatchedCertificates
import TrustAlloc.Monitoring
import TrustAlloc.MqttCoapBridge
import TrustAlloc.OscoreContexts
import TrustAlloc.PeerReferences
import TrustAlloc.PeerRemoval
import TrustAlloc.PeerReports
import TrustAlloc.ProportionalChoice
import TrustAlloc.RootKeystore
import TrustAlloc.RouteChunks
import TrustAlloc.RouteLimits
import TrustAlloc.RoutingTask
import TrustAlloc.Signer
import TrustAlloc.StereotypeRequests
import TrustAlloc.StereotypeServer
import TrustAlloc.SubmissionReports
import TrustAlloc.TaskResponseRuns
import TrustAlloc.Throughput
import TrustAlloc.TrustAuthenticity
import TrustAlloc.TrustMonotonicity
import TrustAlloc.TrustRoundTrip
import TrustAlloc.TrustUpdates
import TrustAlloc.TrustValueRuns
