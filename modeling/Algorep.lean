import Algorep.Proofs.ConsensusSteps
import Algorep.Proofs.AcceptorRounds
import Algorep.Proofs.Quorums
import Algorep.Proofs.Recorded
import Algorep.Proofs.Provenance
import Algorep.Proofs.LearnedValue
import Algorep.Kit.Before
import Algorep.Proofs.PromisedRounds
import Algorep.Kit.Counting
import Algorep.Proofs.CountedAccepts
import Algorep.Proofs.Deliveries
import Algorep.Proofs.ExactlyOnce
import Algorep.Proofs.LogAgreement
import Algorep.Proofs.Phases
import Algorep.Proofs.WellTimed
import Algorep.Proofs.SuccessiveLeaders
import Algorep.Program.Server
import Algorep.Proofs.ServerSteps
import Algorep.Proofs.AcknowledgedValues
import Algorep.Kit.Replica
import Algorep.Proofs.FixedLeader
import Algorep.Proofs.FollowerSteps
import Algorep.Proofs.LeaderSteps
import Algorep.Proofs.Replication
import Algorep.Proofs.RecoveredLogs
import Algorep.Proofs.CountedPromises
import Algorep.Proofs.AcceptorMemory
import Algorep.Proofs.UndisturbedRounds
import Algorep.Proofs.OwnVote
import Algorep.Kit.Clocked
import Algorep.Proofs.RoundIds
import Algorep.Proofs.ElectionSteps
import Algorep.Proofs.LeaderReplicates
import Algorep.Proofs.Standstill
import Algorep.Proofs.AliveWaits
import Algorep.Proofs.DeposedLeader
import Algorep.Proofs.ElectionAgreement
import Algorep.Program.Client
import Algorep.Proofs.ClientTurns
import Algorep.Proofs.CommandCounts
import Algorep.Program.Shutdown
import Algorep.Proofs.ShutdownWave
import Algorep.Proofs.RecoverySteps
import Algorep.Proofs.RecoveryIds
import Algorep.Program.Startup
import Algorep.Proofs.SessionLock
import Algorep.Kit.Projection
import Algorep.Program.Heartbeat
import Algorep.Proofs.Suspicions
import Algorep.Proofs.LivenessTables
import Algorep.Program.Json
import Algorep.Proofs.JsonRoundTrip
import Algorep.Program.Wire
import Algorep.Program.Service
import Algorep.Proofs.WireSurvival
import Algorep.Proofs.ServiceSteps
import Algorep.Proofs.ReplicatedCommands
import Algorep.Program.Reception
import Algorep.Proofs.FirstGoodMessage
import Algorep.Proofs.PromiseOrder
import Algorep.Proofs.Responses
import Algorep.Program.Repl
import Algorep.Proofs.ReplLines
import Algorep.Program.PortRing
import Algorep.Proofs.ExchangedPorts
import Algorep.Program.LogFile
import Algorep.Proofs.LogSnapshots
import Algorep.Proofs.HandledFailures
import Algorep.Proofs.HeldMessages
import Algorep.Kit.Potential
import Algorep.Proofs.ElectionCascade
import Algorep.Program.Lifecycle
import Algorep.Proofs.JoinedReceivers
import Algorep.Proofs.BlockedShutdown
import Algorep.Proofs.LifecycleSteps
import Algorep.Kit.Cells
import Algorep.Program.PeerTables
import Algorep.Proofs.PeerIndexing
import Algorep.Proofs.PeerViews
import Algorep.Proofs.Origins
import Algorep.Proofs.SubmittedData
import Algorep.Proofs.SubmittedValues
import Algorep.Kit.Refinement
import Algorep.Program.Text
import Algorep.Program.Packets
import Algorep.Proofs.PacketReading
import Algorep.Proofs.PacketRefinement
import Algorep.Kit.Hosting
import Algorep.Proofs.HostedConsensus
import Algorep.Proofs.AnsweredRequests
import Algorep.Proofs.TimelyHeartbeats
import Algorep.Proofs.ServedTexts
import Algorep.Program.Controlled
import Algorep.Proofs.ControlledServers
import Algorep.Proofs.CrashedServers
import Algorep.Kit.Tail
import Algorep.Program.Console
import Algorep.Proofs.ObeyedCommands
import Algorep.Program.TurnFile
import Algorep.Kit.Lockstep
import Algorep.Proofs.TurnBytes
