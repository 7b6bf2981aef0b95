import ConsensusDB.Mediation
import ConsensusDB.WriteGuards
import ConsensusDB.PolicyService
import ConsensusDB.VerifyBackup
import ConsensusDB.SingleNode
import ConsensusDB.Versions
import ConsensusDB.Sweep
import ConsensusDB.Cluster
import ConsensusDB.BackupStream
import ConsensusDB.RestoreStream
import ConsensusDB.Bootstrap
import ConsensusDB.History
import ConsensusDB.Aliasing
import ConsensusDB.Attestation
import ConsensusDB.DumpReader
import ConsensusDB.Tampering
import ConsensusDB.DumpSafety
import ConsensusDB.Bindings
import ConsensusDB.PolicyWatch
import ConsensusDB.Lib.Tables
import ConsensusDB.Evaluation
import ConsensusDB.Setup
import ConsensusDB.SetupFailure
import ConsensusDB.Selection
import ConsensusDB.Enumeration
import ConsensusDB.WatchReplay
import ConsensusDB.Rows
import ConsensusDB.Atomicity
import ConsensusDB.Counters
import ConsensusDB.Conditional
import ConsensusDB.Lib.Url
import ConsensusDB.Certificates
import ConsensusDB.JoinTokens
import ConsensusDB.NodeCertificates
import ConsensusDB.Administration
import ConsensusDB.Credentials
import ConsensusDB.Lib.Serial
import ConsensusDB.PolicyUpdates
import ConsensusDB.Purge
import ConsensusDB.Lib.Slices
import ConsensusDB.BindingSets
import ConsensusDB.QuorumBuild
import ConsensusDB.Materials
import ConsensusDB.Reclaim
import ConsensusDB.Lib.Values
import ConsensusDB.Codecs
import ConsensusDB.Redelivery
import ConsensusDB.Authority
import ConsensusDB.AdminStreams
import ConsensusDB.Recovery
import ConsensusDB.Lib.Linear
import ConsensusDB.Linearizability
