import N42.Safety.CrashSafety
import N42.Safety.ViewEntry
import N42.Safety.ChainAgreement
import N42.Safety.Accountability
import N42.Safety.ExactAuthority
import N42.Safety.CommittedChanges
import N42.Safety.NoHalfCommit
import N42.Safety.SnapshotClosure
import N42.Safety.BatchVotes
import N42.Bmt.Canonical
import N42.Stm.Coinbase
import N42.Sidecar.Delivery
import N42.Mobile.PacketLoop
import N42.Mobile.Progress
import N42.Staking.Payments
import N42.Decision.Solvency
import N42.Staking.Registry
import N42.Range.Binding
import N42.H2.Lossless
import N42.Protocol.Collectors
import N42.Tx.Attested
import N42.Validator.History
import N42.Safety.RelayTarget
import N42.Validator.Staging
import N42.Safety.ImportEvidence
import N42.Service.Lanes
import N42.Service.Peers
import N42.Service.Ingest
import N42.Committee.Rotor
import N42.Twig.AccountValue
