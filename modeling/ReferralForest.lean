import ReferralForest.Forest.Invitation
import ReferralForest.Forest.NetValue
import ReferralForest.Forest.Reservoir
import ReferralForest.Forest.Audit
import ReferralForest.Store.Memory
import ReferralForest.Store.Persistent
import ReferralForest.Store.Script
import ReferralForest.Proofs.Evaluation
import ReferralForest.Proofs.Footprint
import ReferralForest.Proofs.HeapOrder
import ReferralForest.Proofs.HeapStore
import ReferralForest.Proofs.Atomicity
import ReferralForest.Proofs.Run
import ReferralForest.Proofs.HeapInvariant
import ReferralForest.Proofs.Sampling
import ReferralForest.Proofs.Draws
import ReferralForest.Proofs.Indexes
import ReferralForest.Proofs.Ancestry
import ReferralForest.Proofs.CreditWalk
import ReferralForest.Proofs.Ledger
import ReferralForest.Proofs.Withdrawals
import ReferralForest.Proofs.Roster
import ReferralForest.Proofs.LiveReferrals
import ReferralForest.Proofs.Acyclicity
import ReferralForest.Proofs.Scans
import ReferralForest.Proofs.AuditReport
import ReferralForest.Proofs.Agreement
import ReferralForest.Proofs.Failures
import ReferralForest.Proofs.PrivateCopy
import ReferralForest.Proofs.Engines
import ReferralForest.Proofs.Stamps
import ReferralForest.Proofs.Directories
import ReferralForest.Proofs.Databases
import ReferralForest.Proofs.Sessions
import ReferralForest.Proofs.Reopening
import ReferralForest.Proofs.Codes
import ReferralForest.Proofs.CreditOutcome
import ReferralForest.Proofs.RankOrder
import ReferralForest.Proofs.PriorityQueue
import ReferralForest.Proofs.Independence
import ReferralForest.Proofs.Restoration
import ReferralForest.Proofs.Verdict
import ReferralForest.Proofs.CreditOrder
import ReferralForest.Proofs.UpperBounds
import ReferralForest.Proofs.NetValueList
import ReferralForest.Proofs.RecordLayout
import ReferralForest.Proofs.TicketLayout
import ReferralForest.Proofs.LogarithmAccuracy
import ReferralForest.Proofs.ConfigurationText
import ReferralForest.Proofs.KeySchema
