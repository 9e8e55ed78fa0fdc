import BlockAgreement.Cluster
import BlockAgreement.Crypto.Standard
import BlockAgreement.Queries
import BlockAgreement.Text.Hex
import BlockAgreement.Proofs.Network.Locks
import BlockAgreement.Proofs.Replica.OwnVotes
import BlockAgreement.Proofs.Governance.Departures
import BlockAgreement.Proofs.Replica.Leftovers
import BlockAgreement.Proofs.Replica.Undoing
import BlockAgreement.Proofs.Replica.Acceptance
import BlockAgreement.Proofs.Validator.Numbering
import BlockAgreement.Proofs.Replica.LastRound
import BlockAgreement.Proofs.Replica.Answers
import BlockAgreement.Proofs.Validator.Spreading
import BlockAgreement.Proofs.Replica.Priority
import BlockAgreement.Proofs.Governance.Parts
import BlockAgreement.Proofs.Committee.Membership
import BlockAgreement.Proofs.Wire.Binding
import BlockAgreement.Proofs.Validator.Timeouts
import BlockAgreement.Proofs.Replica.Consistency
import BlockAgreement.Proofs.Replica.RoundCounts
import BlockAgreement.Proofs.Validator.Announcements
import BlockAgreement.Proofs.Replica.FirstMessages
