import ServiceDirectory.Cluster.Schedule
import ServiceDirectory.Main
import ServiceDirectory.Proofs.Order
import ServiceDirectory.Proofs.Settle
import ServiceDirectory.Proofs.Entry
import ServiceDirectory.Proofs.Medium
import ServiceDirectory.Proofs.Network
import ServiceDirectory.Proofs.Convergence
import ServiceDirectory.Proofs.LocalWrites
import ServiceDirectory.Proofs.Operation
import ServiceDirectory.Proofs.Acknowledged
import ServiceDirectory.Proofs.Tombstone
import ServiceDirectory.Proofs.Delivery
import ServiceDirectory.Proofs.MutualSync
import ServiceDirectory.Proofs.Authored
import ServiceDirectory.Proofs.Restart
import ServiceDirectory.Proofs.Engine
import ServiceDirectory.Proofs.Sweep
import ServiceDirectory.Proofs.Collection
import ServiceDirectory.Proofs.LastWrite
import ServiceDirectory.Proofs.Service
import ServiceDirectory.Proofs.Faults
import ServiceDirectory.Proofs.Listing
import ServiceDirectory.Proofs.Announcement
import ServiceDirectory.Proofs.Replacement
import ServiceDirectory.Proofs.Withdrawal
import ServiceDirectory.Proofs.Registry
import ServiceDirectory.Proofs.Exchange
import ServiceDirectory.Proofs.Reannouncement
import ServiceDirectory.Proofs.Merge
import ServiceDirectory.Proofs.RoundTrip
import ServiceDirectory.Proofs.Request
import ServiceDirectory.Proofs.Registration
import ServiceDirectory.Proofs.Halfway
import ServiceDirectory.Proofs.Query
import ServiceDirectory.Proofs.Refusal
import ServiceDirectory.Proofs.Candidates
import ServiceDirectory.Proofs.Wire
import ServiceDirectory.Proofs.Outbox
import ServiceDirectory.Proofs.Outbound
import ServiceDirectory.Proofs.Accounting
import ServiceDirectory.Proofs.Resolution
import ServiceDirectory.Proofs.Layout
import ServiceDirectory.Proofs.Background
import ServiceDirectory.Proofs.Expiry
import ServiceDirectory.Proofs.Reachability
import ServiceDirectory.Proofs.Tidings
