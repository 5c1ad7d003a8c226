import GossipLedger.Catalog
import GossipLedger.Config
import GossipLedger.Control.Service
import GossipLedger.Digest
import GossipLedger.Json.Document
import GossipLedger.Json.Message
import GossipLedger.Json.Reader
import GossipLedger.Ledger.Basic
import GossipLedger.Ledger.Desk
import GossipLedger.Ledger.Mining
import GossipLedger.Net.PeerSet
import GossipLedger.Node.Registry
import GossipLedger.Proofs.Catalog
import GossipLedger.Proofs.Control.Requests
import GossipLedger.Proofs.Digest
import GossipLedger.Proofs.Keeper.Handling
import GossipLedger.Proofs.Keeper.LongestChain
import GossipLedger.Proofs.Keeper.Provenance
import GossipLedger.Proofs.Keeper.Publishing
import GossipLedger.Proofs.Keeper.Reach
import GossipLedger.Proofs.Keeper.Rejection
import GossipLedger.Proofs.Keeper.Rest
import GossipLedger.Proofs.Keeper.Tampering
import GossipLedger.Proofs.Ledger.Accounting
import GossipLedger.Proofs.Ledger.Arrivals
import GossipLedger.Proofs.Ledger.Attempts
import GossipLedger.Proofs.Ledger.Balances
import GossipLedger.Proofs.Ledger.Branches
import GossipLedger.Proofs.Ledger.Candidates
import GossipLedger.Proofs.Ledger.Confirmation
import GossipLedger.Proofs.Ledger.Contents
import GossipLedger.Proofs.Ledger.Coverage
import GossipLedger.Proofs.Ledger.LongestPaths
import GossipLedger.Proofs.Ledger.Outcomes
import GossipLedger.Proofs.Ledger.Overtaking
import GossipLedger.Proofs.Ledger.Restored
import GossipLedger.Proofs.Ledger.Retention
import GossipLedger.Proofs.Ledger.Search
import GossipLedger.Proofs.Ledger.Soundness
import GossipLedger.Proofs.Ledger.Steps
import GossipLedger.Proofs.Net.PeerList
import GossipLedger.Proofs.Network
import GossipLedger.Proofs.Node.Fleet
import GossipLedger.Proofs.Rumor.Answers
import GossipLedger.Proofs.Rumor.Conduct
import GossipLedger.Proofs.Rumor.Exchange
import GossipLedger.Proofs.Rumor.Laws
import GossipLedger.Proofs.Rumor.Probing
import GossipLedger.Proofs.Rumor.Reach
import GossipLedger.Proofs.Rumor.Relaying
import GossipLedger.Proofs.Rumor.Retries
import GossipLedger.Proofs.Rumor.Signals
import GossipLedger.Proofs.Rumor.Store
import GossipLedger.Proofs.Rumor.Sweeping
import GossipLedger.Proofs.Rumor.Turns
import GossipLedger.Proofs.Rumor.Ways
import GossipLedger.Proofs.Swarm.Agreement
import GossipLedger.Proofs.Swarm.Eviction
import GossipLedger.Proofs.Swarm.History
import GossipLedger.Proofs.Swarm.Notes
import GossipLedger.Proofs.Swarm.Numbering
import GossipLedger.Proofs.Swarm.Relay
import GossipLedger.Proofs.Wire.Contents
import GossipLedger.Proofs.Wire.RoundTrip
import GossipLedger.Proofs.Wire.Size
import GossipLedger.Rumor.Hub
import GossipLedger.Time.Text
import GossipLedger.Wire.Codec
