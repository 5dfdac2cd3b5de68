import Ipotane.Lib.Map
import Ipotane.Lib.Quorum
import Ipotane.Lib.Election
import Ipotane.Lib.Handler
import Ipotane.Lib.History
import Ipotane.Lib.Fuel
import Ipotane.Crypto
import Ipotane.Config
import Ipotane.Messages
import Ipotane.Aggregator
import Ipotane.Leader
import Ipotane.Core.State
import Ipotane.Core.Hotstuff
import Ipotane.Core.Fallback
import Ipotane.Core.Smvba
import Ipotane.Core.Run
import Ipotane.Core.Spec
import Ipotane.Core.Step
import Ipotane.Core.Mono
import Ipotane.Core.Chain
import Ipotane.Core.ChainOpt
import Ipotane.Core.ChainPes
import Ipotane.Core.ChainSmvba
import Ipotane.Core.Ending
import Ipotane.Core.Trace
import Ipotane.Core.Record
import Ipotane.Core.Effect
import Ipotane.Core.Tables
import Ipotane.Symbolic
import Ipotane.Certificates
import Ipotane.Isolation
import Ipotane.System
import Ipotane.Replay
import Ipotane.Votes
import Ipotane.Vetting
import Ipotane.Prepares
import Ipotane.Mvotes
import Ipotane.Members
import Ipotane.Authenticity
import Ipotane.Signers
import Ipotane.Endorsements
import Ipotane.FastPath
import Ipotane.Agreement
import Ipotane.EpochChange
import Ipotane.Values
import Ipotane.Coins
import Ipotane.Commits
import Ipotane.Terminations
import Ipotane.Ancestors
import Ipotane.Proposals
import Ipotane.Timers
import Ipotane.Bounds
import Ipotane.Assembly
import Ipotane.Evidence
import Ipotane.Mempool
import Ipotane.Passive
import Ipotane.Strangers
import Ipotane.Availability
import Ipotane.Provenance
import Ipotane.Epochs
import Ipotane.Tallies
import Ipotane.Core.Append
import Ipotane.Rejections
import Ipotane.Deferrals
import Ipotane.Intake
import Ipotane.Retry
import Ipotane.Resume
import Ipotane.Equivocation
import Ipotane.Branches
import Ipotane.Chains
import Ipotane.Hotstuff
import Ipotane.Polls
import Ipotane.Acceptance
import Ipotane.Ledger
import Ipotane.Draws
import Ipotane.Faults
import Ipotane.Makers
import Ipotane.Schedule
import Ipotane.StoreTask
import Ipotane.Payloads
import Ipotane.Keys
import Ipotane.Queues
import Ipotane.Network
import Ipotane.Upkeep
import Ipotane.Cluster
import Ipotane.Locks
import Ipotane.Outputs
import Ipotane.Vouchers
import Ipotane.Wired
import Ipotane.Returns
