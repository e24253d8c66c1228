import Kakure.Circuits.Curve
import Kakure.Circuits.Frost
import Kakure.Circuits.Inclusion
import Kakure.Circuits.Mint
import Kakure.Circuits.Multisig
import Kakure.Circuits.Public
import Kakure.Circuits.Spend
import Kakure.Circuits.Standard
import Kakure.Circuits.Subgroup
import Kakure.Circuits.Witness
import Kakure.Coordinator.Cursor
import Kakure.Coordinator.Delivery
import Kakure.Coordinator.Relay
import Kakure.Coordinator.Store
import Kakure.Coordinator.Views
import Kakure.Curve.BabyJubJub
import Kakure.Curve.Primes
import Kakure.Discovery.Candidates
import Kakure.Discovery.Codec
import Kakure.Discovery.Preflight
import Kakure.Discovery.Types
import Kakure.Dkg.Agreement
import Kakure.Dkg.Ceremony
import Kakure.Dkg.Honest
import Kakure.Dkg.Quorum
import Kakure.Field
import Kakure.Frost.Bjj
import Kakure.Frost.Coordinator
import Kakure.Frost.MultisigLookahead
import Kakure.Frost.MultisigScan
import Kakure.Frost.Protocol
import Kakure.Frost.Round
import Kakure.Indexer.Backlog
import Kakure.Indexer.Chain
import Kakure.Indexer.Events
import Kakure.Indexer.ExactlyOnce
import Kakure.Indexer.Halt
import Kakure.Indexer.Ingest
import Kakure.Indexer.Interleaving
import Kakure.Indexer.LatestRoot
import Kakure.Indexer.LogScope
import Kakure.Indexer.Replay
import Kakure.Indexer.Store
import Kakure.Lib.Base64
import Kakure.Lib.Codes
import Kakure.Lib.Coins
import Kakure.Lib.Covers
import Kakure.Lib.Decimals
import Kakure.Lib.Doubles
import Kakure.Lib.Edwards
import Kakure.Lib.Fallible
import Kakure.Lib.Guarded
import Kakure.Lib.Hex
import Kakure.Lib.Interpolation
import Kakure.Lib.Keyed
import Kakure.Lib.LeanTree
import Kakure.Lib.Lookahead
import Kakure.Lib.Loops
import Kakure.Lib.Numerals
import Kakure.Lib.Parity
import Kakure.Lib.Pratt
import Kakure.Lib.Reach
import Kakure.Lib.Ring
import Kakure.Lib.Runs
import Kakure.Lib.Slices
import Kakure.Lib.SquareRoots
import Kakure.Lib.Table
import Kakure.Lib.Text
import Kakure.Lib.Traverse
import Kakure.Lib.Trials
import Kakure.Lib.Wire
import Kakure.Notes.Derivation
import Kakure.Notes.EvenY
import Kakure.Notes.Kem
import Kakure.Notes.Keys
import Kakure.Notes.Note
import Kakure.Notes.PointRecovery
import Kakure.Pool.Admin
import Kakure.Pool.Balance
import Kakure.Pool.Effects
import Kakure.Pool.Error
import Kakure.Pool.Events
import Kakure.Pool.Helpers
import Kakure.Pool.History
import Kakure.Pool.Inflation
import Kakure.Pool.Instruction
import Kakure.Pool.Merkle
import Kakure.Pool.Notes
import Kakure.Pool.Nullifiers
import Kakure.Pool.Processor
import Kakure.Pool.Reachable
import Kakure.Pool.Registry
import Kakure.Pool.Ring
import Kakure.Pool.Rotations
import Kakure.Pool.Run
import Kakure.Pool.Spec
import Kakure.Pool.State
import Kakure.Pool.Wire
import Kakure.Pool.Withdraw
import Kakure.Proposal.Session
import Kakure.Proposal.Signing
import Kakure.Proposal.TransferMultisig
import Kakure.Prover.Agreement
import Kakure.Prover.Compress
import Kakure.Prover.Curve
import Kakure.Runtime.Ledger
import Kakure.Runtime.Token
import Kakure.Sdk.ComplianceKeys
import Kakure.Sdk.PoolAccounts
import Kakure.Sdk.Submit
import Kakure.Sdk.TxBuilder
import Kakure.Sync.ColdScan
import Kakure.Sync.Events
import Kakure.Sync.History
import Kakure.Sync.NoteProcessor
import Kakure.Sync.Passes
import Kakure.Sync.RoundTrip
import Kakure.Sync.ScanEngine
import Kakure.Sync.Soundness
import Kakure.Sync.Unspent
import Kakure.Threshold.Accountability
import Kakure.Threshold.ChainTrace
import Kakure.Threshold.Compliance
import Kakure.Threshold.Tracing
import Kakure.Tree.Agreement
import Kakure.Tree.Indexer
import Kakure.Tree.Sdk
import Kakure.Tss.Bjj
import Kakure.Tss.Dkg
import Kakure.Tss.Gjkr
import Kakure.Tss.Hash
import Kakure.Tss.Shamir
import Kakure.Tx.Applications
import Kakure.Tx.Assemble
import Kakure.Tx.Mint
import Kakure.Tx.Multisig
import Kakure.Tx.Plan
import Kakure.Tx.PlanExecution
import Kakure.Tx.WitnessSources
import Kakure.Wallet.CounterStore
import Kakure.Wallet.KeyRepository
import Kakure.Wallet.MintPaths
import Kakure.Web.ComplianceRing
import Kakure.Web.Payroll
import Kakure.Web.PayrollPlan
import Kakure.Web.SingleKey
import Kakure.Pool.Tokens
import Kakure.Pool.Vaults
