import CryoNero.Chain.Wallet
import CryoNero.Core.Canonical
import CryoNero.Pool.Refusal
import CryoNero.Chain.Caches
import CryoNero.Wallet.Oldest
import CryoNero.Wallet.Atomic
import CryoNero.Wallet.Unconfirmed
import CryoNero.Wallet.Undo
import CryoNero.Ledger.Direct
import CryoNero.Chain.Signatures
import CryoNero.P2p.Blobs
import CryoNero.P2p.Framing
import CryoNero.Download.Preparing
import CryoNero.P2p.Peers
import CryoNero.Pool.Crowded
import CryoNero.Pool.Reorganized
import CryoNero.Chain.Common
import CryoNero.Build.Offsets
import CryoNero.Chain.SolveTimes
import CryoNero.Build.Decoys
import CryoNero.Build.Selection
import CryoNero.Build.Counted
import CryoNero.Build.Digits
import CryoNero.Build.Size
import CryoNero.Build.Covered
import CryoNero.P2p.Discipline
import CryoNero.Wallet.Spendable
import CryoNero.Codec.Varint
import CryoNero.Codec.Base58
import CryoNero.Codec.Address
import CryoNero.Codec.AmountText
import CryoNero.Codec.Extra
import CryoNero.Codec.TreeHash
import CryoNero.Build.Reserved
import CryoNero.Wallet.History
import CryoNero.Chain.ProofOfWork
import CryoNero.Bytes.Search
import CryoNero.Bytes.Contents
import CryoNero.Chain.Checkpoints
import CryoNero.Wallet.Preparator
import CryoNero.Json.Strings
import CryoNero.Json.Binary
import CryoNero.Store.Schedules
import CryoNero.Chain.Imports
import CryoNero.Wallet.Agreement
import CryoNero.Chain.Records
import CryoNero.Chain.Work
import CryoNero.Chain.Agreement
import CryoNero.Chain.Answers
import CryoNero.Wallet.Balances
import CryoNero.Wallet.Sending
