import ObjectVault.Backend
import ObjectVault.Bytes
import ObjectVault.Cache
import ObjectVault.Chain
import ObjectVault.Clock
import ObjectVault.Codec
import ObjectVault.Collector
import ObjectVault.Document
import ObjectVault.Document.Binary
import ObjectVault.Document.Json
import ObjectVault.Document.Json.Range
import ObjectVault.Document.Json5
import ObjectVault.Document.Scientific
import ObjectVault.Document.Toml
import ObjectVault.Document.Toml.Quoted
import ObjectVault.Document.Toml.Tree
import ObjectVault.Exchange
import ObjectVault.Exchange.Named
import ObjectVault.History
import ObjectVault.Instant
import ObjectVault.Instant.Rfc3339
import ObjectVault.Node
import ObjectVault.Oid
import ObjectVault.Pool
import ObjectVault.Proofs.CacheCoherence
import ObjectVault.Proofs.CacheEntries
import ObjectVault.Proofs.Columns
import ObjectVault.Proofs.HistoryPages
import ObjectVault.Proofs.JsonRoundTrip
import ObjectVault.Proofs.LawfulStore
import ObjectVault.Proofs.Ledger
import ObjectVault.Proofs.LiveGraph
import ObjectVault.Proofs.LostUpdates
import ObjectVault.Proofs.MirroredCalls
import ObjectVault.Proofs.ObjectGraph
import ObjectVault.Proofs.PackRun
import ObjectVault.Proofs.PackSafety
import ObjectVault.Proofs.Provenance
import ObjectVault.Proofs.Reachability
import ObjectVault.Proofs.StampedStore
import ObjectVault.Proofs.StoreAgreement
import ObjectVault.Proofs.StoreMirror
import ObjectVault.Proofs.StoreRun
import ObjectVault.Proofs.StoredVersions
import ObjectVault.Proofs.TimeText
import ObjectVault.Proofs.TimeTravel
import ObjectVault.Proofs.TransactionCalls
import ObjectVault.Proofs.TransactionRun
import ObjectVault.Proofs.UndisturbedPack
import ObjectVault.Proofs.UndoneCommits
import ObjectVault.Proofs.VaultCalls
import ObjectVault.Proofs.VaultReads
import ObjectVault.Reach
import ObjectVault.Settings
import ObjectVault.Store
import ObjectVault.Store.Column
import ObjectVault.Store.Edit
import ObjectVault.Store.Error
import ObjectVault.Store.Memory
import ObjectVault.Store.Relational
import ObjectVault.Text.Describe
import ObjectVault.Text.Hex
import ObjectVault.Text.Scan
import ObjectVault.Text.Unprintable
import ObjectVault.Tid
import ObjectVault.Transaction
import ObjectVault.Vault
import ObjectVault.Vault.Error
import ObjectVault.Version
import ObjectVault.Proofs.PresentAlike
import ObjectVault.Proofs.TidOrder
import ObjectVault.Proofs.CacheRecency
import ObjectVault.Proofs.FreshOids
import ObjectVault.Proofs.PoolBorrows
import ObjectVault.Proofs.RestoredVersions
import ObjectVault.Proofs.RetainedRefs
import ObjectVault.Proofs.InterruptedPack
import ObjectVault.Proofs.SweepContention
import ObjectVault.Proofs.PagedHistory
import ObjectVault.Proofs.SimultaneousCommit
import ObjectVault.Proofs.ExactReachability
import ObjectVault.Proofs.Answers
import ObjectVault.Proofs.PrunedHistory
import ObjectVault.Proofs.VoteAndCommit
import ObjectVault.Proofs.BatchedReads
import ObjectVault.Proofs.CommitTimes
import ObjectVault.Proofs.ChainGaps
import ObjectVault.Proofs.StoredNodes
import ObjectVault.Proofs.CacheOffers
import ObjectVault.Proofs.DisabledCache
