import ZcashSdk.Shielded.ChunkIndependence
import ZcashSdk.Warp.Pipeline
import ZcashSdk.Wallet.Completeness
import ZcashSdk.Wallet.Deletion
import ZcashSdk.Wallet.Birthday
import ZcashSdk.Wallet.Headers
import ZcashSdk.Wallet.Retained
import ZcashSdk.Wallet.Batches
import ZcashSdk.Sync.Flow
import ZcashSdk.Mempool.Isolation
import ZcashSdk.Discovery.Independence
import ZcashSdk.Discovery.Tiling
import ZcashSdk.Discovery.Convergence
import ZcashSdk.Account.NextAddress
import ZcashSdk.Db.Reopening
import ZcashSdk.Pay.Solve
import ZcashSdk.Pay.FeeManager
import ZcashSdk.Pay.Admissible
import ZcashSdk.Pay.GreedyPrefixes
import ZcashSdk.Pay.Issuance
import ZcashSdk.Pay.SmartTransparent
import ZcashSdk.Pay.SigningKey
import ZcashSdk.Pay.ChangeAddress
import ZcashSdk.Pay.Reservable
import ZcashSdk.Pay.BalanceViews
import ZcashSdk.Migrate.Acceptance
import ZcashSdk.Ledger.Transport
import ZcashSdk.Vault.Log
import ZcashSdk.Vault.Accounts
import ZcashSdk.Api.SqliteLog
import ZcashSdk.Budget.PendingTxs
import ZcashSdk.Contacts.Edits
import ZcashSdk.Contacts.Import
import ZcashSdk.Api.OpenDatabase
import ZcashSdk.Pay.Labels
import ZcashSdk.Lib.Joins
import ZcashSdk.History.Queries
import ZcashSdk.History.Exact
import ZcashSdk.Keys.Formats
import ZcashSdk.Keys.NewAccount
import ZcashSdk.Keys.Restored
import ZcashSdk.Keys.Usable
import ZcashSdk.Keys.NewAccountUsable
import ZcashSdk.Keys.Exported
import ZcashSdk.Lib.Text
import ZcashSdk.Contacts.Reading
import ZcashSdk.Contacts.Export
import ZcashSdk.Pay.TransparentSignatures
import ZcashSdk.Warp.ReaderEnds
import ZcashSdk.Migrate.Whole
import ZcashSdk.Discovery.Certification
import ZcashSdk.Wallet.Bookkeeping
import ZcashSdk.Migrate.Completion
import ZcashSdk.Discovery.Debts
import ZcashSdk.Discovery.Coverage
import ZcashSdk.Discovery.Backfill
