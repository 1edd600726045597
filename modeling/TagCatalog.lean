import TagCatalog.Proofs.Conservation
import TagCatalog.Catalog.Shared
import TagCatalog.Command.Folder
import TagCatalog.Main
import TagCatalog.Record.Query
import TagCatalog.Record.Settings
import TagCatalog.Proofs.InStep
import TagCatalog.Proofs.Balances
import TagCatalog.Proofs.Refreshing
import TagCatalog.Proofs.Discovery
import TagCatalog.Proofs.IndexingOrder
import TagCatalog.Proofs.EntryEdits
import TagCatalog.Proofs.Course
import TagCatalog.Proofs.VoteSums
import TagCatalog.Proofs.Deletion
import TagCatalog.Proofs.RowFrames
import TagCatalog.Proofs.Footprint
import TagCatalog.Proofs.ReplyDepth
import TagCatalog.Proofs.DepthLimit
import TagCatalog.Proofs.ReplyCounts
import TagCatalog.Proofs.SharedAccess
import TagCatalog.Proofs.CleanAudit
import TagCatalog.Proofs.Ascent
import TagCatalog.Proofs.TopicDiff
import TagCatalog.Proofs.ReplayReport
import TagCatalog.Proofs.RepeatedRefresh
import TagCatalog.Proofs.EntryWithdrawal
import TagCatalog.Proofs.AnswerOrder
import TagCatalog.Proofs.DriftList
import TagCatalog.Proofs.Replacement
import TagCatalog.Proofs.Changes
import TagCatalog.Proofs.FormedSums
import TagCatalog.Proofs.Overflow
import TagCatalog.Proofs.NormalNames
import TagCatalog.Proofs.SettingsFile
import TagCatalog.Proofs.TagNotations
import TagCatalog.Proofs.CategoryWalk
import TagCatalog.Proofs.Contributions
import TagCatalog.Proofs.VoteTerm
