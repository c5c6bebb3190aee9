import PagedIndex.Proofs.WrittenForms
import PagedIndex.Tree.Basic
import PagedIndex.Proofs.AuditedScans
import PagedIndex.Proofs.RecencyOrder
import PagedIndex.Proofs.SessionPages
import PagedIndex.Proofs.RecentBlocks
import PagedIndex.Proofs.CacheContents
import PagedIndex.Proofs.StoreArray
import PagedIndex.Proofs.Reopening
import PagedIndex.Proofs.SessionDetours
import PagedIndex.Proofs.LostBlocks
import PagedIndex.Proofs.SiblingPairs
import PagedIndex.Proofs.SessionOverwrites
import PagedIndex.Proofs.ChainedRemovals
import PagedIndex.Proofs.RecencyReadings
import PagedIndex.Proofs.PageHistories
import PagedIndex.Proofs.CursorCalls
import PagedIndex.Proofs.SplitChoices
import PagedIndex.Proofs.StoreCounts
import PagedIndex.Proofs.SessionDrawing
