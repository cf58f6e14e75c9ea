import JoinPlan.Configuration
import JoinPlan.Data.Run
import JoinPlan.Main
import JoinPlan.Proofs.Data.Hydration
import JoinPlan.Proofs.Paging.KeysetWalk
import JoinPlan.Proofs.Plan.OneMeaning
import JoinPlan.Proofs.Plan.ShapeColumns
import JoinPlan.Request.Decode
import JoinPlan.Proofs.Data.OwnRows
import JoinPlan.Proofs.Data.AnyOrder
import JoinPlan.Proofs.Data.Pipeline
import JoinPlan.Proofs.Sql.Evaluation
import JoinPlan.Proofs.Plan.PlainTables
import JoinPlan.Proofs.Data.Records
import JoinPlan.Proofs.Data.PlainFetch
import JoinPlan.Proofs.Data.PlainBatches
import JoinPlan.Proofs.Data.ScalarKeys
import JoinPlan.Proofs.ColumnAliases
import JoinPlan.Proofs.Plan.Occurrences
import JoinPlan.Proofs.Plan.PlainColumns
import JoinPlan.Proofs.Plan.NestedTables
import JoinPlan.Proofs.Plan.NestedRequests
import JoinPlan.Proofs.LastValue
import JoinPlan.Proofs.Plan.Sound
import JoinPlan.Proofs.Plan.Clauses
import JoinPlan.Proofs.Plan.DistinctAliases
import JoinPlan.Proofs.Plan.WellFormed
import JoinPlan.Proofs.Plan.Renaming
import JoinPlan.Proofs.Plan.Ledger
import JoinPlan.Proofs.Plan.Mirroring
import JoinPlan.Proofs.Plan.Minified
import JoinPlan.Proofs.Plan.Declarations
import JoinPlan.Proofs.Plan.KeyedRequests
import JoinPlan.Proofs.Data.JoinOrBatch
import JoinPlan.Proofs.Sql.Literals
import JoinPlan.Proofs.Sql.Formula
import JoinPlan.Proofs.Sql.Conjunction
import JoinPlan.Proofs.Sql.CompositeKey
import JoinPlan.Proofs.Paging.AcceptedPage
import JoinPlan.Proofs.Plan.PageOrder
import JoinPlan.Proofs.Paging.NumberedWalk
import JoinPlan.Proofs.Data.Refusals
import JoinPlan.Proofs.Plan.UnconditionalFragments
import JoinPlan.Proofs.Plan.FragmentSpreads
import JoinPlan.Proofs.Plan.WhereClause
import JoinPlan.Proofs.Plan.SelectedTwice
import JoinPlan.Proofs.AliasHistory
import JoinPlan.Proofs.Plan.SelectedProperties
import JoinPlan.Proofs.Configuration
import JoinPlan.Proofs.Json.Plain
import JoinPlan.Proofs.Json.CountText
import JoinPlan.Proofs.Paging.CursorCodec
import JoinPlan.Proofs.Data.Folding
import JoinPlan.Proofs.Data.ResolvedUnions
import JoinPlan.Proofs.Data.FoldedLists
import JoinPlan.Proofs.Data.WrappedOnce
import JoinPlan.Proofs.Plan.SameStatement
import JoinPlan.Proofs.Sql.Search
import JoinPlan.Proofs.Paging.Trichotomy
import JoinPlan.Proofs.Paging.NumberedPage
import JoinPlan.Proofs.Schema.TypeTokens
import JoinPlan.Proofs.Schema.Placeholders
import JoinPlan.Proofs.Plan.LateralFree
import JoinPlan.Proofs.Plan.OrderedPages
import JoinPlan.Proofs.Plan.LegibleAliases
