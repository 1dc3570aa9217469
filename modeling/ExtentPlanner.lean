import ExtentPlanner.Plan.Text
import ExtentPlanner.Planner
import ExtentPlanner.RowTypes
import ExtentPlanner.Settings.Document
import ExtentPlanner.Settings.Environment
import ExtentPlanner.Proofs.ConjunctAccounting
import ExtentPlanner.Proofs.DeliveredOrder
import ExtentPlanner.Proofs.NullTestPlacement
import ExtentPlanner.Proofs.OuterJoinPlacement
import ExtentPlanner.Proofs.PlanScope
import ExtentPlanner.Proofs.PlanningSuccess
import ExtentPlanner.Proofs.PresortedInput
import ExtentPlanner.Proofs.HintDistribution
import ExtentPlanner.Proofs.EnumeratedOrders
import ExtentPlanner.Proofs.PlannedVisits
import ExtentPlanner.Proofs.GeneratedFilters
import ExtentPlanner.Proofs.ClassGuards
import ExtentPlanner.Proofs.GroupOrder
import ExtentPlanner.Proofs.OrderHints
import ExtentPlanner.Proofs.ReplanAnnouncement
import ExtentPlanner.Proofs.RegisteredClasses
import ExtentPlanner.Proofs.DeclaredNames
import ExtentPlanner.Proofs.MatchedTrees
import ExtentPlanner.Proofs.RememberedCost
import ExtentPlanner.Proofs.ReorderedConjuncts
import ExtentPlanner.Proofs.ConjunctOrder
import ExtentPlanner.Proofs.FoldedTruth
import ExtentPlanner.Proofs.FoldedForm
import ExtentPlanner.Proofs.RefusedScans
import ExtentPlanner.Proofs.PathConditions
import ExtentPlanner.Proofs.RepeatedEvaluation
import ExtentPlanner.Proofs.GroupedConjuncts
import ExtentPlanner.Proofs.LowestJoin
import ExtentPlanner.Proofs.ExactDistribution
import ExtentPlanner.Proofs.BoundedColumns
import ExtentPlanner.Proofs.AssertedClasses
import ExtentPlanner.Proofs.IndexCoverage
import ExtentPlanner.Proofs.ReplacedSort
import ExtentPlanner.Proofs.ListedKeys
import ExtentPlanner.Proofs.SortSplit
import ExtentPlanner.Proofs.OperandOrder
import ExtentPlanner.Proofs.CatalogSearches
import ExtentPlanner.Proofs.FoldedParts
import ExtentPlanner.Proofs.HintedIndexes
import ExtentPlanner.Proofs.HintedOrder
import ExtentPlanner.Proofs.WrittenJson
import ExtentPlanner.Proofs.KeptSettings
import ExtentPlanner.Proofs.MemberLists
import ExtentPlanner.Proofs.TreeLookups
