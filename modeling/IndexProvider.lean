import IndexProvider.Library.Collect
import IndexProvider.Library.Polling
import IndexProvider.Library.OrderedGroups
import IndexProvider.Library.Enumeration
import IndexProvider.Library.Bags
import IndexProvider.Library.Kleene
import IndexProvider.Library.NamedTuple
import IndexProvider.Library.Sorting
import IndexProvider.Library.StreamingGroups
import IndexProvider.Impl.Basic
import IndexProvider.Impl.Expr
import IndexProvider.Impl.Types
import IndexProvider.Impl.Provider
import IndexProvider.Impl.AgeIndex
import IndexProvider.Impl.Plan
import IndexProvider.Impl.Operators
import IndexProvider.Impl.Fetch
import IndexProvider.Impl.FetchStream
import IndexProvider.Impl.SequentialUnionStream
import IndexProvider.Semantics.Filter
import IndexProvider.Semantics.Expr
import IndexProvider.Semantics.Relational
import IndexProvider.Semantics.Ordering
import IndexProvider.Semantics.Streaming
import IndexProvider.Semantics.Table
import IndexProvider.Lemmas.Provider
import IndexProvider.Lemmas.Columns
import IndexProvider.Lemmas.AgeIndex
import IndexProvider.Lemmas.FetchStream
import IndexProvider.Lemmas.FetchWaiting
import IndexProvider.Lemmas.SequentialUnionStream
import IndexProvider.Lemmas.DataFusion
import IndexProvider.Lemmas.Schema
import IndexProvider.Lemmas.Operators
import IndexProvider.Lemmas.Relational
import IndexProvider.Lemmas.Scan
import IndexProvider.Lemmas.NamedKeys
import IndexProvider.Lemmas.EmptyOr
import IndexProvider.Lemmas.UnionMode
import IndexProvider.Lemmas.UnionModeSim
import IndexProvider.Lemmas.Reference
import IndexProvider.Lemmas.Acceptance
import IndexProvider.Lemmas.Streaming
import IndexProvider.Lemmas.Partitions
import IndexProvider.Lemmas.SequentialUnion
import IndexProvider.Lemmas.Join
import IndexProvider.Lemmas.Orderings
import IndexProvider.Lemmas.OrderedPlans
import IndexProvider.Lemmas.OrderedTrees
import IndexProvider.Lemmas.UnionModeRuns
import IndexProvider.Lemmas.TableScan
import IndexProvider.Lemmas.FilteredScan
import IndexProvider.Lemmas.Planning
import IndexProvider.Lemmas.LimitedScan
import IndexProvider.Lemmas.LimitedFetch
import IndexProvider.Lemmas.Multiplicity
import IndexProvider.Lemmas.PlanScans
import IndexProvider.Lemmas.Records
import IndexProvider.Lemmas.StreamedScan
import IndexProvider.Impl.TableProvider
import IndexProvider.Semantics.Query
import IndexProvider.Lemmas.Query
import IndexProvider.Impl.ReferenceIndexes
import IndexProvider.Impl.Employees
import IndexProvider.Lemmas.Fetchers
import IndexProvider.Lemmas.ReferenceIndexes
import IndexProvider.Lemmas.DefaultPredicates
import IndexProvider.Lemmas.Employees
import IndexProvider.Lemmas.LimitedQuery
import IndexProvider.Lemmas.AddedIndexes
import IndexProvider.Lemmas.EmployeeTable
import IndexProvider.Lemmas.StreamedRuns
import IndexProvider.Lemmas.SplitFilters
