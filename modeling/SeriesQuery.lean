import SeriesQuery.CommandLine.Directory
import SeriesQuery.Main
import SeriesQuery.Proofs.Placement.NullExtension
import SeriesQuery.Proofs.Join.CrossJoin
import SeriesQuery.Proofs.Join.Greedy
import SeriesQuery.Proofs.Join.Renumbering
import SeriesQuery.Proofs.Placement.Removal
import SeriesQuery.Proofs.Placement.Account
import SeriesQuery.Proofs.Sampling
import SeriesQuery.Proofs.Select.RowWise
import SeriesQuery.Proofs.Select.Analytic
import SeriesQuery.Proofs.Select.Stacked
import SeriesQuery.Proofs.Expr.Canonical
import SeriesQuery.Proofs.Expr.Normal
import SeriesQuery.Proofs.Expr.Inverse
import SeriesQuery.Proofs.Expr.Negation
import SeriesQuery.Proofs.FixedPoint
import SeriesQuery.Proofs.TableDefinition.Indexes
import SeriesQuery.Proofs.Positions.Compile
import SeriesQuery.Proofs.Cache.History
import SeriesQuery.Proofs.TimeJoins
import SeriesQuery.Proofs.OutputNames
import SeriesQuery.Proofs.Sentinels.Numbering
import SeriesQuery.Proofs.Pointing.Compile
import SeriesQuery.Proofs.References
import SeriesQuery.Proofs.Model.Orders
import SeriesQuery.Proofs.Model.Descent
import SeriesQuery.Proofs.Placement.TimeFilters
import SeriesQuery.Proofs.SampleKey
import SeriesQuery.Proofs.Statement.OnClause
import SeriesQuery.Proofs.Placement.Constants
import SeriesQuery.Proofs.Aggregates
import SeriesQuery.Proofs.MadeUpAliases
import SeriesQuery.Proofs.ColumnTypes
import SeriesQuery.Proofs.Token.Spans
import SeriesQuery.Proofs.Nesting.Statement
import SeriesQuery.Proofs.Expr.SameText
import SeriesQuery.Proofs.Alias.Requests
