import MinCostFlow.IntRange
import MinCostFlow.Fault
import MinCostFlow.Outcome
import MinCostFlow.Matrix.Basic
import MinCostFlow.Matrix.Lemmas
import MinCostFlow.Network.Basic
import MinCostFlow.Network.Lemmas
import MinCostFlow.Network.ArcFlow
import MinCostFlow.Network.Reachability
import MinCostFlow.Network.Cut
import MinCostFlow.SolveError
import MinCostFlow.Path.Labels
import MinCostFlow.Path.Cheapest
import MinCostFlow.Path.TraceBack
import MinCostFlow.Flow.Augmentation
import MinCostFlow.Flow.Solve
import MinCostFlow.Text.Blank
import MinCostFlow.Text.Lines
import MinCostFlow.Text.Align
import MinCostFlow.Text.Plain
import MinCostFlow.Decimal
import MinCostFlow.NetworkFile.Token
import MinCostFlow.NetworkFile.Error
import MinCostFlow.NetworkFile.Reader
import MinCostFlow.Report.Table
import MinCostFlow.Report.Summary
import MinCostFlow.Log.Record
import MinCostFlow.Log.Solving
import MinCostFlow.CommandLine.Options
import MinCostFlow.CommandLine.Session
import MinCostFlow.Main
import MinCostFlow.Proofs.PartialSums
import MinCostFlow.Proofs.Walk.Basic
import MinCostFlow.Proofs.Walk.Cost
import MinCostFlow.Proofs.Search.Relaxation
import MinCostFlow.Proofs.Search.Passes
import MinCostFlow.Proofs.Search.Parents
import MinCostFlow.Proofs.Search.Bounds
import MinCostFlow.Proofs.Search.Counting
import MinCostFlow.Proofs.Augmentation.Trace
import MinCostFlow.Proofs.Augmentation.Push
import MinCostFlow.Proofs.Solve.Rounds
import MinCostFlow.Proofs.Reach.Basic
import MinCostFlow.Proofs.Reach.Sound
import MinCostFlow.Proofs.Search.Cascade
import MinCostFlow.Proofs.Augmentation.Attempt
import MinCostFlow.Proofs.Augmentation.Plan
import MinCostFlow.Proofs.Augmentation.InPlace
import MinCostFlow.Proofs.Cut.Reachable
import MinCostFlow.Proofs.Search.Reached
import MinCostFlow.Proofs.Solve.Cycles
import MinCostFlow.Proofs.Solve.CheapestFirst
import MinCostFlow.Proofs.Flow.Basic
import MinCostFlow.Proofs.Flow.Carried
import MinCostFlow.Proofs.Flow.Listing
import MinCostFlow.Proofs.Solve.Endings
import MinCostFlow.Proofs.Solve.BrokenTree
import MinCostFlow.Proofs.Solve.Resumption
import MinCostFlow.Proofs.Solve.Success
import MinCostFlow.Proofs.Solve.Termination
import MinCostFlow.Proofs.Cut.Minimum
import MinCostFlow.Proofs.Cut.Least
import MinCostFlow.Proofs.Reach.OnlyFault
import MinCostFlow.Proofs.Flow.MinimumCost
import MinCostFlow.Proofs.History.Basic
import MinCostFlow.Proofs.History.Superposition
import MinCostFlow.Proofs.History.Conservation
import MinCostFlow.Proofs.History.Cost
import MinCostFlow.Proofs.Wider.Basic
import MinCostFlow.Proofs.Wider.Solve
import MinCostFlow.Proofs.Wider.Read
import MinCostFlow.Proofs.Unreached.Basic
import MinCostFlow.Proofs.Unreached.Search
import MinCostFlow.Proofs.Unreached.Solve
import MinCostFlow.Proofs.Search.Cheapest
import MinCostFlow.Proofs.Augmentation.Agreement
import MinCostFlow.Proofs.NetworkFile.Words
import MinCostFlow.Proofs.NetworkFile.Numerals
import MinCostFlow.Proofs.NetworkFile.Grammar
import MinCostFlow.Proofs.NetworkFile.Reading
import MinCostFlow.Proofs.NetworkFile.FirstFault
import MinCostFlow.Proofs.NetworkFile.Written
import MinCostFlow.Proofs.CommandLine.Arguments
import MinCostFlow.Proofs.CommandLine.Sections
import MinCostFlow.Proofs.CommandLine.Files
import MinCostFlow.Proofs.Augmentation.WalkBack
import MinCostFlow.Proofs.Search.EarlyEnd
import MinCostFlow.Proofs.Flow.CostRange
import MinCostFlow.Proofs.Cut.Worklist
import MinCostFlow.Proofs.Arcs.LastCall
import MinCostFlow.Proofs.Report.Framing
import MinCostFlow.Proofs.Report.Summary
import MinCostFlow.Proofs.Report.Table
import MinCostFlow.Proofs.Search.Stages
import MinCostFlow.Proofs.Matrix.Storage
