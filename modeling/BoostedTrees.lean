import BoostedTrees.Number.Text
import BoostedTrees.Number.Numeral
import BoostedTrees.Text.Blank
import BoostedTrees.Text.Split
import BoostedTrees.Json.Scalar
import BoostedTrees.Json.Decoder
import BoostedTrees.Json.Writer
import BoostedTrees.Tree.Stored
import BoostedTrees.Model.Stored
import BoostedTrees.Model.Checksum
import BoostedTrees.Model.Wire
import BoostedTrees.Model.Codec
import BoostedTrees.Report
import BoostedTrees.Lease.Error
import BoostedTrees.Random.Synthetic
import BoostedTrees.Tree.Dump
import BoostedTrees.Importance
import BoostedTrees.Objective.Gradient
import BoostedTrees.Metric.Basic
import BoostedTrees.Settings.Config
import BoostedTrees.Growth.Grow
import BoostedTrees.Growth.Sampling
import BoostedTrees.Forest.Prediction
import BoostedTrees.Learner.Training
import BoostedTrees.Learner.Prediction
import BoostedTrees.Learner.Evaluation
import BoostedTrees.Learner.Persistence
import BoostedTrees.Engine.Local
import BoostedTrees.Engine.Recorder
import BoostedTrees.Lease.Evaluation
import BoostedTrees.Lease.Stream
import BoostedTrees.Lease.Importance
import BoostedTrees.Proofs.CacheTransparency
import BoostedTrees.Proofs.Checkpoint
import BoostedTrees.Proofs.WholeRounds
import BoostedTrees.Proofs.FeatureMetadata
import BoostedTrees.Proofs.SplitFeatures
import BoostedTrees.Proofs.PlainPrediction
import BoostedTrees.Proofs.StoredRoundTrip
import BoostedTrees.Proofs.CheckedKernels
import BoostedTrees.Proofs.SafePrediction
import BoostedTrees.Proofs.FailedRequests
import BoostedTrees.Proofs.LeaseOperations
import BoostedTrees.Proofs.HandleLedger
import BoostedTrees.Proofs.LeaseSessions
import BoostedTrees.Proofs.DensePrediction
import BoostedTrees.Proofs.ScoredPredictions
import BoostedTrees.Proofs.AppendedRounds
import BoostedTrees.Proofs.Contributions
import BoostedTrees.Proofs.StackedRows
import BoostedTrees.Proofs.CustomObjective
import BoostedTrees.Proofs.BufferEnds
import BoostedTrees.Proofs.SavedConfigurations
import BoostedTrees.Proofs.StreamedLeases
import BoostedTrees.Proofs.RefusedArguments
import BoostedTrees.Proofs.DisposedLeases
import BoostedTrees.Proofs.CacheBound
import BoostedTrees.Proofs.ReportedValues
import BoostedTrees.Proofs.TreeShapes
import BoostedTrees.Proofs.ImportanceScores
import BoostedTrees.Proofs.SplitCounts
import BoostedTrees.Proofs.GrownTrees
import BoostedTrees.Proofs.RoutedRows
import BoostedTrees.Proofs.SeparatedRows
import BoostedTrees.Proofs.AcceptedTrees
import BoostedTrees.Proofs.TreeWalks
import BoostedTrees.Proofs.DamagedPayloads
import BoostedTrees.Proofs.ReportRoundTrip
import BoostedTrees.Proofs.RankingArea
import BoostedTrees.Proofs.RankingGroups
import BoostedTrees.Proofs.TextImportance
import BoostedTrees.Proofs.DumpedTrees
import BoostedTrees.Proofs.DividedGrowth
