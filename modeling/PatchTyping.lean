import PatchTyping.AdapterIdentity
import PatchTyping.AdapterRules
import PatchTyping.AdapterSplicing
import PatchTyping.AxisInference
import PatchTyping.BackendLowering
import PatchTyping.BinaryFloat
import PatchTyping.BlockCatalog
import PatchTyping.BlockDefinitions
import PatchTyping.BlockDocuments
import PatchTyping.BuildFingerprint
import PatchTyping.CardinalityInference
import PatchTyping.CommandOptions
import PatchTyping.CommandSession
import PatchTyping.ConstraintExtraction
import PatchTyping.ConstraintSets
import PatchTyping.Diagnostics
import PatchTyping.DotDrawing
import PatchTyping.FeedbackCycles
import PatchTyping.FileFaults
import PatchTyping.InvisibleCharacters
import PatchTyping.JsonDecoding
import PatchTyping.JsonDocuments
import PatchTyping.JsonReading
import PatchTyping.JsonValues
import PatchTyping.Main
import PatchTyping.Normalization
import PatchTyping.NumberLiterals
import PatchTyping.PassPlan
import PatchTyping.PassRuns
import PatchTyping.PatchDocuments
import PatchTyping.PatchGraphs
import PatchTyping.PortKeys
import PatchTyping.PortTypes
import PatchTyping.QuotedText
import PatchTyping.Sha256Digest
import PatchTyping.ShortestDecimal
import PatchTyping.SignalAxes
import PatchTyping.StandardBlocks
import PatchTyping.StrongComponents
import PatchTyping.Substitutions
import PatchTyping.TypeTextParsing
import PatchTyping.TypeTextTokens
import PatchTyping.TypedPatches
import PatchTyping.ValuedPartition
import PatchTyping.Proofs.PartitionClasses
import PatchTyping.Proofs.KeyClasses
import PatchTyping.Proofs.PartitionListings
import PatchTyping.Proofs.PartitionRefinement
import PatchTyping.Proofs.PartitionPresentations
import PatchTyping.Proofs.AxisSolutions
import PatchTyping.Proofs.CatalogValidity
import PatchTyping.Proofs.BroadcastSweeps
import PatchTyping.Proofs.CardinalityEquations
import PatchTyping.Proofs.BroadcastLaw
import PatchTyping.Proofs.ConstraintOrder
import PatchTyping.Proofs.EdgeFates
import PatchTyping.Proofs.SplicedPatches
import PatchTyping.Proofs.BackendReadiness
import PatchTyping.Proofs.ReadinessCondition
import PatchTyping.Proofs.SplicedConstraints
import PatchTyping.Proofs.SplicedCardinalities
import PatchTyping.Proofs.RoundConvergence
import PatchTyping.Proofs.QuietRounds
import PatchTyping.Proofs.SpliceReversal
import PatchTyping.Proofs.TemplateAgreement
import PatchTyping.Proofs.ComponentSearches
import PatchTyping.Proofs.CycleReports
import PatchTyping.Proofs.ComponentListings
import PatchTyping.Proofs.DirectedCycles
import PatchTyping.Proofs.FeedbackThroughAdapters
import PatchTyping.Proofs.ScannedPieces
import PatchTyping.Proofs.TypeGrammar
import PatchTyping.Proofs.TypeTextRoundTrip
import PatchTyping.Proofs.PartitionLocality
import PatchTyping.Proofs.SweepLocality
import PatchTyping.Proofs.PatchParts
import PatchTyping.Proofs.InferenceLocality
import PatchTyping.Proofs.RoundLocality
import PatchTyping.Proofs.SpliceLocality
import PatchTyping.Proofs.DisjointUnions
import PatchTyping.Proofs.EdgeNameIndependence
import PatchTyping.Proofs.RelabelledPatches
import PatchTyping.Proofs.RelabelledSplicing
import PatchTyping.Proofs.SettledNodes
import PatchTyping.Proofs.PrincipalSolutions
import PatchTyping.Proofs.PatchAssembly
import PatchTyping.Proofs.DecodedData
import PatchTyping.Proofs.AdmittedTypes
import PatchTyping.Proofs.OriginIndependence
import PatchTyping.Proofs.JsonReadBack
import PatchTyping.Proofs.WrittenRecords
import PatchTyping.Proofs.WrittenPatches
import PatchTyping.Proofs.SplicingRuns
import PatchTyping.Proofs.PortSpelling
import PatchTyping.Proofs.ShuffledDocuments
import PatchTyping.Proofs.WrittenNumbers
import PatchTyping.Proofs.WrittenBlocks
import PatchTyping.Proofs.CatalogRequests
import PatchTyping.Proofs.TextBytes
import PatchTyping.Proofs.SpliceIdentity
import PatchTyping.Proofs.DrawingLines
import PatchTyping.Proofs.TextCoverage
import PatchTyping.Proofs.ExtractedConstraints
import PatchTyping.Proofs.LookUpLoops
import PatchTyping.Proofs.PartitionRanks
