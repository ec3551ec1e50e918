import GraphDialysis.Graph.Bipartition
import GraphDialysis.Lib.PackedBits
import GraphDialysis.Cl.Certificate
import GraphDialysis.Cl.TracesJni
import GraphDialysis.Sat.Exactness
import GraphDialysis.Sat.UnionFindHistory
import GraphDialysis.Benchmark.MergeGroundTruth
import GraphDialysis.Lib.Splitter
import GraphDialysis.Graph.Csr
import GraphDialysis.Refinement.PaigeTarjan
import GraphDialysis.Refinement.Round
import GraphDialysis.Refinement.NativeWL1
import GraphDialysis.Content.Equality
import GraphDialysis.Graph.Induced
import GraphDialysis.Lib.Components
import GraphDialysis.Decomposition.Dialysis
import GraphDialysis.Refinement.PrecomputedStore
import GraphDialysis.Ahu.Registry
import GraphDialysis.Ahu.EncodeTree
import GraphDialysis.Ahu.ColoredAHU
import GraphDialysis.Refinement.ColouringDispatch
import GraphDialysis.Fvs.FvsSeededCampaign
import GraphDialysis.Fvs.FeedbackVertexSet
import GraphDialysis.Sat.EncodingSize
import GraphDialysis.Sat.PerQueryAccounting
import GraphDialysis.Decomposition.Structure
import GraphDialysis.Decomposition.Relabelling
import GraphDialysis.Fvs.HubCycle
import GraphDialysis.Ahu.Session
import GraphDialysis.Ahu.CrossCall
import GraphDialysis.Refinement.AnchorKeys
import GraphDialysis.Refinement.Renumbering
import GraphDialysis.Graph.EnsureBipartite
import GraphDialysis.Graph.InducedScratch
import GraphDialysis.Util.GraphIO
import GraphDialysis.Util.Dimacs
import GraphDialysis.Benchmark.GroundTruth
import GraphDialysis.Benchmark.BenchmarkRunner
import GraphDialysis.Lib.ExactCover
import GraphDialysis.Lib.Quadruple
import GraphDialysis.Gadgetxor.RealFileGadgetReconstruction
import GraphDialysis.Gadgetxor.Backtrack
import GraphDialysis.Ahu.MappedInternPool
import GraphDialysis.Gadgetxor.Candidates
import GraphDialysis.Gadgetxor.RealFileGadgetXor
import GraphDialysis.Gadgetxor.GadgetPartition
import GraphDialysis.Lib.Outcome
import GraphDialysis.Lib.ParentTree
import GraphDialysis.Decomposition.DialysisPerSpec
import GraphDialysis.Decomposition.Peel
import GraphDialysis.Ahu.SubtreeStrings
import GraphDialysis.Decomposition.PositionSignatures
import GraphDialysis.Experimental.DecomposeWithRoot
import GraphDialysis.Experimental.QuotientGraph
import GraphDialysis.Experimental.WitnessHunt
import GraphDialysis.Cl.CanonicalLabeler
import GraphDialysis.Graph.SubdivisionOrbits
import GraphDialysis.Gadgetxor.FlipParity
import GraphDialysis.Sat.CryptoMiniSatDrive
import GraphDialysis.Gadgetxor.BypassedPartition
