import UtopiaEda.HashTable
import UtopiaEda.BoundedSetRuns
import UtopiaEda.InputOrder
import UtopiaEda.EntryDescriptors
import UtopiaEda.Unmapping
import UtopiaEda.ShiftNetworks
import UtopiaEda.BlockListErasing
import UtopiaEda.ReedMullerNetworks
import UtopiaEda.CascadeSynthesis
import UtopiaEda.NpnInverses
import UtopiaEda.LogDbRoundTrips
import UtopiaEda.VerifierAnswers
import UtopiaEda.BddToDnf
import UtopiaEda.PriorityCuts
import UtopiaEda.NestedTruthTables
import UtopiaEda.PBoolMatcher
import UtopiaEda.Mutator
import UtopiaEda.SimulatorMajority
import UtopiaEda.TernaryBiClique
import UtopiaEda.ViewTables
import UtopiaEda.FanoutFreeConeBounds
import UtopiaEda.ObjectStorage
import UtopiaEda.SolutionSpace
import UtopiaEda.BitwiseNetworks
import UtopiaEda.ArrivalTimes
import UtopiaEda.SignalProbabilities
import UtopiaEda.SimulationEstimator
import UtopiaEda.DesignConstruction
import UtopiaEda.RtlNets
import UtopiaEda.GeneratedNets
import UtopiaEda.Passes
import UtopiaEda.EquivalenceChecks
