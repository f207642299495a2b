import LatticeSurgery.CommandLine.Folder
import LatticeSurgery.Main
import LatticeSurgery.Proofs.Batch.Interleavings
import LatticeSurgery.Proofs.Board.Geometry
import LatticeSurgery.Proofs.Board.Indexed
import LatticeSurgery.Proofs.Board.Intervals
import LatticeSurgery.Proofs.Board.Leaves
import LatticeSurgery.Proofs.Board.LinearLayout
import LatticeSurgery.Proofs.Board.Resets
import LatticeSurgery.Proofs.Board.TreeDistance
import LatticeSurgery.Proofs.Cache.PathHits
import LatticeSurgery.Proofs.Circuit.EarlyElimination
import LatticeSurgery.Proofs.Circuit.Flips
import LatticeSurgery.Proofs.Circuit.Printing
import LatticeSurgery.Proofs.Circuit.YElimination
import LatticeSurgery.Proofs.Dependency.Levels
import LatticeSurgery.Proofs.Dependency.PauliCommutation
import LatticeSurgery.Proofs.Dependency.Renaming
import LatticeSurgery.Proofs.Factory.Choice
import LatticeSurgery.Proofs.Graph.Counting
import LatticeSurgery.Proofs.Graph.WellFormed
import LatticeSurgery.Proofs.Packing.Outcomes
import LatticeSurgery.Proofs.Packing.Permitted
import LatticeSurgery.Proofs.Packing.ResetCollisions
import LatticeSurgery.Proofs.Packing.StorageCycle
import LatticeSurgery.Proofs.Placement.Attraction
import LatticeSurgery.Proofs.Placement.Corners
import LatticeSurgery.Proofs.Problem
import LatticeSurgery.Proofs.Schedule.Boards
import LatticeSurgery.Proofs.Schedule.FactoryStates
import LatticeSurgery.Proofs.Schedule.LoneMeasurements
import LatticeSurgery.Proofs.Schedule.Replaying
import LatticeSurgery.Proofs.Schedule.Scarcity
import LatticeSurgery.Proofs.Tree.Pruning
