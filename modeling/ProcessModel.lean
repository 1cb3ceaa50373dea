import ProcessModel.Main
import ProcessModel.Proofs.Appending
import ProcessModel.Proofs.Balance
import ProcessModel.Proofs.BareNames
import ProcessModel.Proofs.BlockCuts
import ProcessModel.Proofs.Brackets
import ProcessModel.Proofs.Dedenting
import ProcessModel.Proofs.DependencyOrder
import ProcessModel.Proofs.DiscoveredModels
import ProcessModel.Proofs.Encapsulation
import ProcessModel.Proofs.FailedRefresh
import ProcessModel.Proofs.Footprint
import ProcessModel.Proofs.Gathering
import ProcessModel.Proofs.History
import ProcessModel.Proofs.Kinds
import ProcessModel.Proofs.Literals
import ProcessModel.Proofs.Occurrences
import ProcessModel.Proofs.OpenFiles
import ProcessModel.Proofs.PairedShapes
import ProcessModel.Proofs.ReadBack
import ProcessModel.Proofs.Recording
import ProcessModel.Proofs.Returns
import ProcessModel.Proofs.SolverParameters
import ProcessModel.Proofs.Staleness
import ProcessModel.Proofs.StepSizes
import ProcessModel.Proofs.Taylor
import ProcessModel.Proofs.Transparency
import ProcessModel.Proofs.TripCounts
import ProcessModel.Proofs.WorkCount
