import TreeEvolution.Main
import TreeEvolution.Proofs.Additions
import TreeEvolution.Proofs.Courses
import TreeEvolution.Proofs.Crew
import TreeEvolution.Proofs.Evolution.Accounts
import TreeEvolution.Proofs.Evolution.Bloat
import TreeEvolution.Proofs.Evolution.Guards
import TreeEvolution.Proofs.Evolution.Order
import TreeEvolution.Proofs.Evolution.Runs
import TreeEvolution.Proofs.Evolution.Safety
import TreeEvolution.Proofs.Evolution.Scores
import TreeEvolution.Proofs.Evolution.Soundness
import TreeEvolution.Proofs.Evolution.Twins
import TreeEvolution.Proofs.Exchange
import TreeEvolution.Proofs.Grafting
import TreeEvolution.Proofs.Limits
import TreeEvolution.Proofs.Offspring
import TreeEvolution.Proofs.Program.Independence
import TreeEvolution.Proofs.Program.Inputs
import TreeEvolution.Proofs.Program.Intervals
import TreeEvolution.Proofs.Program.Levels
import TreeEvolution.Proofs.Program.Replacement
import TreeEvolution.Proofs.Program.Scans
import TreeEvolution.Proofs.Program.Splice
import TreeEvolution.Proofs.Program.Stack
import TreeEvolution.Proofs.Program.Text
import TreeEvolution.Proofs.Program.Traversal
import TreeEvolution.Proofs.RandomTree
import TreeEvolution.Proofs.Reliability
import TreeEvolution.Proofs.Resumption
import TreeEvolution.Proofs.Store.Layers
import TreeEvolution.Proofs.Store.Saving
import TreeEvolution.Proofs.Tournament
import TreeEvolution.Proofs.TreeGrowth
import TreeEvolution.Proofs.TreeShape
import TreeEvolution.Proofs.Winners
import TreeEvolution.Random.Listed
import TreeEvolution.Symbol.Numeric
