import GeneticProgramming.Catalogue.Document
import GeneticProgramming.Main
import GeneticProgramming.Palette.Document
import GeneticProgramming.Proofs.Evaluation.Protocol
import GeneticProgramming.Proofs.Palette.Building
import GeneticProgramming.Proofs.Population.Tournament
import GeneticProgramming.Proofs.Population.Wheel
import GeneticProgramming.Proofs.Random.Seeds
import GeneticProgramming.Proofs.Run.Cut
import GeneticProgramming.Proofs.Run.Cycle
import GeneticProgramming.Proofs.Run.Drift
import GeneticProgramming.Proofs.Run.Elitism
import GeneticProgramming.Proofs.Run.Flushing
import GeneticProgramming.Proofs.Run.Interleaving
import GeneticProgramming.Proofs.Run.Legible
import GeneticProgramming.Proofs.Run.Lineage
import GeneticProgramming.Proofs.Run.Ramping
import GeneticProgramming.Proofs.Run.Resume
import GeneticProgramming.Proofs.Run.Retrying
import GeneticProgramming.Proofs.Run.Scored
import GeneticProgramming.Proofs.Run.Sharing
import GeneticProgramming.Proofs.Run.Totality
import GeneticProgramming.Proofs.Stack.Bank
import GeneticProgramming.Proofs.Stack.Bounds
import GeneticProgramming.Proofs.Stream.Admission
import GeneticProgramming.Proofs.Stream.Canonical
import GeneticProgramming.Proofs.Stream.Literals
import GeneticProgramming.Proofs.Variation.Locality
import GeneticProgramming.Proofs.Variation.Points
import GeneticProgramming.Proofs.Variation.Scanning
import GeneticProgramming.Proofs.Variation.Window
import GeneticProgramming.Run.Record
import GeneticProgramming.Stack.Document
import GeneticProgramming.Stack.Guarded
import GeneticProgramming.Tree.Document
