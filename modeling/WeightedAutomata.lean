import WeightedAutomata.Ends
import WeightedAutomata.Journal.Recorded
import WeightedAutomata.Proofs.Automaton.Books
import WeightedAutomata.Proofs.Automaton.Refusal
import WeightedAutomata.Proofs.Compilation.Recursion
import WeightedAutomata.Proofs.Compilation.Meaning
import WeightedAutomata.Proofs.Compilation.Trim
import WeightedAutomata.Proofs.Compilation.Normalization
import WeightedAutomata.Proofs.Composition.Associativity
import WeightedAutomata.Proofs.Composition.Draining
import WeightedAutomata.Composition.Worklist
import WeightedAutomata.Proofs.Composition.Limit
import WeightedAutomata.Proofs.Compilation.Copying
import WeightedAutomata.Proofs.Compilation.Splicing
import WeightedAutomata.Proofs.Walk.Bounds
import WeightedAutomata.Proofs.Splice.Conservation
import WeightedAutomata.Proofs.Splice.Failure
import WeightedAutomata.Proofs.Weight.Product
import WeightedAutomata.Proofs.Weight.Quotient
import WeightedAutomata.Proofs.Weight.Sum
import WeightedAutomata.Proofs.Weight.Difference
import WeightedAutomata.Proofs.LogDomain.Accuracy
import WeightedAutomata.Proofs.Composition.Sharing
import WeightedAutomata.Proofs.Composition.Interleaving
import WeightedAutomata.Proofs.Compilation.Weightless
import WeightedAutomata.Proofs.Compilation.Bracketing
