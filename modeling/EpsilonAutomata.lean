import EpsilonAutomata.Automaton.Document
import EpsilonAutomata.Automaton.Run
import EpsilonAutomata.Automaton.Snapshot
import EpsilonAutomata.Build.Compile
import EpsilonAutomata.Version
import EpsilonAutomata.Proofs.Outcome
import EpsilonAutomata.Proofs.Value.Comparable
import EpsilonAutomata.Proofs.Automaton.Valid
import EpsilonAutomata.Proofs.Automaton.Runs
import EpsilonAutomata.Proofs.Automaton.Search
import EpsilonAutomata.Proofs.Automaton.Closure
import EpsilonAutomata.Proofs.Automaton.Reading
import EpsilonAutomata.Proofs.Automaton.Words
import EpsilonAutomata.Proofs.Automaton.Remap
import EpsilonAutomata.Proofs.Automaton.Join
import EpsilonAutomata.Proofs.Build.Counter
import EpsilonAutomata.Proofs.Build.Separate
import EpsilonAutomata.Proofs.Build.Primitive
import EpsilonAutomata.Proofs.Build.Concat
import EpsilonAutomata.Proofs.Build.Union
import EpsilonAutomata.Proofs.Expr.Language
import EpsilonAutomata.Proofs.Build.Numbered
import EpsilonAutomata.Proofs.Build.Compile
import EpsilonAutomata.Proofs.Build.History
import EpsilonAutomata.Proofs.Build.Returns
import EpsilonAutomata.Proofs.Collection.Sorting
import EpsilonAutomata.Proofs.Value.Order
import EpsilonAutomata.Proofs.Automaton.Document
import EpsilonAutomata.Proofs.Json.Scalars
import EpsilonAutomata.Proofs.Json.RoundTrip
import EpsilonAutomata.Proofs.Automaton.Text
import EpsilonAutomata.Proofs.Automaton.Refusal
import EpsilonAutomata.Proofs.Automaton.Stepping
import EpsilonAutomata.Proofs.Value.Collections
import EpsilonAutomata.Proofs.Automaton.Alike
import EpsilonAutomata.Proofs.Build.Transparent
import EpsilonAutomata.Proofs.Build.Layout
import EpsilonAutomata.Proofs.Build.Obstacle
import EpsilonAutomata.Proofs.Automaton.Starting
import EpsilonAutomata.Proofs.Value.Restored
import EpsilonAutomata.Proofs.Automaton.Snapshot
import EpsilonAutomata.Proofs.Automaton.TablesUsed
import EpsilonAutomata.Proofs.Collection.Table
import EpsilonAutomata.Proofs.Build.Descent
import EpsilonAutomata.Proofs.Automaton.Image
import EpsilonAutomata.Proofs.Build.Image
import EpsilonAutomata.Proofs.Build.Equality
import EpsilonAutomata.Proofs.Build.Grouping
import EpsilonAutomata.Proofs.Automaton.Action
import EpsilonAutomata.Proofs.Automaton.Transport
import EpsilonAutomata.Proofs.Automaton.Renumber
import EpsilonAutomata.Proofs.Automaton.Stable
import EpsilonAutomata.Proofs.Automaton.Storable
import EpsilonAutomata.Proofs.Automaton.Malformed
import EpsilonAutomata.Proofs.Automaton.Invariants
import EpsilonAutomata.Proofs.Automaton.Listing
import EpsilonAutomata.Proofs.Automaton.Coverage
import EpsilonAutomata.Proofs.Automaton.DepthFirst
import EpsilonAutomata.Proofs.Build.Relocation
import EpsilonAutomata.Proofs.Automaton.Lookup
