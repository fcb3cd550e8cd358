import Spinel.Proofs.Datum.RoundTrip
import Spinel.Proofs.Frame.Guards
import Spinel.Proofs.Grammar.Nesting
import Spinel.Proofs.Grammar.Placement
import Spinel.Proofs.Grammar.Precedence
import Spinel.Proofs.Grammar.Totality
import Spinel.Proofs.Heap.Assignment
import Spinel.Proofs.Law.Targets
import Spinel.Proofs.Run.Bounds
import Spinel.Proofs.Run.Cycles
import Spinel.Proofs.Run.Exclusion
import Spinel.Proofs.Run.Extremes
import Spinel.Proofs.Run.Graph
import Spinel.Proofs.Run.Hashes
import Spinel.Proofs.Run.KeyTrees
import Spinel.Proofs.Run.Keys
import Spinel.Proofs.Run.Names
import Spinel.Proofs.Run.Refusals
import Spinel.Proofs.Run.Splitting
import Spinel.Proofs.Run.Universal
import Spinel.Proofs.Source.Moves
import Spinel.Proofs.Text.ReadBack
import Spinel.Proofs.Token.Malformed
import Spinel.Proofs.Token.Symbols
