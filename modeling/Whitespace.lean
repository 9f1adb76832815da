import Whitespace.Main
import Whitespace.Proofs.Balance
import Whitespace.Proofs.Bookkeeping
import Whitespace.Proofs.Bounds
import Whitespace.Proofs.Capacity
import Whitespace.Proofs.Characters
import Whitespace.Proofs.CodeListing
import Whitespace.Proofs.Delivery
import Whitespace.Proofs.Diagnosis
import Whitespace.Proofs.Exactness
import Whitespace.Proofs.ListingGrammar
import Whitespace.Proofs.Lookahead
import Whitespace.Proofs.Paths
import Whitespace.Proofs.Positions
import Whitespace.Proofs.ReadBack
import Whitespace.Proofs.Reassembly
import Whitespace.Proofs.Rejection
import Whitespace.Proofs.Relabelling
import Whitespace.Proofs.Resumption
import Whitespace.Proofs.Shortest
import Whitespace.Proofs.SignMagnitude
import Whitespace.Proofs.Tally
import Whitespace.Proofs.Traces
import Whitespace.Proofs.Worklist
