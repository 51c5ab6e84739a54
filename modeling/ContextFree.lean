import ContextFree.Alphabet.Supply
import ContextFree.Chomsky.Transform
import ContextFree.Derivation
import ContextFree.Document.Grammar
import ContextFree.Grammar.Load
import ContextFree.Grammar.Render
import ContextFree.Grammar.Valid
import ContextFree.Proofs.Reading
import ContextFree.Proofs.Validity
import ContextFree.Recognition.Trace
import ContextFree.Proofs.Closure
import ContextFree.Proofs.Elimination.Epsilon
import ContextFree.Proofs.Elimination.SelfRules
import ContextFree.Proofs.Elimination.Unit
import ContextFree.Proofs.Elimination.Useless
import ContextFree.Proofs.Normalization.Language
import ContextFree.Proofs.Normalization.FixedPoint
import ContextFree.Proofs.Chomsky.Simulation
import ContextFree.Proofs.Chomsky.Steps
import ContextFree.Proofs.Chomsky.Terminals
import ContextFree.Proofs.Chomsky.Binary
import ContextFree.Proofs.Chomsky.Start
import ContextFree.Proofs.Chomsky.Transform
import ContextFree.Proofs.Reachable
import ContextFree.Proofs.Recognition.Table
import ContextFree.Proofs.Recognition.NormalForm
import ContextFree.Proofs.Recognition.Membership
import ContextFree.Proofs.Recognition.Exactness
import ContextFree.Proofs.Layout
import ContextFree.Proofs.Loading
import ContextFree.Proofs.RoundTrip
import ContextFree.Proofs.Format
import ContextFree.Proofs.Document
import ContextFree.Proofs.Refusal
import ContextFree.Proofs.Elimination.Checks
import ContextFree.Proofs.Elimination.Contribution
import ContextFree.Proofs.Elimination.Settling
import ContextFree.Proofs.Chomsky.Letters
import ContextFree.Proofs.Chomsky.Naming
import ContextFree.Proofs.Chomsky.Demand
import ContextFree.Proofs.Chomsky.Connected
import ContextFree.Proofs.Chomsky.Stability
import ContextFree.Proofs.Removal
import ContextFree.Proofs.Chomsky.Checking
import ContextFree.Proofs.Positions
import ContextFree.Proofs.Recognition.Trace
import ContextFree.Proofs.SetPrograms
import ContextFree.Proofs.Supply
import ContextFree.Proofs.Spelling
