import CallBy.Program
import CallBy.Session
import CallBy.Proofs.Guard
import CallBy.Proofs.Storeless
import CallBy.Proofs.Bare
import CallBy.Proofs.Form
import CallBy.Proofs.World
import CallBy.Proofs.Operations
import CallBy.Proofs.Growth
import CallBy.Proofs.Cells
import CallBy.Proofs.Simulation
import CallBy.Proofs.Backward
import CallBy.Proofs.Forward
import CallBy.Proofs.Strategies
import CallBy.Proofs.Scoping
import CallBy.Proofs.Named
import CallBy.Proofs.Chart
import CallBy.Proofs.Ledger
import CallBy.Proofs.Mirror
import CallBy.Proofs.Sharing
import CallBy.Proofs.MirrorStep
import CallBy.Proofs.Start
import CallBy.Proofs.History
import CallBy.Proofs.Work
import CallBy.Proofs.Levels
import CallBy.Proofs.Grammar
import CallBy.Proofs.Accepts
import CallBy.Proofs.Recognizes
import CallBy.Proofs.Spelling
import CallBy.Proofs.RoundTrip
import CallBy.Proofs.Watch
import CallBy.Proofs.Acyclic
import CallBy.Proofs.Likeness
import CallBy.Proofs.Link
import CallBy.Proofs.Agreement
import CallBy.Proofs.Pairing
import CallBy.Proofs.Renaming
import CallBy.Proofs.LetRule
import CallBy.Proofs.Moments
import CallBy.Proofs.Substitution
import CallBy.Proofs.Lexemes
import CallBy.Proofs.Unlet
import CallBy.Proofs.Completion
import CallBy.Proofs.FirstFault
import CallBy.Proofs.Unused
import CallBy.Proofs.Standards
import CallBy.Proofs.Faults
import CallBy.Proofs.Persistence
import CallBy.Proofs.ProperLists
import CallBy.Proofs.Reread
import CallBy.Proofs.Identity
import CallBy.Proofs.Unambiguous
import CallBy.Proofs.Nesting
import CallBy.Proofs.Requests
import CallBy.Proofs.Layers
import CallBy.Proofs.StreamCalls
