import PhpWeave.Load.Disk
import PhpWeave.Load.Loader
import PhpWeave.Node.Dump
import PhpWeave.Weave.Standard
import PhpWeave.Weave.Substitution
import PhpWeave.Proofs.Token.Boundary
import PhpWeave.Proofs.Token.Rescan
import PhpWeave.Proofs.Grammar.Structure
import PhpWeave.Proofs.Node.Locality
import PhpWeave.Proofs.Weave.LineKeeping
import PhpWeave.Proofs.Weave.Relisting
import PhpWeave.Proofs.Weave.Renaming
import PhpWeave.Proofs.Grammar.ScopeName
import PhpWeave.Proofs.Text.Pieces
import PhpWeave.Proofs.Weave.Answering
import PhpWeave.Proofs.Weave.Steady
import PhpWeave.Proofs.Weave.Registry
import PhpWeave.Proofs.Load.Location
import PhpWeave.Proofs.Load.Shelf
import PhpWeave.Proofs.Load.Project
import PhpWeave.Proofs.Load.Transparency
import PhpWeave.Proofs.Load.Ground
import PhpWeave.Proofs.Load.Keeping
import PhpWeave.Proofs.Load.Separation
import PhpWeave.Proofs.Load.Refusal
import PhpWeave.Proofs.Load.ChainKey
import PhpWeave.Proofs.Grammar.Nodes
import PhpWeave.Proofs.Grammar.Statement
import PhpWeave.Proofs.Weave.Head
import PhpWeave.Proofs.Weave.Hoisting
import PhpWeave.Proofs.Weave.Preamble
import PhpWeave.Proofs.Grammar.Member
import PhpWeave.Proofs.Weave.Retention
import PhpWeave.Proofs.Weave.Nesting
import PhpWeave.Proofs.Weave.Lookalikes
import PhpWeave.Proofs.Weave.Attribute
import PhpWeave.Proofs.Weave.Keyword
import PhpWeave.Proofs.Weave.Resolution
import PhpWeave.Proofs.Weave.Unsealing
import PhpWeave.Proofs.Weave.Fixpoint
import PhpWeave.Proofs.Grammar.LineMap
import PhpWeave.Proofs.Grammar.ParamList
import PhpWeave.Proofs.Grammar.ImportGrammar
import PhpWeave.Proofs.Grammar.AliasTable
import PhpWeave.Proofs.Grammar.Piece
import PhpWeave.Proofs.Grammar.Unclosed
import PhpWeave.Proofs.Weave.PinnedPath
import PhpWeave.Proofs.Weave.Reservation
import PhpWeave.Proofs.Load.Admission
import PhpWeave.Proofs.Token.Matching
import PhpWeave.Proofs.Token.Moves
import PhpWeave.Proofs.Load.Containment
import PhpWeave.Proofs.Token.Ends
