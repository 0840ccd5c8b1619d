import Bnf.Main
import Bnf.Text.Span
import Bnf.Proofs.Tree
import Bnf.Proofs.Tree.Reading
import Bnf.Proofs.Drafting
import Bnf.Proofs.Tree.Run
import Bnf.Proofs.Tree.Recognition
import Bnf.Proofs.SymbolTable
import Bnf.Proofs.Tree.Parts
import Bnf.Proofs.Tree.Expansion
import Bnf.Proofs.Tree.Simulation
import Bnf.Proofs.Tree.Growth
import Bnf.Proofs.Tree.Acceptance
import Bnf.Proofs.Completion
import Bnf.Proofs.Tree.Compiled
import Bnf.Proofs.Language
import Bnf.Proofs.Tree.Language
import Bnf.Proofs.Tree.Preservation
import Bnf.Proofs.Lexing
import Bnf.Proofs.WellFormed
import Bnf.Proofs.Tree.Fitting
import Bnf.Proofs.Tree.Printing
import Bnf.Proofs.Search
import Bnf.Proofs.LeftRecursion
import Bnf.Proofs.SameStructure
import Bnf.Proofs.Tree.Plain
import Bnf.Proofs.Tree.RoundTrip
import Bnf.Proofs.Closed
import Bnf.Proofs.LeftRecursion.Cycles
import Bnf.Proofs.Tree.Hygiene
import Bnf.Proofs.ByOffset
import Bnf.Proofs.LexerPlaces
import Bnf.Proofs.ByIndex
import Bnf.Proofs.Locations
import Bnf.Proofs.MachinePlaces
import Bnf.Proofs.ReadChecks
import Bnf.Proofs.RawDecoding
import Bnf.Proofs.Tree.FirstMention
import Bnf.Proofs.Tree.Undefined
import Bnf.Proofs.Lines
import Bnf.Proofs.Tree.Bare
import Bnf.Proofs.Tree.Sketch
import Bnf.Proofs.Tree.Renumbering
import Bnf.Proofs.Reordering
import Bnf.Proofs.SymbolTable.Operations
import Bnf.Proofs.SymbolTable.ByMap
import Bnf.Proofs.Gates
import Bnf.Proofs.Tree.Nesting
import Bnf.Proofs.Limits
import Bnf.Proofs.RepetitionLimit
import Bnf.Proofs.Cutting
import Bnf.Proofs.Tree.Places
import Bnf.Proofs.LineBreaks
import Bnf.Proofs.MentionOrder
import Bnf.Proofs.Rereading
import Bnf.Proofs.Tree.Completable
import Bnf.Proofs.SyntaxErrors
import Bnf.Proofs.MachineKinds
import Bnf.Proofs.Layout
import Bnf.Proofs.LineStarts
import Bnf.Proofs.ByBytes
import Bnf.Proofs.Tiling
import Bnf.Proofs.Escaping
import Bnf.Proofs.Isomorphism
import Bnf.Proofs.Reachability
import Bnf.Proofs.Numbering
import Bnf.Proofs.Stretches
import Bnf.Proofs.Dump
import Bnf.Proofs.SetMeaning
import Bnf.Proofs.ConfiguredRoot
import Bnf.Proofs.Tree.Constructs
import Bnf.Proofs.Reports
import Bnf.Proofs.Tree.Counted
import Bnf.Proofs.Tree.Ranks
import Bnf.Proofs.Belonging
import Bnf.Proofs.ArgumentGroups
import Bnf.Proofs.Trimming
import Bnf.Proofs.CommandOutput
import Bnf.Proofs.JsonForms
