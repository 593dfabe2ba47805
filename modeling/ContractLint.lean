import ContractLint.Main
import ContractLint.Proofs.Comment.Automaton
import ContractLint.Proofs.Comment.Reading
import ContractLint.Proofs.Coverage.AssertionParts
import ContractLint.Proofs.Coverage.Hiding
import ContractLint.Proofs.Coverage.CallParts
import ContractLint.Proofs.Coverage.ArgumentSearch
import ContractLint.Proofs.Coverage.Fixpoint
import ContractLint.Proofs.Coverage.HidingEdits
import ContractLint.Proofs.Coverage.Idempotence
import ContractLint.Proofs.Coverage.GuardLiveness
import ContractLint.Proofs.Coverage.GreedySpans
import ContractLint.Proofs.Coverage.GuardPlaces
import ContractLint.Proofs.Coverage.RemainingCalls
import ContractLint.Proofs.Coverage.StyleAgreement
import ContractLint.Proofs.Coverage.InlineEdits
import ContractLint.Proofs.Coverage.Declaration
import ContractLint.Proofs.Coverage.UnterminatedLine
import ContractLint.Proofs.Analysis.Convergence
import ContractLint.Proofs.Path.Below
import ContractLint.Proofs.Path.Order
import ContractLint.Proofs.Rule.DroppedImports
import ContractLint.Proofs.FileTree.Found
import ContractLint.Proofs.FileTree.Visit
import ContractLint.Proofs.Coverage.Atomicity
import ContractLint.Proofs.Coverage.Summary
import ContractLint.Proofs.Analysis.Effects
import ContractLint.Proofs.FileTree.Relocation
import ContractLint.Proofs.Analysis.Placement
import ContractLint.Proofs.Rule.ExpectedImports
import ContractLint.Proofs.Rule.ArrangedLines
import ContractLint.Proofs.Source.Endings
import ContractLint.Proofs.Source.WrittenLines
import ContractLint.Proofs.Source.Spans
import ContractLint.Proofs.Rule.MarkedLines
import ContractLint.Proofs.Rule.DocBlocks
import ContractLint.Proofs.FileTree.FeedFree
import ContractLint.Proofs.Rule.Alignment
import ContractLint.Proofs.Analysis.CompactListing
import ContractLint.Proofs.FileTree.Discovery
import ContractLint.Proofs.Analysis.RuleSettings
