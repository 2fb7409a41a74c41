import TreeQuery.Main
import TreeQuery.Proofs.Grammar.Building
import TreeQuery.Proofs.Grammar.Stretches
import TreeQuery.Proofs.Document.Grafting
import TreeQuery.Proofs.Search.Chained
import TreeQuery.Proofs.Search.Closest
import TreeQuery.Proofs.Search.Growth
import TreeQuery.Proofs.Selector.Accounts
import TreeQuery.Proofs.Selector.Modes
import TreeQuery.Proofs.Selector.RoundTrip
import TreeQuery.Proofs.Template.Passes
import TreeQuery.Proofs.Grammar.Cutting
import TreeQuery.Proofs.Search.Likeness
import TreeQuery.Proofs.Selector.Tokens
import TreeQuery.Proofs.Selector.Parts
import TreeQuery.Proofs.Text.Level
import TreeQuery.Proofs.Grammar.Blanks
import TreeQuery.Proofs.Selector.Classification
import TreeQuery.Proofs.Program.Checks
import TreeQuery.Proofs.Program.Status
import TreeQuery.Proofs.Search.Selections
import TreeQuery.Proofs.Search.Root
import TreeQuery.Proofs.Template.Reading
import TreeQuery.Proofs.Template.Idempotence
import TreeQuery.Proofs.Text.Canonical
import TreeQuery.Proofs.Search.Wording
import TreeQuery.Proofs.Document.Path
import TreeQuery.Proofs.Document.Arena
import TreeQuery.Proofs.Program.Delivery
import TreeQuery.Proofs.Program.Output
