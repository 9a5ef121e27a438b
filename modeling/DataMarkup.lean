import DataMarkup.Data.Tree
import DataMarkup.Data.Unclosed
import DataMarkup.Markup.Content
import DataMarkup.Markup.OpenElements
import DataMarkup.Payload
import DataMarkup.Pull
import DataMarkup.Renderer.Call
import DataMarkup.Renderer.Relay
import DataMarkup.Ring.Lemmas
import DataMarkup.Ring.Request
import DataMarkup.Proofs.Renderer.Absorption
import DataMarkup.Proofs.Pull.Exhaustion
import DataMarkup.Proofs.Nesting.Passage
import DataMarkup.Proofs.Tree.Rendering
import DataMarkup.Proofs.Tree.Unambiguity
import DataMarkup.Proofs.Tree.Grammar
import DataMarkup.Proofs.Renderer.Ledger
import DataMarkup.Proofs.Relay.Refinement
import DataMarkup.Proofs.Nesting.Summary
import DataMarkup.Proofs.Pull.Viability
import DataMarkup.Proofs.Nesting.Decoding
import DataMarkup.Proofs.Pull.Lossless
import DataMarkup.Proofs.Nesting.Elements
import DataMarkup.Proofs.Tree.Language
import DataMarkup.Proofs.Pull.OpenElements
import DataMarkup.Proofs.Pull.Move
import DataMarkup.Proofs.Ring.Queue
import DataMarkup.Proofs.Renderer.Safety
import DataMarkup.Proofs.Relay.Progress
import DataMarkup.Proofs.Payload.Naturality
import DataMarkup.Proofs.Renderer.Finality
import DataMarkup.Proofs.Nesting.Misplacement
import DataMarkup.Proofs.Pull.Items
import DataMarkup.Proofs.Renderer.Rejection
import DataMarkup.Proofs.Renderer.Verdict
import DataMarkup.Data.Account
import DataMarkup.Proofs.Run.Account
import DataMarkup.Proofs.Renderer.Account
import DataMarkup.Proofs.Renderer.Log
import DataMarkup.Proofs.Pull.Laziness
import DataMarkup.Proofs.Renderer.Concatenation
import DataMarkup.Proofs.Renderer.Reports
import DataMarkup.Proofs.Tree.Substitution
import DataMarkup.Proofs.Pull.Extension
import DataMarkup.Data.Inventory
import DataMarkup.Proofs.Pull.Inventory
import DataMarkup.Proofs.Renderer.Standing
import DataMarkup.Proofs.Ring.Slots
