import PolicyTree.Document
import PolicyTree.Limits
import PolicyTree.Policy.Defaults
import PolicyTree.Policy.Listing
import PolicyTree.Proofs.Policy.Attainable
import PolicyTree.Proofs.Reference.Designation
import PolicyTree.Proofs.Resolver.Pass
import PolicyTree.Proofs.Resolver.Completeness
import PolicyTree.Proofs.Report.Gathering
import PolicyTree.Proofs.Schema.Validation
import PolicyTree.Report.Text
import PolicyTree.Resolver.Dictionary
import PolicyTree.Schema.Defaults
import PolicyTree.Schema.Options
import PolicyTree.Value.Display
import PolicyTree.Proofs.Resolver.Pending
import PolicyTree.Proofs.Resolver.Tally
import PolicyTree.Proofs.Resolver.Repetition
import PolicyTree.Proofs.Schema.Malformed
import PolicyTree.Proofs.Policy.Listing
import PolicyTree.Proofs.Resolver.Promotion
import PolicyTree.Proofs.Resolver.Dictionary
import PolicyTree.Proofs.Schema.Order
import PolicyTree.Proofs.Resolver.Spelling
import PolicyTree.Proofs.Resolver.Inlining
import PolicyTree.Proofs.Document.Format
import PolicyTree.Proofs.Document.RoundTrip
import PolicyTree.Proofs.Resolver.Naming
import PolicyTree.Proofs.Resolver.Steps
import PolicyTree.Proofs.Resolver.Chains
import PolicyTree.Proofs.Resolver.Siblings
import PolicyTree.Proofs.Resolver.Limits
import PolicyTree.Proofs.Schema.Loaded
import PolicyTree.Proofs.Schema.Filling
import PolicyTree.Proofs.Policy.Names
import PolicyTree.Proofs.Report.Operations
import PolicyTree.Proofs.Name.Above
import PolicyTree.Proofs.Policy.Obstacles
import PolicyTree.Proofs.Policy.Mutation
import PolicyTree.Proofs.Policy.Failure
import PolicyTree.Proofs.Policy.Frame
import PolicyTree.Proofs.Policy.Removal
import PolicyTree.Proofs.Policy.Composition
import PolicyTree.Proofs.Policy.Additions
import PolicyTree.Proofs.Policy.Gaps
import PolicyTree.Proofs.Policy.Refilling
import PolicyTree.Proofs.Schema.Unknown
import PolicyTree.Proofs.Report.Parts
import PolicyTree.Proofs.Schema.Nested
import PolicyTree.Proofs.Report.Merging
import PolicyTree.Proofs.Reference.Grammar
import PolicyTree.Proofs.Reference.Following
import PolicyTree.Proofs.Schema.Reordering
import PolicyTree.Proofs.Reference.Acceptance
import PolicyTree.Proofs.Schema.Fields
import PolicyTree.Proofs.Resolver.Overwriting
import PolicyTree.Proofs.Schema.Collected
import PolicyTree.Proofs.Schema.Below
import PolicyTree.Proofs.Policy.Accessors
import PolicyTree.Proofs.Name.Views
