import RefTree.Main
import RefTree.Resolver.Inspect
import RefTree.Proofs.Inquiry
import RefTree.Proofs.Value
import RefTree.Proofs.Walk
import RefTree.Proofs.Call
import RefTree.Proofs.Cycle
import RefTree.Proofs.Keypath
import RefTree.Proofs.Keypath.Passes
import RefTree.Proofs.Regex.Language
import RefTree.Proofs.Regex.Complete
import RefTree.Proofs.Regex.First
import RefTree.Proofs.Regex.Reading
import RefTree.Proofs.Marker.Wrap
import RefTree.Proofs.Marker.Source
import RefTree.Proofs.Marker
import RefTree.Proofs.Default
import RefTree.Proofs.Fixpoint
import RefTree.Proofs.Agreement
import RefTree.Proofs.Sealed
import RefTree.Proofs.Tidy
import RefTree.Proofs.Strings
import RefTree.Proofs.Churning
import RefTree.Proofs.Rescans
import RefTree.Proofs.Keypath.Stack
import RefTree.Proofs.Marker.Cut
import RefTree.Proofs.Marker.Grammar
import RefTree.Proofs.Simultaneous
import RefTree.Proofs.Neat
import RefTree.Proofs.Failure
import RefTree.Proofs.Sibling
import RefTree.Proofs.Limit
import RefTree.Proofs.KeyBase
import RefTree.Proofs.Keypath.Runs
import RefTree.Proofs.Aliases
import RefTree.Proofs.Getter
import RefTree.Proofs.Marker.Searches
import RefTree.Proofs.Chain
import RefTree.Proofs.Transparent
import RefTree.Proofs.Machine
import RefTree.Proofs.Keypath.Legible
import RefTree.Proofs.Keypath.Stay
import RefTree.Proofs.Keypath.Normal
import RefTree.Proofs.Regex.Code
import RefTree.Proofs.Keypath.Climb
import RefTree.Proofs.Json
import RefTree.Proofs.Regex.Extend.Item
import RefTree.Proofs.Regex.Refusal
import RefTree.Proofs.Regex.Anywhere
import RefTree.Proofs.Marker.KeyPattern
