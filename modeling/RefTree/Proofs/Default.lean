import RefTree.Proofs.Call
import RefTree.Proofs.Keypath
import RefTree.Proofs.Marker

/-!
# Proofs/Default — the resolver of a tree under the default options

The default options are accepted for every tree and with every limit on the depth
(`ofTree_default`), and everything about the resolver but the tree and the limit is a fixed value.
-/

namespace RefTree

namespace Keypath.Rules

/-- The rules of the default options. -/
def default : Rules where
  separator := ['.']
  token := ['-']
  apart := by decide
  mode := .sibling
  base := ""
  policy := .contextual

theorem ofConfig_default (limit : Nat) : ofConfig { maxDepth := limit } = .ok default := by
  have hfault : fault? ".".toList "-".toList = none := by decide
  simp only [ofConfig]
  split
  · next fault h => cases hfault.symm.trans h
  · rfl

end Keypath.Rules

namespace Resolver

/-- The resolver of the default options with a limit on the depth. -/
def default (tree : Value) (limit : Nat) : Resolver where
  tree := tree
  options := { maxDepth := limit }
  getter := Getter.keyPath
  rules := Keypath.Rules.default
  pattern := Marker.Default.pattern

/-- **The default options are accepted.** -/
theorem ofTree_default (tree : Value) (limit : Nat) :
    ofTree tree { maxDepth := limit } = .ok (default tree limit) :=
  ofTree_eq_ok_iff.mpr
    ⟨rfl, rfl, rfl, Keypath.Rules.ofConfig_default limit, Marker.Default.ofGrammar_eq⟩

end Resolver

end RefTree
