import RefTree.Options.Inspect
import RefTree.Resolver

/-!
# Resolver/Inspect — resolvers written out
-/

namespace RefTree

/-- **A resolver with its tree, its options and its pattern.** -/
def Resolver.inspect (r : Resolver) : String :=
  inspectRecord "PropRefParser"
    [("props", r.tree.inspect), ("options", r.options.inspect),
      ("pattern", inspectText r.pattern.source)]

end RefTree
