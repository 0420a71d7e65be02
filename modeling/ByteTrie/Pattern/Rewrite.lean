import ByteTrie.Pattern.Template
import ByteTrie.Transform

/-!
# Rewriting by pattern

A path in which the pattern is found becomes the template, filled in from the match; any other path
is rejected.
-/

namespace ByteTrie

namespace Pattern

def Matcher.rewriter (m : Matcher) (t : Template) : Rewriter := fun p => (m.find? p).map t.expand

/-- The rewriter of a pattern and a template; none if the pattern is ill-formed. -/
def rewriter? (pattern : String) (template : List UInt8) : Option Rewriter :=
  (Matcher.ofText? pattern).map (·.rewriter (Template.ofBytes template))

end Pattern

/-- The rewrites of the members that match; none if the pattern is ill-formed. -/
def Trie.rewriteMatches? (t : Trie) (pattern : String) (template : List UInt8) :
    Fresh (Option Trie) :=
  match Pattern.rewriter? pattern template with
  | some f => some <$> t.transform f
  | none => return none

end ByteTrie
