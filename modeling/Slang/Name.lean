/-!
# Names

Variables and functions go by names. A name may be missing: the result of an expression has none,
and to a table the missing name is a key like any other.
-/

set_option autoImplicit false

namespace Slang

/-- A name, if there is one. -/
abbrev Name := Option String

/-- A name in a message; the missing one has a word of its own. -/
def Name.shown (name : Name) : String := name.getD "None"

end Slang
