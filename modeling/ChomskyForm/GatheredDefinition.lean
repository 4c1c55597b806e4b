import ChomskyForm.Gathering
import ChomskyForm.Presentation

/-!
# The definition from gathered texts

`Presentation.definition` collects the right-hand sides of one left-hand side after another.
Here the productions are gone through once : the text of each right-hand side joins those of its
left-hand side, and the entries are put in alphabetical order at the end.

The non-terminals are put in order in one go, by a comparison that lets the start symbol come
before every name (`Name.compareFirst`). It lets it come before itself, too, which does not matter
as long as no name is there twice.
-/

namespace ChomskyForm

/-- Compare names in alphabetical order, but `S` comes before every name. -/
def Name.compareFirst (S a b : Name) : Ordering :=
  if a = S then .lt else if b = S then .gt else compare a b

namespace Presentation

end Presentation

end ChomskyForm
