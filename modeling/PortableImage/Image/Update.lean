/-!
# Updating the first match

Sections, libraries and imports are lists in order of first use: what is looked for is changed where
it stands first, and put at the end where it is new.
-/

set_option autoImplicit false

namespace PortableImage

/-- Changes the first element that passes the test; where none does, `new` is changed and put at the
end.  The change also gives a result. -/
def updateFirst {α β : Type} (p : α → Bool) (new : α) (change : α → α × β) : List α → List α × β
  | [] => let (a, b) := change new; ([a], b)
  | a :: rest =>
    if p a then
      let (a', b) := change a
      (a' :: rest, b)
    else
      let (rest', b) := updateFirst p new change rest
      (a :: rest', b)

end PortableImage
