/-!
# Columns

Text set to the right of a column of a given width.  Longer text is left as it is.
-/

namespace TreeEvolution.Text

/-- The string with blanks in front of it that fill up the width. -/
def padLeft (width : Nat) (s : String) : String :=
  String.ofList (List.replicate (width - s.length) ' ') ++ s

end TreeEvolution.Text
