/-!
# Characters that may be left without a shape

The code points with the property `Default_Ignorable_Code_Point`, as of version 17 of the character database. Letters
are among them: the Hangul fillers stand for a letter that is absent.
-/

namespace Deferral.Text

/-- The runs of code points with the property `Default_Ignorable_Code_Point`, each after the length of the gap before
it. -/
def ignorableRuns : List Nat :=
  [173, 1, 673, 1, 716, 1, 2882, 2, 1619, 2, 85, 5, 2043, 5, 26, 5, 49, 16, 4340, 1, 52379, 16, 239, 1, 160, 1, 79, 9,
    48295, 4, 5327, 8, 798341, 4096]

end Deferral.Text
