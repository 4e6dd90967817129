/-!
# Source positions

A position names a stretch of a source file: the file by its place in the list of
source files, a line and a column counted from one, and a length in characters.
Every number may be out of range; what that means is decided where a position is
shown.
-/

namespace Isel.Source

structure Position where
  file : Int
  line : Int
  column : Int
  length : Int
  deriving DecidableEq, Repr

/-- The position of something that stands in no file. -/
def Position.nowhere : Position := ⟨-1, 0, 0, 0⟩

end Isel.Source
