import Shading.Text.CellTables
import Shading.Text.Cluster

/-!
The width of a text in terminal cells. A cluster is as wide as the first of
its characters that has a width at all.
-/

namespace Shading.Text

def cellsOfCode (code : Nat) : Nat :=
  if code < 0x20 || (0x7F ≤ code && code ≤ 0x9F) || code = 0xAD then 0
  else if code < 0x300 then 1
  else if inStretches hiddenStretches code || inStretches combiningStretches code then 0
  else if inStretches wideStretches code then 2
  else 1

def cellsOfCluster (cluster : Bytes) : Nat :=
  (((pieces cluster).map fun p => cellsOfCode p.scalar).find? (· ≠ 0)).getD 0

def cells (text : Bytes) : Nat :=
  (clusters text).foldl (fun count cluster => count + cellsOfCluster cluster) 0

end Shading.Text
