import Colm.RangePairIter.Breaks
import Colm.RangePairIter.Termination
import Colm.ValPairIter.Merge
import Colm.Compare
import Colm.Input.Undo
import Colm.Input.Content
import Colm.Input.Runs
import Colm.Input.Links
import Colm.Input.Memory
import Colm.Input.LinkedFuncs
import Colm.Input.Destructor
import Colm.Input.LinkedRead
import Colm.Input.Ownership
import Colm.Input.Position
import Colm.Input.Filename
import Colm.Mermaid.Labels
import Colm.Mermaid.Lines
import Colm.Mermaid.Nodes
