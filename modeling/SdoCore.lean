import SdoCore.RobLinks
import SdoCore.RobSquash
import SdoCore.Sim.EventQueue
import SdoCore.Pipeline.WrongPath
import SdoCore.Pipeline.SquashDebt
import SdoCore.Pipeline.Fetch
import SdoCore.Pipeline.StoreSet
import SdoCore.Pipeline.Rename
import SdoCore.Pipeline.MemDep
import SdoCore.Pred.BPredUnit
import SdoCore.Mesi.BankedArray
import SdoCore.Mesi.SpecRead
import SdoCore.Arch.Tlb
import SdoCore.Ruby.Delivery
import SdoCore.Lsq.Training
import SdoCore.Lsq.Snoop
import SdoCore.Pred.LocPredRun
import SdoCore.IssueOrder
import SdoCore.Lsq.Validation
import SdoCore.Lsq.LoadStoreOrder
import SdoCore.Mesi.Stranded
import SdoCore.Mesi.PseudoLRU
import SdoCore.Ruby.MessageBuffer
import SdoCore.Lsq.Buffers
import SdoCore.Pipeline.TimeBuffer
