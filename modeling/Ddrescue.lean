import Ddrescue.Block
import Ddrescue.Logbook
import Ddrescue.Mutators
import Ddrescue.FindChunk
import Ddrescue.Loop
import Ddrescue.LogicOps
import Ddrescue.LogicTermination
import Ddrescue.LogicLaws
import Ddrescue.Written
import Ddrescue.ChangeTypes
import Ddrescue.Compare
import Ddrescue.DoneStatus
import Ddrescue.SectorSize
import Ddrescue.SkipSize
import Ddrescue.DvdRead
import Ddrescue.ListBlocks
import Ddrescue.CreateLog
import Ddrescue.RoundTrip
import Ddrescue.Cpass
import Ddrescue.Percentage
import Ddrescue.BlockIO
import Ddrescue.Signals
import Ddrescue.FileChecks
import Ddrescue.Rescue
import Ddrescue.ShowStatus
