import Andl.Palf.Equiv.AckLog
import Andl.Palf.Equiv.LsnLastLog
import Andl.Palf.Equiv.GroupBuffer
import Andl.Palf.Equiv.SlidingWindow
import Andl.Storage.Equiv.NoLostUpdate
import Andl.Storage.Equiv.RowLocked
import Andl.Storage.Equiv.LockForRead
import Andl.Number.Equiv.FloorCeil
import Andl.Number.Equiv.ParseDecimal
import Andl.Number.Equiv.MulDiv
import Andl.Number.Equiv.TruncScale
import Andl.Storage.Equiv.RowsMerger
import Andl.Timezone.Equiv.Week
import Andl.Sequence.Equiv.SequenceCache
import Andl.Lob.Equiv.CursorRun
import Andl.Autoinc.Equiv.AutoincrementService
import Andl.Serialization.Equiv.Strings
import Andl.Workload.Equiv.PartitionStats
import Andl.Storage.Equiv.TxChecksum
import Andl.Storage.Equiv.UndoStatusSerialize
import Andl.Lob.Equiv.SeqId
import Andl.Deadlock.Equiv.LclNode
import Andl.TableLock.Equiv.Compact
import Andl.TableLock.Equiv.ConflictSet
