import OperatingSystems.Library.Decimal
import OperatingSystems.Library.Eviction
import OperatingSystems.Library.HashList
import OperatingSystems.Library.LinkedQueue
import OperatingSystems.Library.LittleEndian
import OperatingSystems.Library.Ledger
import OperatingSystems.Library.Machine
import OperatingSystems.Library.NameTree
import OperatingSystems.Library.Program
import OperatingSystems.Library.RingBuffer
import OperatingSystems.Library.Words
import OperatingSystems.Fs.BitmapRuns
import OperatingSystems.Fs.BlockMap
import OperatingSystems.Fs.InodeRuns
import OperatingSystems.Fs.InodeHash
import OperatingSystems.Fs.WriteThrough
import OperatingSystems.Fs.Removal
import OperatingSystems.Fs.Room
import OperatingSystems.Fs.Durability
import OperatingSystems.Fs.Processes
import OperatingSystems.Fs.Duplicates
import OperatingSystems.Fs.Listing
import OperatingSystems.Webserver.Shutdown
import OperatingSystems.Webserver.SlotBounds
import OperatingSystems.Webserver.Chunking
import OperatingSystems.Webserver.Draining
import OperatingSystems.Webserver.Fileset
import OperatingSystems.Webserver.LruOrder
import OperatingSystems.Threads.Wakeup
import OperatingSystems.Threads.Reclamation
import OperatingSystems.Threads.Accounts
import OperatingSystems.Threads.Queues
import OperatingSystems.Threads.Owners
import OperatingSystems.Threads.Blocking
import OperatingSystems.Webserver.RingInvariant
import OperatingSystems.Warmup.CopyExact
import OperatingSystems.Warmup.WordCounts
