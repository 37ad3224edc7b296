import MyMalloc.Lib.LinkedList
import MyMalloc.Lib.Search
import MyMalloc.Lib.ByteMemory
import MyMalloc.Lib.Trace
import MyMalloc.Lib.AddressSpace
import MyMalloc.Lib.Placement
import MyMalloc.Heap
import MyMalloc.Run
import MyMalloc.BinRefinement
import MyMalloc.Accounting
import MyMalloc.SuperblockContract
import MyMalloc.Protocol
import MyMalloc.Ownership
import MyMalloc.Classification
import MyMalloc.LargeSizes
import MyMalloc.Reallocation
import MyMalloc.Transferred
import MyMalloc.MisalignedFree
import MyMalloc.BlockContents
import MyMalloc.SharedAccounts
import MyMalloc.Uninterrupted
import MyMalloc.Completion
import MyMalloc.CriticalSections
import MyMalloc.Mapping
import MyMalloc.Initialisation
import MyMalloc.ThreadHeaps
import MyMalloc.PublicBooks
import MyMalloc.PublicRuns
import MyMalloc.PublicCompletion
