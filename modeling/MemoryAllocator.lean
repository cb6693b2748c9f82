import MemoryAllocator.Safety
import MemoryAllocator.Initialisation
import MemoryAllocator.Refinement
import MemoryAllocator.Exactness
import MemoryAllocator.Sizing
import MemoryAllocator.Searching
import MemoryAllocator.FreeOrder
import MemoryAllocator.Retry
import MemoryAllocator.Checked
import MemoryAllocator.ClientMemory
import MemoryAllocator.Debug
import MemoryAllocator.Cost
import MemoryAllocator.History
import MemoryAllocator.Layout
import MemoryAllocator.Footprint
import MemoryAllocator.Careless
import MemoryAllocator.Arena
import MemoryAllocator.FreshHeap
import MemoryAllocator.LongFree
import MemoryAllocator.MmapCalls
