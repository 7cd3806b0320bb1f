import NyaOS.Frames.Bitmap
import NyaOS.Frames.Ranges
import NyaOS.Frames.Single
import NyaOS.Frames.Exhaust
import NyaOS.Frames.Multi
import NyaOS.Frames.Boot
import NyaOS.Frames.Coverage
import NyaOS.Library.RadixTree
import NyaOS.Paging.Tables
import NyaOS.Paging.Tree
import NyaOS.Paging.Map
import NyaOS.Library.CountedLoop
import NyaOS.Paging.Init
import NyaOS.Paging.Direct
import NyaOS.Paging.Failure
import NyaOS.Library.Runs
import NyaOS.Paging.Unmap
import NyaOS.Library.ByteMemory
import NyaOS.Library.LinkedList
import NyaOS.Slab.Code
import NyaOS.Slab.Lists
import NyaOS.Slab.Small
import NyaOS.Slab.Alloc
import NyaOS.Slab.Grow
import NyaOS.Slab.Free
import NyaOS.Slab.Run
import NyaOS.Slab.Safety
import NyaOS.Slab.Large
import NyaOS.Slab.Boot
import NyaOS.Stdlib.Heap
import NyaOS.Stdlib.HeapRuns
import NyaOS.Library.Pool
import NyaOS.Drivers.Ioapic
import NyaOS.Drivers.Madt
import NyaOS.Drivers.MadtReads
import NyaOS.Drivers.Keyboard
import NyaOS.Library.Dialogue
import NyaOS.Drivers.Ps2
import NyaOS.Library.Numeral
import NyaOS.Stdio.IntStr
import NyaOS.Stdio.Vprintf
import NyaOS.Stdio.Scan
import NyaOS.Stdio.Convert
import NyaOS.Stdio.Inside
import NyaOS.Stdio.Grammar
import NyaOS.Stdio.Fields
import NyaOS.Stdio.Buffers
import NyaOS.Drivers.Isr
import NyaOS.Stdio.Count
import NyaOS.Slab.Reap
import NyaOS.Slab.Reaped
import NyaOS.Slab.LargeShape
import NyaOS.Slab.LargeAlloc
import NyaOS.Slab.LargeRun
import NyaOS.Slab.LargeFrames
import NyaOS.Slab.Table
import NyaOS.Library.Probing
import NyaOS.Slab.Hash
import NyaOS.Slab.HashGrow
import NyaOS.Slab.HashRuns
import NyaOS.Slab.HashLimits
import NyaOS.Library.Painting
import NyaOS.Drivers.Tty
import NyaOS.Drivers.Screen
import NyaOS.Frames.Bitwise
import NyaOS.Strings.Compare
import NyaOS.Strings.Memmove
import NyaOS.Stdio.IntField
import NyaOS.Drivers.Gdt
import NyaOS.Slab.FreshList
import NyaOS.Library.Answers
import NyaOS.Drivers.SecondPort
import NyaOS.Interrupts.Idt
import NyaOS.Library.StackCode
import NyaOS.Interrupts.Stubs
import NyaOS.Interrupts.Preemption
import NyaOS.Library.LastWrite
import NyaOS.Interrupts.Controllers
import NyaOS.Frames.Mixed
import NyaOS.Paging.Boot
import NyaOS.Drivers.Echo
import NyaOS.Drivers.FindTable
import NyaOS.Drivers.Serial
import NyaOS.Drivers.ConfigByte
import NyaOS.Drivers.Redirection
import NyaOS.Strings.Copy
import NyaOS.Stdio.InMemory
import NyaOS.Interrupts.Typing
import NyaOS.Slab.Served
import NyaOS.Slab.Kfree
