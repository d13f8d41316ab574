import Nyctomek.Prog.Loop
import Nyctomek.Prog.Heap
import Nyctomek.Prog.Chain
import Nyctomek.Prog.Bytes
import Nyctomek.Prog.SortedMap
import Nyctomek.Prog.MapIterator
import Nyctomek.Prog.Service
import Nyctomek.Prog.GoSlice
import Nyctomek.Prog.ForLoop
import Nyctomek.Prog.Grid
import Nyctomek.Prog.Entries
import Nyctomek.Prog.Pull
import Nyctomek.Prog.StdSort
import Nyctomek.Prog.PartialKey
import Nyctomek.Prog.Search
import Nyctomek.Prog.Hops
import Nyctomek.Prog.Decimal
import Nyctomek.Prog.LinkedList
import Nyctomek.Prog.Split
import Nyctomek.SkipList.Basic
import Nyctomek.SkipList.Linked
import Nyctomek.SkipList.Descent
import Nyctomek.SkipList.Insert
import Nyctomek.SkipList.Remove
import Nyctomek.SkipList.Find
import Nyctomek.Level2DB.Basic
import Nyctomek.Level2DB.Replies
import Nyctomek.Level2DB.Modes
import Nyctomek.Level2DB.RangeScan
import Nyctomek.Level2DB.Interleaving
import Nyctomek.Benchmark.RandomData
import Nyctomek.Dns.Header
import Nyctomek.Dns.Name
import Nyctomek.Dns.Question
import Nyctomek.Dns.Domain
import Nyctomek.Dns.Compression
import Nyctomek.Dns.Answers
import Nyctomek.Dns.Walk
import Nyctomek.Dns.Bounds
import Nyctomek.Dns.Alignment
import Nyctomek.Dns.Exchange
import Nyctomek.MatrixMultiply
import Nyctomek.MatrixMultiply.Benchmark
import Nyctomek.Metrics
import Nyctomek.Prog.Mean
import Nyctomek.Metrics.Averages
import Nyctomek.Metrics.Records
import Nyctomek.Vm.Basic
import Nyctomek.Vm.Assembler
import Nyctomek.Vm.Machine
import Nyctomek.Vm.Fetch
import Nyctomek.Vm.Operands
import Nyctomek.Prog.X86
import Nyctomek.Assembly.Pangram
import Nyctomek.Assembly.SumToN
import Nyctomek.Assembly.BinaryConvert
import Nyctomek.Ls
import Nyctomek.Ls.Columns
import Nyctomek.Ls.Sorting
import Nyctomek.Ls.Directories
import Nyctomek.Ls.Order
import Nyctomek.Ls.Recursion
import Nyctomek.Ls.Trees
import Nyctomek.Ls.Options
import Nyctomek.Ls.Memory
import Nyctomek.Ls.Command
import Nyctomek.KvStore.Basic
import Nyctomek.KvStore.Grammar
import Nyctomek.KvStore.Reload
import Nyctomek.KvStore.Interrupt
import Nyctomek.KvStore.Sessions
import Nyctomek.TomekDB.Basic
import Nyctomek.TomekDB.Pipeline
import Nyctomek.TomekDB.Comparison
import Nyctomek.TomekDB.Comparator
import Nyctomek.TomekDB.Numbers
import Nyctomek.TomekDB.Iterators
import Nyctomek.TomekDB.FailedSort
import Nyctomek.TomekDB.Outcomes
import Nyctomek.Http.Basic
import Nyctomek.Http.Bytewise
import Nyctomek.Http.Segments
import Nyctomek.Http.Packets
import Nyctomek.Http.Framing
import Nyctomek.Http.Proxy
import Nyctomek.Http.Surplus
import Nyctomek.Http.Lines
import Nyctomek.Http.Close
import Nyctomek.Parsecap.Basic
import Nyctomek.Parsecap.Reassembly
import Nyctomek.Parsecap.Restoring
import Nyctomek.Parsecap.Frames
import Nyctomek.Parsecap.Turns
import Nyctomek.Parsecap.Extraction
import Nyctomek.Parsecap.Writes
import Nyctomek.Parsecap.Records
import Nyctomek.Parsecap.Alignment
import Nyctomek.Parsecap.Chain
import Nyctomek.Parsecap.Program
import Nyctomek.Vm.Halting
import Nyctomek.Prog.Triple
import Nyctomek.Prog.Refinement
import Nyctomek.Vm.Programs
import Nyctomek.Vec.DotProduct
import Nyctomek.Prog.Sockets
import Nyctomek.Http.Servers
import Nyctomek.Http.Waiting
import Nyctomek.Http.Sessions
