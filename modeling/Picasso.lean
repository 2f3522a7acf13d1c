import Picasso.Sync.RwMutexExclusion
import Picasso.Gc.StopWorldSafety
import Picasso.Gc.StopWorldWake
import Picasso.Alloc.Unmap
import Picasso.Parsing.Postfixes
import Picasso.Parsing.RoundTrip
import Picasso.Build.Freshness
import Picasso.Codegen.Arithmetic
import Picasso.Codegen.CompoundAssignment
import Picasso.Lexing.Positions
import Picasso.Gc.Spawning
import Picasso.Declare.Signatures
import Picasso.Declare.Constructors
import Picasso.Declare.Conformance
import Picasso.Access.Encapsulation
import Picasso.Sync.MutexWakeup
import Picasso.Gc.Startup
import Picasso.Gc.SweepExact
import Picasso.Alloc.Requests
import Picasso.Alloc.BestFit
import Picasso.Codegen.AtomicBlocks
import Picasso.Strings.Format
import Picasso.Build.ImportLists
import Picasso.Sync.WaitGroup
import Picasso.Sched.Shutdown
import Picasso.Sched.SubmitFailure
import Picasso.Sched.TaskQueue
import Picasso.Net.Sending
import Picasso.Disk.Syncio
import Picasso.Arrays.Headers
import Picasso.Codegen.Arity
import Picasso.Codegen.Logical
import Picasso.Disk.FileSystem
import Picasso.Net.Reading
import Picasso.Sched.WaitRing
import Picasso.Strings.Buffer
import Picasso.Declare.TupleNames
