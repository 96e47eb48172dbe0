import Atomicity.Width
import Atomicity.Width.Set
import Atomicity.Capability
import Atomicity.Scalar
import Atomicity.Scalar.Update
import Atomicity.Scalar.Format
import Atomicity.Memory
import Atomicity.Machine
import Atomicity.Instruction
import Atomicity.Program
import Atomicity.Program.Solo
import Atomicity.Interrupts
import Atomicity.Backend
import Atomicity.Backend.Plain
import Atomicity.Backend.Native
import Atomicity.Backend.Pair
import Atomicity.Backend.SingleCore
import Atomicity.Backend.LockWord
import Atomicity.Lock.Raw
import Atomicity.Backend.GlobalLock
import Atomicity.Backend.Access
import Atomicity.Fetch
import Atomicity.Atomic
import Atomicity.Flag
import Atomicity.Lock.Spin
import Atomicity.Startup
import Atomicity.Session
import Atomicity.Contention
import Atomicity.Proofs.Context
import Atomicity.Proofs.Discipline
import Atomicity.Proofs.Operation
import Atomicity.Proofs.World
import Atomicity.Proofs.Following
import Atomicity.Proofs.OneCore.Machine
import Atomicity.Proofs.OneCore.World
import Atomicity.Proofs.OneCore.Masking
import Atomicity.Proofs.OneCore.Emulations
import Atomicity.Proofs.OneCore.Run
import Atomicity.Proofs.OneCore.Preemption
import Atomicity.Proofs.ExclusivePair
import Atomicity.Proofs.ManyCores.Machine
import Atomicity.Proofs.ManyCores.World
import Atomicity.Proofs.ManyCores.Run
import Atomicity.Proofs.ManyCores.Modification
import Atomicity.Proofs.ManyCores.Exchange
import Atomicity.Proofs.Leads
import Atomicity.Proofs.Complying
import Atomicity.Proofs.Lock.Tenure
import Atomicity.Proofs.Lock.Uses
import Atomicity.Proofs.Lock.Nests
import Atomicity.Proofs.ManyCores.Turns
import Atomicity.Proofs.ManyCores.Exclusion
import Atomicity.Proofs.ManyCores.Sections
import Atomicity.Proofs.ManyCores.MutualExclusion
import Atomicity.Proofs.OneCore.MaskedSections
import Atomicity.Proofs.OneCore.InterruptSafety
import Atomicity.Proofs.Evaluation
import Atomicity.Proofs.Uniform.Completion
import Atomicity.Proofs.Uniform.Primitives
import Atomicity.Proofs.Uniform.WordMachine
import Atomicity.Proofs.Uniform.Operations
import Atomicity.Proofs.Uniform.SpinLocks
import Atomicity.Proofs.Uniform.Sessions
import Atomicity.Proofs.Operates
import Atomicity.Proofs.Interfered
import Atomicity.Proofs.Interrupts.Flag
import Atomicity.Proofs.Interrupts.GivenBack
import Atomicity.Proofs.Interrupts.Guards
import Atomicity.Proofs.Interference.LockWord
import Atomicity.Proofs.Interference.Acquisition
import Atomicity.Proofs.Fences
import Atomicity.Proofs.Lock.Tally
import Atomicity.Proofs.OneCore.Construction
import Atomicity.Proofs.Monitor
import Atomicity.Proofs.Interference.Outside
import Atomicity.Proofs.Interference.Sequences
import Atomicity.Proofs.Interference.Reentrancy
import Atomicity.Proofs.FlagWinner
import Atomicity.Proofs.Consists
import Atomicity.Proofs.Canonical
import Atomicity.Proofs.TypedExchange
import Atomicity.Proofs.Interference.ToCome
import Atomicity.Proofs.Interference.Passage
import Atomicity.Proofs.Interference.Framing
import Atomicity.Proofs.Interference.Primitives
import Atomicity.Proofs.Interference.Operations
import Atomicity.Proofs.Interference.FetchUpdate
import Atomicity.Proofs.Interference.TypedFetch
import Atomicity.Proofs.Interference.PairRounds
import Atomicity.Proofs.Threads.World
import Atomicity.Proofs.Threads.Masking
import Atomicity.Proofs.Threads.Emulations
import Atomicity.Proofs.Attending
import Atomicity.Proofs.Threads.Linearizability
import Atomicity.Proofs.Threads.Calls
import Atomicity.Proofs.Interrupts.StatusRegister
import Atomicity.Proofs.Alone
import Atomicity.Proofs.Lock.Stores
import Atomicity.Proofs.Lock.Lifetime
import Atomicity.Proofs.Lock.LifeCycle
import Atomicity.Proofs.Setup.Sections
import Atomicity.Proofs.Setup.Construction
import Atomicity.Proofs.Setup.Twins
import Atomicity.Proofs.Setup.Idempotent
import Atomicity.Proofs.Capability
