import RumpBaremetal.Lib.StepSystem
import RumpBaremetal.Lib.Extent
import RumpBaremetal.Kernel.Pages
import RumpBaremetal.Kernel.Threads
import RumpBaremetal.Kernel.Sched
import RumpBaremetal.Proofs.Pages
import RumpBaremetal.Proofs.Lifecycle
import RumpBaremetal.Proofs.Join
import RumpBaremetal.Fiber.Wait
import RumpBaremetal.Fiber.Isr
import RumpBaremetal.Proofs.Wait
import RumpBaremetal.Fiber.Mutex
import RumpBaremetal.Proofs.Mutex
import RumpBaremetal.Proofs.CondVar
import RumpBaremetal.Fiber.Sleep
import RumpBaremetal.Proofs.Sleep
import RumpBaremetal.Proofs.MutexSleep
import RumpBaremetal.Fiber.Rwlock
import RumpBaremetal.Proofs.Rwlock
import RumpBaremetal.Kernel.Memalloc
import RumpBaremetal.Lib.Align
import RumpBaremetal.Proofs.Memalloc
import RumpBaremetal.Proofs.Heap
import RumpBaremetal.Kernel.Cons
import RumpBaremetal.Proofs.Cons
import RumpBaremetal.Arch.Machdep
import RumpBaremetal.Lib.Listing
import RumpBaremetal.Lib.I386
import RumpBaremetal.Lib.Patch
import RumpBaremetal.Arch.Switch
import RumpBaremetal.Proofs.Switch
import RumpBaremetal.Kernel.Intr
import RumpBaremetal.Proofs.Intr
import RumpBaremetal.Proofs.RoundRobin
import RumpBaremetal.Kernel.Store
import RumpBaremetal.Proofs.Store
import RumpBaremetal.Lib.Fifo
import RumpBaremetal.Proofs.CvOrder
import RumpBaremetal.Proofs.StaleFree
import RumpBaremetal.Proofs.Alone
import RumpBaremetal.Proofs.Isr
import RumpBaremetal.Proofs.WakeReasons
import RumpBaremetal.Kernel.Subr
import RumpBaremetal.Kernel.LibcMalloc
import RumpBaremetal.Proofs.Subr
import RumpBaremetal.Kernel.Rumpuser
import RumpBaremetal.Proofs.Realloc
import RumpBaremetal.Proofs.LibcMalloc
import RumpBaremetal.Fiber.RwUpgrade
import RumpBaremetal.Proofs.RwUpgrade
import RumpBaremetal.Fiber.Timed
import RumpBaremetal.Proofs.Timedwait
import RumpBaremetal.Proofs.ClockSleep
import RumpBaremetal.Kernel.Boot
import RumpBaremetal.Lib.Cursor
import RumpBaremetal.Proofs.Boot
import RumpBaremetal.Lib.Decimal
import RumpBaremetal.Proofs.Rumpuser
import RumpBaremetal.Kernel.Rumppci
import RumpBaremetal.Proofs.Rumppci
import RumpBaremetal.Lib.Interrupt
import RumpBaremetal.Arch.IsrStubs
import RumpBaremetal.Proofs.IsrStubs
import RumpBaremetal.Kernel.LibcEmul
import RumpBaremetal.Proofs.LibcEmul
import RumpBaremetal.Proofs.SizeClass
import RumpBaremetal.Kernel.Queue
import RumpBaremetal.Proofs.Queue
import RumpBaremetal.Fiber.WaitLinks
import RumpBaremetal.Kernel.SchedLinks
import RumpBaremetal.Proofs.SchedLinks
import RumpBaremetal.Proofs.WaitLinks
import RumpBaremetal.Proofs.Memory
import RumpBaremetal.Proofs.ThreadMemory
import RumpBaremetal.Proofs.Librt
import RumpBaremetal.Proofs.Delivery
import RumpBaremetal.Proofs.Tls
import RumpBaremetal.Proofs.Processor
import RumpBaremetal.Proofs.NodeSleep
