/-
Module: RumpBaremetal.Fiber.RwUpgrade
Layer: Fiber
Purpose: The rest of the reader/writer lock of rumpfiber.c: the question who holds it, and the two calls
  that turn a write hold into a read hold and back.  They join the enters and exits of the lock in one
  machine.
Trusted boundary: human-reviewed spec
Main exports: rumpuserRwHeld, rumpuserRwDowngrade, rumpuserRwTryupgrade, UpgradeWorld, UpgradeEvent,
  upgradeStep
-/
import RumpBaremetal.Fiber.Rwlock

namespace RumpBaremetal.Rwlock

variable {Tid Lwp : Type*}

/-- `rumpuser_rw_held`, for the lwp `l`.  [SRC rumpfiber.c:331-344] -/
def rumpuserRwHeld [DecidableEq Lwp] (rw : RumpuserRw Lwp) (l : Option Lwp) : Rumprwlock → Bool
  | .writer => rw.o = l
  | .reader => rw.v > 0

/-- `rumpuser_rw_downgrade`; `none` is the failed assertion.  [SRC rumpfiber.c:346-352] -/
def rumpuserRwDowngrade [DecidableEq Lwp] (rw : RumpuserRw Lwp) (l : Option Lwp) :
    Option (RumpuserRw Lwp) :=
  if rw.o = l then some { rw with v := -1 } else none

/-- [SRC rumpfiber.c:354-365] -/
def rumpuserRwTryupgrade (rw : RumpuserRw Lwp) (l : Option Lwp) : Except Errno (RumpuserRw Lwp) :=
  if rw.v = -1 then .ok { v := 1, o := l } else .error .EBUSY

/-- The lock with all its calls.  `drift` is by how much the fields of the lock were ahead of the unmatched
    enters when one of the two calls last set them; no function of the source reads it. -/
structure UpgradeWorld (Tid Lwp : Type*) where
  base : World Tid Lwp
  drift : Int

inductive UpgradeEvent (Tid : Type*) where
  | lock (e : Event Tid)
  | downgrade
  | tryupgrade
deriving DecidableEq, Repr

variable [DecidableEq Tid] [DecidableEq Lwp]

def upgradeInit (tls : Tid → Option Lwp) (tcb : Tcbs Tid) (running : Tid) : UpgradeWorld Tid Lwp :=
  ⟨rumpuserRwInit tls tcb running, 0⟩

/-- The latest hold of a thread becomes one of another kind. -/
def relabel (t : Tid) (lk : Rumprwlock) : List (Tid × Rumprwlock) → List (Tid × Rumprwlock)
  | [] => []
  | hold :: held => if hold.1 = t then (t, lk) :: held else hold :: relabel t lk held

/-- The state after one of the two calls has left `rw`. -/
def UpgradeWorld.converted (s : UpgradeWorld Tid Lwp) (rw : RumpuserRw Lwp) (lk : Rumprwlock) :
    UpgradeWorld Tid Lwp where
  base := { s.base with rw := rw, held := relabel s.base.fib.currentThread lk s.base.held }
  drift := rw.v.toInt + rw.owners - s.base.held.length

/-- Only a holder downgrades or upgrades.  A run ends where the assertion of `rumpuser_rw_downgrade`
    fails. -/
def upgradeStep (s : UpgradeWorld Tid Lwp) : UpgradeEvent Tid → Option (UpgradeWorld Tid Lwp)
  | .lock e => (step s.base e).map fun w => { s with base := w }
  | .downgrade =>
      if s.base.calls ∧ s.base.holds then
        (rumpuserRwDowngrade s.base.rw (s.base.tls s.base.fib.currentThread)).map fun rw =>
          s.converted rw .reader
      else none
  | .tryupgrade =>
      if s.base.calls ∧ s.base.holds then
        match rumpuserRwTryupgrade s.base.rw (s.base.tls s.base.fib.currentThread) with
        | .ok rw => some (s.converted rw .writer)
        | .error _ => some s
      else none

end RumpBaremetal.Rwlock
