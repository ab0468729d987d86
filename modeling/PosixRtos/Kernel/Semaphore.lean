import PosixRtos.Kernel.Pthread

/-! `semaphore.c`. A semaphore starts at 0; the value given to `sem_init` is the
ceiling of its count. -/
namespace PosixRtos.Kernel

open PosixRtos.Library.Rings IntrusiveList

def semValueMax : Nat := 32

def semInit (k : State) (sem : Nat) (value : Nat) : State × Int :=
  if semValueMax < value then (k, -EINVAL)
  else
    ({ k with
      sem := Function.update k.sem sem ⟨value, 0⟩
      links := listInit k.links (.head (.semWait sem)) }, 0)

def State.setSemValue (k : State) (sem value : Nat) : State :=
  { k with sem := Function.update k.sem sem { k.sem sem with value := value } }

/-- `__sem_wait`, one attempt. -/
def rawSemWait (k : State) (sem : Nat) : Option (State × Int) :=
  if (k.sem sem).value = 0 then do
    let thread ← k.currentThread
    let k ← k.suspendOn thread (.semWait sem)
    some (k, -EINVAL)
  else some (k.setSemValue sem ((k.sem sem).value - 1), 0)

def semPost (k : State) (sem : Nat) : Option (State × Int) :=
  if semValueMax ≤ (k.sem sem).value then some (k, -EINVAL)
  else do
    let k := if (k.sem sem).value < (k.sem sem).initValue then
        k.setSemValue sem ((k.sem sem).value + 1)
      else k
    let k ← k.wakeFirst (.semWait sem)
    some (k, 0)

end PosixRtos.Kernel
