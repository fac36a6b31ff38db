import ShedOS.Syscall.Fork

/-!
# Interrupt handlers

The C handlers of the HPET interrupt and of the syscall interrupt.
-/

namespace ShedOS.Interrupts

open Bytes Layout Memory Syscall
open ShedOS.Task

variable {σ η : Type} [FrameSource σ] [HeapSource η]

omit [FrameSource σ] [HeapSource η] in
/-- The handler of the HPET interrupt; `counter` is what `hpet_read_counter`
returns. -/
def isr34 (k : Kernel σ η) (frame counter : U64) : Kernel σ η × Option U64 :=
  let dus := counter - k.prevTime
  let k := { k with prevTime := counter }
  timerTick k frame (dus.setWidth 32)

def SYSCALL_PRINT : Nat := 2
def SYSCALL_FORK : Nat := 57

/-- The length of the table `syscalls`, whose last entry is that of fork. -/
def syscallsLength : Nat := SYSCALL_FORK + 1

/-- The handler of the syscall interrupt. `syscall_print` only writes to the
terminal. `none` is a read past the end of `syscalls`. -/
def isr128 (k : Kernel σ η) (frame : U64) : Option (Kernel σ η × U64) :=
  let syscallId := ((k.frameGet frame (.gprs .rax)).setWidth 8).toNat
  if syscallId < syscallsLength then
    if syscallId = SYSCALL_PRINT then some (k, 0)
    else if syscallId = SYSCALL_FORK then some (syscallFork k frame)
    else some (k, 1)
  else none

end ShedOS.Interrupts
