/-
The way into `trap` and back: `src/vectors.asm`.

The processor pushes five words, and an error code for some exceptions.  The stub
of a vector pushes a zero where it expects no error code, and the vector.  Behind
that `trap_handler` pushes the registers, so that the stack is a `struct
registers`, calls `trap`, pops everything again and drops two words.  For five
vectors the stub and the processor disagree about the error code.
-/

import Osdev64.Amd64

namespace Osdev64

open Word64 Bytes

/-- The exceptions for which the processor pushes an error code. -/
def pushesErrorCode (n : Nat) : Bool := n ∈ [8, 10, 11, 12, 13, 14, 17, 21, 29, 30]

/-- The stubs of `vectors.asm` without `push 0`. -/
def stubOmitsZero (n : Nat) : Bool := n ∈ [8, 10, 11, 12, 13, 14, 16]

/-- Where the code was linked to. -/
structure TrapText where
  vectors : Nat → Word
  trap : Word
  afterCall : Word

def errorWords (n : Nat) (code : Word) : List Word := if pushesErrorCode n then [code] else []

def zeroWords (n : Nat) : List Word := if stubOmitsZero n then [] else [0]

/-- Interrupt gates clear the interrupt flag; `idt_init` makes trap gates of these two. -/
def isTrapGate (n : Nat) : Bool := n = 3 ∨ n = 0x80

/-- The flags TF, NT, RF and VM, and IF. -/
def enteredFlags (n : Nat) (flags : Word) : Word :=
  if isTrapGate n then flags &&& ~~~0x34100 else flags &&& ~~~0x34300

/-- The stack the processor switches to when it comes from ring 3, or goes on with, aligned. -/
def interruptStack (rsp0 : Word) (cpu : Cpu) : Word :=
  (if cpu.cs &&& 3 = 3 then rsp0 else cpu.rsp) &&& ~~~15

/-- What the processor does for the vector `n` of an exception or a device; an `int n` never pushes an
error code.  The flags are those it saves: at a fault, with RF set. -/
def deliverVector (text : TrapText) (rsp0 : Word) (n : Nat) (code : Word) (cpu : Cpu) : Cpu :=
  { (cpu.set .rsp (interruptStack rsp0 cpu)).pushAll
      ([cpu.ss, cpu.rsp, cpu.flags, cpu.cs, cpu.rip] ++ errorWords n code) with
    rip := text.vectors n
    flags := enteredFlags n cpu.flags
    cs := 0x08
    ss := if cpu.cs &&& 3 = 3 then 0 else cpu.ss }

def vectorStub (n : Nat) (cpu : Cpu) : Cpu := cpu.pushAll (zeroWords n ++ [BitVec.ofNat 64 n])

/-- In the order in which `trap_handler` pushes them. -/
def trapSaved : List Reg :=
  [.r15, .r14, .r13, .r12, .r11, .r10, .r9, .r8, .rdi, .rsi, .rbp, .rbx, .rdx, .rcx, .rax]

/-- `trap_handler` up to the first instruction of `trap`. -/
def trapHandlerEntry (text : TrapText) (cpu : Cpu) : Cpu :=
  let cpu := { cpu with flags := cpu.flags &&& ~~~0x200 }
  let cpu := cpu.pushRegs trapSaved
  { cpu.callOnStack text.afterCall with rip := text.trap }

/-- `trap_handler` from the return of `trap` up to `iretq`. -/
def trapHandlerRestore (cpu : Cpu) : Cpu :=
  let cpu := cpu.popRegs trapSaved.reverse
  cpu.set .rsp (cpu.rsp + 16)

def trapHandlerExit (cpu : Cpu) : Cpu := (trapHandlerRestore cpu).iretq

def trapEntry (text : TrapText) (rsp0 : Word) (n : Nat) (code : Word) (cpu : Cpu) : Cpu :=
  trapHandlerEntry text (vectorStub n (deliverVector text rsp0 n code cpu))

/-- The words that lie on the stack when `trap` is called, from its argument on. -/
def frameWords (n : Nat) (code : Word) (cpu : Cpu) : List Word :=
  trapSaved.reverse.map cpu.regs ++ (BitVec.ofNat 64 n :: zeroWords n ++ errorWords n code ++
    [cpu.rip, cpu.cs, cpu.flags, cpu.rsp, cpu.ss])

variable {text : TrapText} {rsp0 code : Word} {n : Nat} {cpu exit : Cpu}

/-! ### The way in -/

theorem length_errorWords (n : Nat) (code : Word) : (errorWords n code).length ≤ 1 := by
  unfold errorWords
  split
  · exact Nat.le_refl 1
  · exact Nat.zero_le 1

theorem length_zeroWords (n : Nat) : (zeroWords n).length ≤ 1 := by
  unfold zeroWords
  split
  · exact Nat.zero_le 1
  · exact Nat.le_refl 1

theorem zeroWords_reverse (n : Nat) : (zeroWords n).reverse = zeroWords n := by
  unfold zeroWords
  split
  · rfl
  · rfl

theorem errorWords_reverse (n : Nat) (code : Word) : (errorWords n code).reverse = errorWords n code := by
  unfold errorWords
  split
  · rfl
  · rfl

/-- What the processor pushes. -/
def deliveredWords (n : Nat) (code : Word) (cpu : Cpu) : List Word :=
  [cpu.ss, cpu.rsp, cpu.flags, cpu.cs, cpu.rip] ++ errorWords n code

theorem deliveredWords_reverse (n : Nat) (code : Word) (cpu : Cpu) : (deliveredWords n code cpu).reverse =
    errorWords n code ++ [cpu.rip, cpu.cs, cpu.flags, cpu.rsp, cpu.ss] := by
  unfold deliveredWords
  rw [List.reverse_append, errorWords_reverse]
  rfl

theorem deliver_memory : (deliverVector text rsp0 n code cpu).memory =
    ((cpu.set .rsp (interruptStack rsp0 cpu)).pushAll (deliveredWords n code cpu)).memory := by
  unfold deliverVector deliveredWords
  dsimp only

theorem deliver_regs : (deliverVector text rsp0 n code cpu).regs =
    ((cpu.set .rsp (interruptStack rsp0 cpu)).pushAll (deliveredWords n code cpu)).regs := by
  unfold deliverVector deliveredWords
  dsimp only

theorem stackAt_deliver (text : TrapText) (rsp0 : Word) (n : Nat) (code : Word) (cpu : Cpu) :
    StackAt (deliverVector text rsp0 n code cpu).memory (deliverVector text rsp0 n code cpu).rsp
      (errorWords n code ++ [cpu.rip, cpu.cs, cpu.flags, cpu.rsp, cpu.ss]) := by
  have few := length_errorWords n code
  have start : StackAt (cpu.set .rsp (interruptStack rsp0 cpu)).memory
      (cpu.set .rsp (interruptStack rsp0 cpu)).rsp [] := trivial
  have pushed := Cpu.stackAt_pushAll (deliveredWords n code cpu) start (by
    simp only [deliveredWords, List.length_append, List.length_cons, List.length_nil]
    omega)
  rw [deliveredWords_reverse, List.append_nil] at pushed
  unfold Cpu.rsp at pushed ⊢
  rwa [deliver_memory, deliver_regs]

theorem regs_deliver {r : Reg} (different : r ≠ .rsp) :
    (deliverVector text rsp0 n code cpu).regs r = cpu.regs r := by
  rw [deliver_regs]
  exact ((Cpu.sameBut_pushAll _ _).regs r different).trans (Cpu.regs_set_of_ne different _)

theorem stackAt_stub (text : TrapText) (rsp0 : Word) (n : Nat) (code : Word) (cpu : Cpu) :
    StackAt (vectorStub n (deliverVector text rsp0 n code cpu)).memory
      (vectorStub n (deliverVector text rsp0 n code cpu)).rsp
      (BitVec.ofNat 64 n :: zeroWords n ++ errorWords n code ++
        [cpu.rip, cpu.cs, cpu.flags, cpu.rsp, cpu.ss]) := by
  have few := length_errorWords n code
  have few' := length_zeroWords n
  have pushed := Cpu.stackAt_pushAll (zeroWords n ++ [BitVec.ofNat 64 n])
    (stackAt_deliver text rsp0 n code cpu) (by
      simp only [List.length_append, List.length_cons, List.length_nil]
      omega)
  rw [List.reverse_append, zeroWords_reverse, ← List.append_assoc] at pushed
  exact pushed

theorem regs_stub {r : Reg} (different : r ≠ .rsp) :
    (vectorStub n (deliverVector text rsp0 n code cpu)).regs r = cpu.regs r :=
  ((Cpu.sameBut_pushAll _ _).regs r different).trans (regs_deliver different)

/-- What `trap_handler` adds to the stack. -/
structure HandlerCalled (text : TrapText) (words : List Word) (cpu entry : Cpu) : Prop where
  frame : StackAt entry.memory (entry.regs .rdi) (trapSaved.reverse.map cpu.regs ++ words)
  argument : entry.regs .rdi = cpu.rsp - 120
  rsp : entry.rsp = entry.regs .rdi - 8
  back : loadQword entry.memory entry.rsp = text.afterCall
  memory : ∀ other, ¬InWords (cpu.rsp - BitVec.ofNat 64 (8 * 16)) 16 other →
    entry.memory other = cpu.memory other

theorem handlerCalled {words : List Word} (text : TrapText) (stack : StackAt cpu.memory cpu.rsp words)
    (short : words.length ≤ 100) : HandlerCalled text words cpu (trapHandlerEntry text cpu) := by
  let quiet : Cpu := { cpu with flags := cpu.flags &&& ~~~0x200 }
  have start : StackAt quiet.memory quiet.rsp words := stack
  have count : (trapSaved.map cpu.regs).length = 15 := rfl
  have pushed := Cpu.stackAt_pushAll (trapSaved.map cpu.regs) start (by omega)
  have top := Cpu.rsp_pushAll quiet (trapSaved.map cpu.regs)
  have written : ∀ other, ¬InWords (cpu.rsp - BitVec.ofNat 64 (8 * 16)) 16 other →
      (quiet.pushAll (trapSaved.map cpu.regs)).memory other = cpu.memory other := by
    intro other outside
    refine Cpu.memory_pushAll (by omega) ?_
    have part := not_inWords_part (a := 0) (b := 15) outside (by decide)
    rw [Nat.mul_zero, BitVec.sub_zero] at part
    exact part
  have saved : quiet.pushRegs trapSaved = quiet.pushAll (trapSaved.map cpu.regs) :=
    Cpu.pushRegs_eq (by decide)
  have entered : trapHandlerEntry text cpu =
      { (quiet.pushRegs trapSaved).callOnStack text.afterCall with rip := text.trap } := rfl
  rw [← saved, ← List.map_reverse] at pushed
  rw [← saved] at top written
  rw [entered]
  generalize quiet.pushRegs trapSaved = full at pushed top written ⊢
  have called := Cpu.called_callOnStack pushed (by
    rw [List.length_append, List.length_map, List.length_reverse]
    change 8 * (15 + words.length) + 8 ≤ _
    omega) text.afterCall
  refine ⟨called.frame, called.argument.trans top, ?_, called.back, ?_⟩
  · refine called.rsp.trans ?_
    rw [← called.argument]
  · intro other outside
    have part := not_inWords_part (a := 15) (b := 1) outside (by decide)
    refine (called.memory other ?_).trans (written other outside)
    rw [top]
    exact part

theorem called_trapEntry (text : TrapText) (rsp0 : Word) (n : Nat) (code : Word) (cpu : Cpu) :
    HandlerCalled text (BitVec.ofNat 64 n :: zeroWords n ++ errorWords n code ++
        [cpu.rip, cpu.cs, cpu.flags, cpu.rsp, cpu.ss])
      (vectorStub n (deliverVector text rsp0 n code cpu)) (trapEntry text rsp0 n code cpu) := by
  have few := length_errorWords n code
  have few' := length_zeroWords n
  apply handlerCalled text (stackAt_stub text rsp0 n code cpu)
  simp only [List.length_append, List.length_cons, List.length_nil]
  omega

theorem trapEntry_called (text : TrapText) (rsp0 : Word) (n : Nat) (code : Word) (cpu : Cpu) :
    StackAt (trapEntry text rsp0 n code cpu).memory ((trapEntry text rsp0 n code cpu).regs .rdi)
        (frameWords n code cpu) ∧
      (trapEntry text rsp0 n code cpu).rsp = (trapEntry text rsp0 n code cpu).regs .rdi - 8 ∧
      loadQword (trapEntry text rsp0 n code cpu).memory (trapEntry text rsp0 n code cpu).rsp =
        text.afterCall := by
  have called := called_trapEntry text rsp0 n code cpu
  have same : trapSaved.reverse.map (vectorStub n (deliverVector text rsp0 n code cpu)).regs =
      trapSaved.reverse.map cpu.regs := by
    apply List.map_congr_left
    intro r inside
    apply regs_stub
    rintro rfl
    exact absurd inside (by decide)
  have frame := called.frame
  rw [same] at frame
  exact ⟨frame, called.rsp, called.back⟩

theorem deliver_rsp (text : TrapText) (rsp0 : Word) (n : Nat) (code : Word) (cpu : Cpu) :
    (deliverVector text rsp0 n code cpu).rsp =
      interruptStack rsp0 cpu - BitVec.ofNat 64 (8 * (5 + (errorWords n code).length)) := by
  unfold Cpu.rsp
  rw [deliver_regs]
  change ((cpu.set .rsp (interruptStack rsp0 cpu)).pushAll (deliveredWords n code cpu)).rsp = _
  rw [Cpu.rsp_pushAll, Cpu.rsp_set_rsp, deliveredWords, List.length_append]
  rfl

theorem stub_rsp (text : TrapText) (rsp0 : Word) (n : Nat) (code : Word) (cpu : Cpu) :
    (vectorStub n (deliverVector text rsp0 n code cpu)).rsp = interruptStack rsp0 cpu -
      BitVec.ofNat 64 (8 * (6 + (zeroWords n).length + (errorWords n code).length)) := by
  have sum : BitVec.ofNat 64 (8 * (6 + (zeroWords n).length + (errorWords n code).length)) =
      BitVec.ofNat 64 (8 * (5 + (errorWords n code).length)) +
        BitVec.ofNat 64 (8 * ((zeroWords n).length + 1)) := by
    rw [← BitVec.ofNat_add]
    congr 1
    omega
  unfold vectorStub
  rw [Cpu.rsp_pushAll, deliver_rsp, List.length_append, List.length_singleton, sum, sub_sub]

/-- The stack pointer at the call of `trap`: the frame and the return address are below the stack
the processor chose. -/
theorem trapEntry_rsp (text : TrapText) (rsp0 : Word) (n : Nat) (code : Word) (cpu : Cpu) :
    (trapEntry text rsp0 n code cpu).rsp = interruptStack rsp0 cpu -
      BitVec.ofNat 64 (8 * (22 + (zeroWords n).length + (errorWords n code).length)) := by
  have called := called_trapEntry text rsp0 n code cpu
  have entered := called.rsp
  rw [called.argument, stub_rsp] at entered
  have sum : BitVec.ofNat 64 (8 * (22 + (zeroWords n).length + (errorWords n code).length)) =
      BitVec.ofNat 64 (8 * (6 + (zeroWords n).length + (errorWords n code).length)) + (120 + 8) := by
    change _ = _ + BitVec.ofNat 64 128
    rw [← BitVec.ofNat_add]
    congr 1
    omega
  rw [sum, ← add_assoc, ← sub_sub, ← sub_sub]
  exact entered

theorem trapEntry_memory {other : Word}
    (outside : ¬InWords (interruptStack rsp0 cpu - BitVec.ofNat 64 (8 * 24)) 24 other) :
    (trapEntry text rsp0 n code cpu).memory other = cpu.memory other := by
  have few := length_errorWords n code
  have few' := length_zeroWords n
  have handler : (trapEntry text rsp0 n code cpu).memory other =
      (vectorStub n (deliverVector text rsp0 n code cpu)).memory other := by
    apply (called_trapEntry text rsp0 n code cpu).memory
    rw [stub_rsp]
    exact not_inWords_part outside (by omega)
  have stub : (vectorStub n (deliverVector text rsp0 n code cpu)).memory other =
      (deliverVector text rsp0 n code cpu).memory other := by
    have count : (zeroWords n ++ [BitVec.ofNat 64 n]).length = (zeroWords n).length + 1 := by
      rw [List.length_append, List.length_singleton]
    apply Cpu.memory_pushAll (by omega)
    rw [deliver_rsp, count]
    exact not_inWords_part outside (by omega)
  have delivered : (deliverVector text rsp0 n code cpu).memory other = cpu.memory other := by
    have count : (deliveredWords n code cpu).length = 5 + (errorWords n code).length :=
      List.length_append
    rw [deliver_memory]
    apply Cpu.memory_pushAll (by omega)
    rw [Cpu.rsp_set_rsp, count]
    have part := not_inWords_part (a := 0) (b := 5 + (errorWords n code).length) outside (by omega)
    rwa [Nat.mul_zero, BitVec.sub_zero] at part
  exact handler.trans (stub.trans delivered)

/-! ### The way back -/

/-- `trap` returned, and left the `struct registers` it was given alone. -/
structure TrapReturned (entry exit : Cpu) : Prop extends Returned entry exit where
  frame : ∀ other, InWords (entry.regs .rdi) 22 other → exit.memory other = entry.memory other

theorem TrapReturned.stack (returned : TrapReturned (trapEntry text rsp0 n code cpu) exit) :
    StackAt exit.memory exit.rsp ((frameWords n code cpu).take 22) := by
  obtain ⟨frame, rsp, _⟩ := trapEntry_called text rsp0 n code cpu
  rw [returned.rsp, rsp, sub_add_cancel]
  rw [← List.take_append_drop 22 (frameWords n code cpu), StackAt.append_iff] at frame
  have count := List.length_take_le 22 (frameWords n code cpu)
  refine frame.1.congr (by omega) fun other inside => returned.frame other ?_
  unfold InWords at inside ⊢
  omega

/-- `trap_handler` takes the registers from the stack and drops two words; the rest is left for `iretq`. -/
theorem trapHandlerRestore_stack {words : List Word} {skipped skipped' : Word} {values : Reg → Word}
    (stack : StackAt exit.memory exit.rsp (trapSaved.reverse.map values ++ skipped :: skipped' :: words)) :
    StackAt exit.memory (trapHandlerRestore exit).rsp words ∧
      (trapHandlerRestore exit).memory = exit.memory ∧
      ∀ r, r ≠ .rsp → (trapHandlerRestore exit).regs r = values r := by
  rw [StackAt.append_iff] at stack
  obtain ⟨registers, _, _, rest⟩ := stack
  have popped := Cpu.popped_popRegs (by decide) registers
  have place : exit.rsp + BitVec.ofNat 64 (8 * (trapSaved.reverse.map values).length) + 8 + 8 =
      exit.rsp + BitVec.ofNat 64 (8 * trapSaved.reverse.length) + 16 := by
    rw [List.length_map]
    bv_omega
  unfold trapHandlerRestore
  refine ⟨?_, popped.memory, ?_⟩
  · rw [Cpu.rsp_set_rsp, popped.rsp, ← place]
    exact rest
  · intro r notRsp
    rw [Cpu.regs_set_of_ne notRsp]
    apply popped.popped
    cases r with
    | rsp => exact absurd rfl notRsp
    | _ => decide

theorem trapHandlerExit_eq {skipped skipped' rip cs flags rsp ss : Word} {values : Reg → Word}
    (stack : StackAt exit.memory exit.rsp
      (trapSaved.reverse.map values ++ [skipped, skipped', rip, cs, flags, rsp, ss])) :
    trapHandlerExit exit =
      { regs := Function.update values .rsp rsp
        rip := rip, flags := flags, cs := cs, ss := ss, memory := exit.memory } := by
  obtain ⟨left, memory, values'⟩ := trapHandlerRestore_stack stack
  unfold trapHandlerExit
  generalize trapHandlerRestore exit = full at left memory values' ⊢
  rw [← memory] at left ⊢
  have regs : (full.set .rsp rsp).regs = Function.update values .rsp rsp := by
    funext r
    by_cases isRsp : r = .rsp
    · rw [isRsp, Cpu.regs_set_self, Function.update_self]
    · rw [Cpu.regs_set_of_ne isRsp, values' r isRsp, Function.update_of_ne isRsp]
  rw [Cpu.iretq_eq left, ← regs]
  rfl

/-- The stub leaves the zero out exactly where the processor pushes an error code. -/
def StubAgrees (n : Nat) : Prop := stubOmitsZero n = pushesErrorCode n

instance : DecidablePred StubAgrees := fun n =>
  inferInstanceAs (Decidable (stubOmitsZero n = pushesErrorCode n))

/-- The fields of `struct registers`, in their order. -/
def registerFields (n : Nat) (err : Word) (cpu : Cpu) : List Word :=
  [cpu.regs .rax, cpu.regs .rcx, cpu.regs .rdx, cpu.regs .rbx, cpu.regs .rbp, cpu.regs .rsi,
    cpu.regs .rdi, cpu.regs .r8, cpu.regs .r9, cpu.regs .r10, cpu.regs .r11, cpu.regs .r12,
    cpu.regs .r13, cpu.regs .r14, cpu.regs .r15, BitVec.ofNat 64 n, err,
    cpu.rip, cpu.cs, cpu.flags, cpu.regs .rsp, cpu.ss]

def errorNumber (n : Nat) (code : Word) : Word := if pushesErrorCode n then code else 0

theorem frameWords_of_agrees (agrees : StubAgrees n) (code : Word) (cpu : Cpu) :
    frameWords n code cpu = registerFields n (errorNumber n code) cpu := by
  unfold StubAgrees at agrees
  unfold frameWords zeroWords errorWords errorNumber
  rw [agrees]
  cases pushesErrorCode n with
  | true => rfl
  | false => rfl

theorem trapEntry_rsp_of_agrees (agrees : StubAgrees n) :
    (trapEntry text rsp0 n code cpu).rsp = interruptStack rsp0 cpu - 184 := by
  have one : (zeroWords n).length + (errorWords n code).length = 1 := by
    unfold StubAgrees at agrees
    unfold zeroWords errorWords
    rw [agrees]
    cases pushesErrorCode n with
    | true => rfl
    | false => rfl
  rw [trapEntry_rsp, Nat.add_assoc, one]
  rfl

theorem interruptStack_aligned (rsp0 : Word) (cpu : Cpu) : (interruptStack rsp0 cpu).toNat % 16 = 0 := by
  have mask : (~~~15 : Word) = BitVec.allOnes 64 <<< 4 := by decide
  unfold interruptStack
  rw [mask, toNat_and_high]
  omega

/-- `trap` gets a `struct registers` that holds the interrupted state, the vector and the error code,
on a stack that is aligned as a C function expects it. -/
theorem trap_gets_registers (text : TrapText) (rsp0 : Word) (n : Nat) (code : Word) (cpu : Cpu)
    (agrees : StubAgrees n) :
    StackAt (trapEntry text rsp0 n code cpu).memory ((trapEntry text rsp0 n code cpu).regs .rdi)
        (registerFields n (errorNumber n code) cpu) ∧
      (trapEntry text rsp0 n code cpu).rsp.toNat % 16 = 8 ∧
      ∀ other, ¬InWords (interruptStack rsp0 cpu - BitVec.ofNat 64 (8 * 24)) 24 other →
        (trapEntry text rsp0 n code cpu).memory other = cpu.memory other := by
  refine ⟨?_, ?_, fun other outside => trapEntry_memory outside⟩
  · rw [← frameWords_of_agrees agrees]
    exact (trapEntry_called text rsp0 n code cpu).1
  · have aligned := interruptStack_aligned rsp0 cpu
    have bound := (interruptStack rsp0 cpu).isLt
    rw [trapEntry_rsp_of_agrees agrees, BitVec.toNat_sub]
    change (2 ^ 64 - 184 + _) % 2 ^ 64 % 16 = 8
    omega

/-- Whatever `trap` does to memory apart from its argument, the interrupted code goes on with every
register, its flags, its stack and its privilege level as they were. -/
theorem trap_resumes (text : TrapText) (rsp0 : Word) (n : Nat) (code : Word) (cpu exit : Cpu)
    (agrees : StubAgrees n) (returned : TrapReturned (trapEntry text rsp0 n code cpu) exit) :
    trapHandlerExit exit = { cpu with memory := exit.memory } := by
  have stack := returned.stack
  rw [frameWords_of_agrees agrees] at stack
  have whole : StackAt exit.memory exit.rsp (trapSaved.reverse.map cpu.regs ++
      [BitVec.ofNat 64 n, errorNumber n code, cpu.rip, cpu.cs, cpu.flags, cpu.regs .rsp, cpu.ss]) := stack
  rw [trapHandlerExit_eq whole, Function.update_eq_self]

theorem trapReturned_ret (entry : Cpu) : TrapReturned entry entry.ret :=
  ⟨Cpu.returned_ret entry, fun _ _ => rfl⟩

/-- Kernel code with interrupts on. -/
def plainCpu : Cpu where
  regs := fun _ => 0x9000
  rip := 0x1234
  flags := 0x202
  cs := 0x08
  ss := 0x10
  memory := fun _ => 0

def plainText : TrapText := ⟨fun n => 0x100 * BitVec.ofNat 64 n, 0x200000, 0x300000⟩

theorem trap_gets_registers_breakpoint :
    StackAt (trapEntry plainText 0 3 0 plainCpu).memory ((trapEntry plainText 0 3 0 plainCpu).regs .rdi)
      (registerFields 3 0 plainCpu) :=
  (trap_gets_registers plainText 0 3 0 plainCpu (by decide)).1

theorem trap_resumes_breakpoint :
    trapHandlerExit (trapEntry plainText 0 3 0 plainCpu).ret =
      { plainCpu with memory := (trapEntry plainText 0 3 0 plainCpu).memory } :=
  trap_resumes plainText 0 3 0 plainCpu _ (by decide) (trapReturned_ret _)

theorem pushesErrorCode_of_mem :
    ∀ n ∈ [17, 21, 29, 30], pushesErrorCode n = true ∧ stubOmitsZero n = false := by
  decide

theorem stubAgrees_of_notMem (others : n ∉ [16, 17, 21, 29, 30]) : StubAgrees n := by
  unfold StubAgrees stubOmitsZero pushesErrorCode
  simp only [List.mem_cons, List.not_mem_nil, or_false] at others ⊢
  rw [decide_eq_decide]
  omega

/-- What `iretq` finds on the stack.  Where the stub and the processor disagree it is one word off: with an
error code that the stub does not know of, the code lies where the return address is expected; without
the code the stub expects, the code selector does. -/
theorem trap_loses_return (text : TrapText) (rsp0 : Word) (n : Nat) (code : Word) (cpu exit : Cpu)
    (returned : TrapReturned (trapEntry text rsp0 n code cpu) exit) :
    StackAt exit.memory (trapHandlerRestore exit).rsp
      (if n ∈ [17, 21, 29, 30] then [code, cpu.rip, cpu.cs, cpu.flags, cpu.rsp]
      else if n = 16 then [cpu.cs, cpu.flags, cpu.rsp, cpu.ss]
      else [cpu.rip, cpu.cs, cpu.flags, cpu.rsp, cpu.ss]) := by
  have stack := returned.stack
  split_ifs with extra missing
  · have words : frameWords n code cpu = trapSaved.reverse.map cpu.regs ++
        [BitVec.ofNat 64 n, 0, code, cpu.rip, cpu.cs, cpu.flags, cpu.rsp, cpu.ss] := by
      have pushes := pushesErrorCode_of_mem n extra
      unfold frameWords zeroWords errorWords
      rw [pushes.1, pushes.2]
      rfl
    rw [words] at stack
    exact (trapHandlerRestore_stack stack).1
  · subst missing
    exact (trapHandlerRestore_stack stack).1
  · have agrees : StubAgrees n := by
      apply stubAgrees_of_notMem
      rw [List.mem_cons]
      exact not_or_intro missing extra
    rw [frameWords_of_agrees agrees] at stack
    exact (trapHandlerRestore_stack stack).1

/-- The x87 exception in the kernel: the code selector is where the return address should be. -/
theorem trap_loses_return_x87 :
    StackAt (trapEntry plainText 0 16 0 plainCpu).ret.memory
      (trapHandlerRestore (trapEntry plainText 0 16 0 plainCpu).ret).rsp [0x08, 0x202, 0x9000, 0x10] :=
  trap_loses_return plainText 0 16 0 plainCpu _ (trapReturned_ret _)

end Osdev64
