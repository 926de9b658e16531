/-
System calls: `src/syscall.c`, `syscall_entry` of `src/vectors.asm` and the model
specific registers of `src/common_x86_64.asm`.

`syscall_entry` works on the stack of the program that made the call.  It restores
the registers it pushed and jumps to the return address: the `sysret` behind the
jump is never reached, so that the program goes on in ring 0.  The call to end a
program is a `longjmp` to a buffer that no `setjmp` has filled.
-/

import Osdev64.SetJmp

namespace Osdev64

open Word64 Bytes

/-! ### Model specific registers -/

abbrev Msrs := BitVec 32 → Word

def ia32Efer : Word := 0xC0000080
def ia32Star : Word := 0xC0000081
def ia32Lstar : Word := 0xC0000082
def ia32Fmask : Word := 0xC0000084

/-- `wrmsr` takes the value from `edx` and `eax`. -/
def writemsr (reg data : Word) (msrs : Msrs) : Msrs :=
  let rax := data.setWidth 32 &&& -1
  let rdx := data >>> 32
  Function.update msrs (reg.setWidth 32) (rdx.setWidth 32 ++ rax)

def readmsr (reg : Word) (msrs : Msrs) : Word :=
  let rax := ((msrs (reg.setWidth 32)).setWidth 32).setWidth 64
  let rdx := ((msrs (reg.setWidth 32)) >>> 32).setWidth 32
  rax ||| rdx.setWidth 64 <<< 32

def syscallInit (entry : Word) (msrs : Msrs) : Msrs :=
  let cs : Word := 0x800000000
  let efer := readmsr ia32Efer msrs
  let msrs := writemsr ia32Efer (efer ||| 1 <<< 0) msrs
  let msrs := writemsr ia32Star cs msrs
  let msrs := writemsr ia32Fmask 0x200 msrs
  writemsr ia32Lstar entry msrs

/-! ### The call -/

/-- The instruction `syscall`, with `rip` behind it; `none` is an invalid opcode. -/
def syscallInstruction (msrs : Msrs) (cpu : Cpu) : Option Cpu :=
  if (readmsr ia32Efer msrs).getLsbD 0 then
    let selector := (readmsr ia32Star msrs >>> 32) &&& 0xFFFF
    some { (cpu.set .rcx cpu.rip).set .r11 cpu.flags with
      rip := readmsr ia32Lstar msrs
      flags := cpu.flags &&& ~~~readmsr ia32Fmask msrs
      cs := selector &&& 0xFFFC
      ss := selector + 8 }
  else none

/-- In the order in which `syscall_entry` pushes them. -/
def syscallSaved : List Reg :=
  [.rsp, .r15, .r14, .r13, .r12, .rbp, .rbx, .r11, .rcx, .rdx, .rsi, .rdi, .rax]

/-- `syscall_entry` up to the first instruction of `syscall_handler`. -/
def syscallEntry (afterCall : Word) (cpu : Cpu) : Cpu :=
  (cpu.pushRegs syscallSaved).callOnStack afterCall

/-- `syscall_entry` from the return of `syscall_handler` on. -/
def sysretEntry (cpu : Cpu) : Cpu :=
  let cpu := cpu.popRegs syscallSaved.reverse
  { cpu with rip := cpu.regs .rcx }

/-- `syscall_handler` returned, and left the interrupt flag, the segments and its argument alone. -/
structure SyscallReturned (entry exit : Cpu) : Prop extends Returned entry exit where
  frame : ∀ other, InWords (entry.regs .rdi) 13 other → exit.memory other = entry.memory other
  interrupts : exit.flags &&& 0x200 = entry.flags &&& 0x200
  cs : exit.cs = entry.cs
  ss : exit.ss = entry.ss

/-- How a call of `syscall_handler` ends: back in the program, or for call 60 behind `longjmp`.  What the
handler prints is left out. -/
inductive SyscallEnds (sysExitBuf : Word) (entry last : Cpu) : Prop
  | back (exit : Cpu) (number : loadQword entry.memory (entry.regs .rdi) ≠ 60)
      (returned : SyscallReturned entry exit) (resumed : last = sysretEntry exit)
  | left (call : Cpu) (number : loadQword entry.memory (entry.regs .rdi) = 60)
      (buffer : call.regs .rdi = sysExitBuf)
      (value : call.regs .rsi = loadQword entry.memory (entry.regs .rdi + 0x20))
      (kept : ∀ other, InWords sysExitBuf 8 other → call.memory other = entry.memory other)
      (interrupts : call.flags &&& 0x200 = entry.flags &&& 0x200) (cs : call.cs = entry.cs)
      (jumped : last = longjmp call)

variable {msrs : Msrs} {cpu entered exit call last : Cpu}
  {reg data entry afterCall sysExitBuf : Word}

/-! ### Reading back what was written -/

theorem readmsr_eq (reg : Word) (msrs : Msrs) : readmsr reg msrs = msrs (reg.setWidth 32) := by
  unfold readmsr
  generalize msrs (reg.setWidth 32) = value
  ext index inside
  simp only [BitVec.getElem_or, BitVec.getElem_setWidth, BitVec.getLsbD_setWidth, BitVec.getElem_shiftLeft,
    BitVec.getLsbD_ushiftRight]
  by_cases low : index < 32
  · simp [low, inside]
  · have split : 32 + (index - 32) = index := by omega
    simp [low, split, inside]
    omega

theorem writemsr_eq (reg data : Word) (msrs : Msrs) :
    writemsr reg data msrs = Function.update msrs (reg.setWidth 32) data := by
  have ones : (-1 : BitVec 32) = BitVec.allOnes 32 := by decide
  have whole : (data >>> 32).setWidth 32 ++ (data.setWidth 32 &&& -1) = data := by
    rw [ones, BitVec.and_allOnes]
    apply BitVec.eq_of_getLsbD_eq
    intro index inside
    rw [BitVec.getLsbD_append]
    split
    · rename_i low
      simp [low]
    · rename_i high
      have split' : 32 + (index - 32) = index := by omega
      have short : index - 32 < 32 := by omega
      rw [BitVec.getLsbD_setWidth, BitVec.getLsbD_ushiftRight, split']
      simp [short]
  unfold writemsr
  simp only
  rw [whole]

theorem syscallInit_eq (entry : Word) (msrs : Msrs) :
    readmsr ia32Efer (syscallInit entry msrs) = readmsr ia32Efer msrs ||| 1 ∧
      readmsr ia32Star (syscallInit entry msrs) = 0x800000000 ∧
      readmsr ia32Fmask (syscallInit entry msrs) = 0x200 ∧
      readmsr ia32Lstar (syscallInit entry msrs) = entry := by
  unfold syscallInit
  simp only [readmsr_eq, writemsr_eq]
  refine ⟨?_, ?_, ?_, ?_⟩
  · rw [Function.update_of_ne (by decide), Function.update_of_ne (by decide),
      Function.update_of_ne (by decide), Function.update_self]
    rfl
  · rw [Function.update_of_ne (by decide), Function.update_of_ne (by decide), Function.update_self]
  · rw [Function.update_of_ne (by decide), Function.update_self]
  · rw [Function.update_self]

/-! ### There and back -/

/-- After `syscall_init` the instruction enters the kernel at ring 0 with interrupts off. -/
theorem syscallInstruction_eq (entry : Word) (msrs : Msrs) (cpu : Cpu) :
    syscallInstruction (syscallInit entry msrs) cpu =
      some { (cpu.set .rcx cpu.rip).set .r11 cpu.flags with
        rip := entry
        flags := cpu.flags &&& ~~~0x200
        cs := 0x08
        ss := 0x10 } := by
  obtain ⟨efer, star, fmask, lstar⟩ := syscallInit_eq entry msrs
  have enabled : (readmsr ia32Efer msrs ||| 1).getLsbD 0 = true := by
    rw [BitVec.getLsbD_or]
    simp
  unfold syscallInstruction
  rw [efer, star, fmask, lstar, if_pos enabled]
  rfl

/-- What the processor is in when `syscall_entry` begins. -/
structure Entered (cpu entered : Cpu) : Prop where
  cs : entered.cs = 0x08
  interrupts : entered.flags &&& 0x200 = 0
  rcx : entered.regs .rcx = cpu.rip
  r11 : entered.regs .r11 = cpu.flags
  rsp : entered.rsp = cpu.rsp
  regs : ∀ r, r ≠ .rcx → r ≠ .r11 → entered.regs r = cpu.regs r
  memory : entered.memory = cpu.memory

theorem entered_of_syscall (made : syscallInstruction (syscallInit entry msrs) cpu = some entered) :
    Entered cpu entered := by
  rw [syscallInstruction_eq, Option.some.injEq] at made
  subst made
  refine ⟨rfl, ?_, ?_, ?_, ?_, ?_, rfl⟩
  · change cpu.flags &&& ~~~0x200 &&& 0x200 = 0
    rw [BitVec.and_assoc]
    exact BitVec.and_zero
  · simp [Cpu.set, Function.update]
  · simp [Cpu.set, Function.update]
  · simp [Cpu.set, Cpu.rsp, Function.update]
  · intro r notRcx notR11
    simp [Cpu.set, Function.update, notRcx, notR11]

theorem length_syscallSaved (values : Reg → Word) : (syscallSaved.reverse.map values).length = 13 := by
  rw [List.length_map]
  rfl

theorem called_syscallEntry (cpu : Cpu) (afterCall : Word) :
    Cpu.Called (cpu.pushRegs syscallSaved) (syscallEntry afterCall cpu)
      (syscallSaved.reverse.map cpu.regs) afterCall := by
  have saved : cpu.pushRegs syscallSaved = cpu.pushAll (syscallSaved.map cpu.regs) :=
    Cpu.pushRegs_cons_eq (by decide)
  have start : StackAt cpu.memory cpu.rsp [] := trivial
  have pushed := Cpu.stackAt_pushAll (syscallSaved.map cpu.regs) start (by
    rw [List.length_map]
    decide)
  rw [← saved, ← List.map_reverse, List.append_nil] at pushed
  exact Cpu.called_callOnStack pushed (by rw [length_syscallSaved]; decide) afterCall

theorem SyscallReturned.stack (returned : SyscallReturned (syscallEntry afterCall cpu) exit) :
    StackAt exit.memory exit.rsp (syscallSaved.reverse.map cpu.regs) := by
  have called := called_syscallEntry cpu afterCall
  rw [returned.rsp, called.rsp, sub_add_cancel, ← called.argument]
  refine called.frame.congr (by rw [length_syscallSaved]; decide) fun other inside => ?_
  rw [length_syscallSaved] at inside
  exact returned.frame other inside

theorem resumed_of_stack (stack : StackAt exit.memory exit.rsp (syscallSaved.reverse.map cpu.regs)) :
    (∀ r ∈ syscallSaved, (sysretEntry exit).regs r = cpu.regs r) ∧
      (sysretEntry exit).rip = cpu.regs .rcx ∧ (sysretEntry exit).flags = exit.flags ∧
      (sysretEntry exit).cs = exit.cs := by
  have order : syscallSaved.reverse = syscallSaved.tail.reverse ++ [.rsp] := rfl
  rw [order] at stack
  obtain ⟨restored, flags, cs⟩ := Cpu.popRegs_rsp (by decide) stack
  rw [← order] at restored flags cs
  unfold sysretEntry
  generalize exit.popRegs syscallSaved.reverse = popped at restored flags cs ⊢
  have same (r : Reg) (saved : r ∈ syscallSaved) : popped.regs r = cpu.regs r :=
    restored r (List.mem_reverse.mpr saved)
  exact ⟨same, same .rcx (by decide), flags, cs⟩

theorem syscallEntry_kept (afterCall : Word) (cpu : Cpu) :
    (syscallEntry afterCall cpu).flags = cpu.flags ∧ (syscallEntry afterCall cpu).cs = cpu.cs := by
  have saved : cpu.pushRegs syscallSaved = cpu.pushAll (syscallSaved.map cpu.regs) :=
    Cpu.pushRegs_cons_eq (by decide)
  have same := Cpu.sameBut_pushAll cpu (syscallSaved.map cpu.regs)
  rw [← saved] at same
  exact ⟨same.flags, same.cs⟩

/-- The thirteen registers and the return address lie below the stack pointer of the program. -/
theorem memory_syscallEntry {other : Word} (afterCall : Word)
    (outside : ¬InWords (cpu.rsp - BitVec.ofNat 64 (8 * 14)) 14 other) :
    (syscallEntry afterCall cpu).memory other = cpu.memory other := by
  have saved : cpu.pushRegs syscallSaved = cpu.pushAll (syscallSaved.map cpu.regs) :=
    Cpu.pushRegs_cons_eq (by decide)
  have length : (syscallSaved.map cpu.regs).length = 13 := by
    rw [List.length_map]
    rfl
  have slot : ¬InWords ((cpu.pushRegs syscallSaved).rsp - 8) 1 other := by
    rw [saved, Cpu.rsp_pushAll, length]
    exact not_inWords_part (a := 13) (b := 1) outside (by decide)
  have registers : ¬InWords (cpu.rsp - BitVec.ofNat 64 (8 * 13)) 13 other := by
    have part := not_inWords_part (a := 0) (b := 13) outside (by decide)
    rwa [Nat.mul_zero, BitVec.sub_zero] at part
  rw [(called_syscallEntry cpu afterCall).memory other slot, saved]
  refine Cpu.memory_pushAll ?_ ?_
  · rw [length]
    decide
  · rw [length]
    exact registers

theorem syscallEntry_fields (afterCall : Word) (cpu : Cpu) :
    let entry := syscallEntry afterCall cpu
    loadQword entry.memory (entry.regs .rdi) = cpu.regs .rax ∧
      loadQword entry.memory (entry.regs .rdi + 0x20) = cpu.regs .rcx := by
  intro entry
  obtain ⟨number, _, _, _, rip, _⟩ := (called_syscallEntry cpu afterCall).frame
  simp only [add_assoc] at rip
  exact ⟨number, rip⟩

theorem resumed_of_returned (returned : SyscallReturned (syscallEntry afterCall cpu) exit) :
    (∀ r ∈ syscallSaved, (sysretEntry exit).regs r = cpu.regs r) ∧
      (sysretEntry exit).rip = cpu.regs .rcx ∧
      (sysretEntry exit).flags &&& 0x200 = cpu.flags &&& 0x200 ∧ (sysretEntry exit).cs = cpu.cs := by
  obtain ⟨restored, rip, flags, cs⟩ := resumed_of_stack returned.stack
  obtain ⟨flags', cs'⟩ := syscallEntry_kept afterCall cpu
  refine ⟨restored, rip, ?_, ?_⟩
  · rw [flags, returned.interrupts, flags']
  · rw [cs, returned.cs, cs']

theorem longjmp_unset (unset : ∀ other, InWords (call.regs .rdi) 8 other → call.memory other = 0) :
    (longjmp call).rsp = 0 ∧ (longjmp call).rip = 0 := by
  have word (address : Word) : loadQword (fun _ => 0) address = 0 := by
    change BitVec.ofNat 64 (value (fun _ => 0) 8 0) = 0
    simp [value]
  have empty : StackAt (fun _ => 0) (call.regs .rdi) [0, 0, 0, 0, 0, 0, 0, 0] :=
    ⟨word _, word _, word _, word _, word _, word _, word _, word _, trivial⟩
  obtain ⟨rsp, rip, _⟩ := longjmp_loads (empty.congr (by decide) unset)
  exact ⟨rsp, rip⟩

/-- A program whose system call ends goes on in ring 0 with interrupts off: behind the call with the registers
that `syscall_entry` saved, and for call 60, from a stack apart from the buffer, at address 0 with an empty
stack pointer. -/
theorem syscall_stays_in_ring0 (made : syscallInstruction (syscallInit entry msrs) cpu = some entered)
    (ends : SyscallEnds sysExitBuf (syscallEntry afterCall entered) last)
    (unset : ∀ other, InWords sysExitBuf 8 other → cpu.memory other = 0)
    (apart : ∀ other, InWords sysExitBuf 8 other → ¬InWords (cpu.rsp - BitVec.ofNat 64 (8 * 14)) 14 other) :
    last.cs = 0x08 ∧ last.flags &&& 0x200 = 0 ∧
      (cpu.regs .rax ≠ 60 → last.rip = cpu.rip ∧ last.regs .r11 = cpu.flags ∧
        ∀ r ∈ syscallSaved, r ≠ .rcx → r ≠ .r11 → last.regs r = cpu.regs r) ∧
      (cpu.regs .rax = 60 → last.rip = 0 ∧ last.rsp = 0 ∧ last.regs .rax = cpu.rip) := by
  obtain ⟨number', rip'⟩ := syscallEntry_fields afterCall entered
  obtain ⟨flags', cs'⟩ := syscallEntry_kept afterCall entered
  obtain ⟨ring0, off, rcx, r11, rsp', same, memory⟩ := entered_of_syscall made
  rw [same .rax (by decide) (by decide)] at number'
  cases ends with
  | back exit number returned resumed =>
    rw [number'] at number
    obtain ⟨restored, rip, flags, cs⟩ := resumed_of_returned returned
    rw [← resumed] at restored rip flags cs
    refine ⟨cs.trans ring0, flags.trans off, fun _ => ⟨rip.trans rcx, ?_, ?_⟩, fun exits => absurd exits number⟩
    · exact (restored .r11 (by decide)).trans r11
    · intro r saved notRcx notR11
      exact (restored r saved).trans (same r notRcx notR11)
  | left call number buffer value kept interrupts cs jumped =>
    rw [number'] at number
    have empty : ∀ other, InWords (call.regs .rdi) 8 other → call.memory other = 0 := by
      intro other inside
      rw [buffer] at inside
      have outside := apart other inside
      rw [← rsp'] at outside
      rw [kept other inside, memory_syscallEntry afterCall outside, memory]
      exact unset other inside
    obtain ⟨rsp, rip⟩ := longjmp_unset empty
    rw [jumped]
    refine ⟨(cs.trans cs').trans ring0, ?_, fun other => absurd number other, fun _ => ⟨rip, rsp, ?_⟩⟩
    · exact (interrupts.trans (congrArg (· &&& 0x200) flags')).trans off
    · rw [rax_longjmp, value, rip', rcx]

theorem syscallReturned_ret (entry : Cpu) : SyscallReturned entry entry.ret :=
  { Cpu.returned_ret entry with frame := fun _ _ => rfl, interrupts := rfl, cs := rfl, ss := rfl }

/-- A program in ring 3 about to make call 1. -/
def userCaller : Cpu where
  regs r := if r = .rax then 1 else 0x1000
  rip := 0x400000
  flags := 0x202
  cs := 0x1B
  ss := 0x23
  memory _ := 0

theorem syscall_stays_in_ring0_write : userCaller.cs = 0x1B ∧ ∃ entered,
    syscallInstruction (syscallInit 0 fun _ => 0) userCaller = some entered ∧
      (sysretEntry (syscallEntry 0 entered).ret).cs = 0x08 ∧
      (sysretEntry (syscallEntry 0 entered).ret).rip = userCaller.rip := by
  obtain ⟨entered, made⟩ : ∃ entered, syscallInstruction (syscallInit 0 fun _ => 0) userCaller = some entered :=
    ⟨_, syscallInstruction_eq 0 (fun _ => 0) userCaller⟩
  obtain ⟨number, _⟩ := syscallEntry_fields 0 entered
  rw [(entered_of_syscall made).regs .rax (by decide) (by decide)] at number
  have ends : SyscallEnds 0x2000 (syscallEntry 0 entered) (sysretEntry (syscallEntry 0 entered).ret) := by
    refine .back _ ?_ (syscallReturned_ret _) rfl
    rw [number]
    decide
  obtain ⟨cs, _, back, _⟩ := syscall_stays_in_ring0 made ends (fun _ _ => rfl) (by
    intro other inside near
    have inside' : (other - 0x2000 : Word).toNat < 64 := inside
    have near' : (other - 0xF90 : Word).toNat < 112 := near
    bv_omega)
  exact ⟨rfl, entered, made, cs, (back (by decide)).1⟩

end Osdev64
