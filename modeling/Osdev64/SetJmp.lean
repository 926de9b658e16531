/-
`setjmp` and `longjmp`: `src/lib/setjmp.asm`.

`setjmp` returns a second time when `longjmp` is called on its buffer.  Both
returns keep what a C function has to keep; the buffer must not lie over the
return address, which `setjmp` pops and pushes again in between its stores.
-/

import Osdev64.Amd64

namespace Osdev64

open Word64 Bytes

def Cpu.store (cpu : Cpu) (address value : Word) : Cpu :=
  { cpu with memory := storeQword cpu.memory address value }

def setjmp (cpu : Cpu) : Cpu :=
  let buf := cpu.regs .rdi
  let cpu := cpu.pop .rsi
  let cpu := cpu.set .rax 0
  let cpu := cpu.store (buf + 0x00) (cpu.regs .rbx)
  let cpu := cpu.store (buf + 0x08) cpu.rsp
  let cpu := cpu.push (cpu.regs .rsi)
  let cpu := cpu.store (buf + 0x10) (cpu.regs .rbp)
  let cpu := cpu.store (buf + 0x18) (cpu.regs .r12)
  let cpu := cpu.store (buf + 0x20) (cpu.regs .r13)
  let cpu := cpu.store (buf + 0x28) (cpu.regs .r14)
  let cpu := cpu.store (buf + 0x30) (cpu.regs .r15)
  let cpu := cpu.store (buf + 0x38) (cpu.regs .rsi)
  cpu.ret

def longjmp (cpu : Cpu) : Cpu :=
  let buf := cpu.regs .rdi
  let cpu := cpu.set .rax (cpu.regs .rsi)
  let cpu := cpu.set .rbx (loadQword cpu.memory (buf + 0x00))
  let cpu := cpu.set .rsp (loadQword cpu.memory (buf + 0x08))
  let cpu := cpu.set .rbp (loadQword cpu.memory (buf + 0x10))
  let cpu := cpu.set .r12 (loadQword cpu.memory (buf + 0x18))
  let cpu := cpu.set .r13 (loadQword cpu.memory (buf + 0x20))
  let cpu := cpu.set .r14 (loadQword cpu.memory (buf + 0x28))
  let cpu := cpu.set .r15 (loadQword cpu.memory (buf + 0x30))
  { cpu with rip := loadQword cpu.memory (buf + 0x38) }

/-- The fields of `struct jmp_buf`, as `setjmp` fills them for its caller. -/
def jmpBuf (cpu : Cpu) : List Word :=
  [cpu.regs .rbx, cpu.rsp + 8, cpu.regs .rbp, cpu.regs .r12, cpu.regs .r13, cpu.regs .r14, cpu.regs .r15,
    loadQword cpu.memory cpu.rsp]

/-- The buffer does not lie over the return address. -/
def BufferApart (cpu : Cpu) : Prop :=
  ∀ other, InWords cpu.rsp 1 other → ¬InWords (cpu.regs .rdi) 8 other

variable {cpu later : Cpu} {memory : Word → Byte} {address other : Word} {words words' : List Word}

/-! ### Stores of one word after the other -/

def storeWords (memory : Word → Byte) (address : Word) : List Word → Word → Byte
  | [] => memory
  | word :: words => storeWords (storeQword memory address word) (address + 8) words

theorem storeWords_of_outside (words : List Word) (short : 8 * words.length ≤ 2 ^ 64)
    (outside : ¬InWords address words.length other) : storeWords memory address words other = memory other := by
  induction words generalizing memory address with
  | nil => rfl
  | cons word words ih =>
    unfold InWords at outside ih
    rw [List.length_cons] at short outside
    have next : (other - (address + 8)).toNat = (2 ^ 64 - 8 + (other - address).toNat) % 2 ^ 64 := by bv_omega
    have bound := (other - address).isLt
    refine (ih (by omega) (by omega)).trans (storeQword_of_far ?_)
    omega

theorem stackAt_storeWords (memory : Word → Byte) (address : Word) (short : 8 * words.length ≤ 2 ^ 64) :
    StackAt (storeWords memory address words) address words := by
  induction words generalizing memory address with
  | nil => trivial
  | cons word words ih =>
    rw [List.length_cons] at short
    refine ⟨?_, ih _ _ (by omega)⟩
    refine Eq.trans (loadQword_of_same fun other near => ?_) (loadQword_storeQword memory address word)
    refine storeWords_of_outside words (by omega) ?_
    unfold InWords
    have next : (other - (address + 8)).toNat = (2 ^ 64 - 8 + (other - address).toNat) % 2 ^ 64 := by bv_omega
    omega

/-! ### The first return -/

/-- After the push, which stands between the second store and the third. -/
def pushedMemory (cpu : Cpu) : Word → Byte :=
  storeQword (storeWords cpu.memory (cpu.regs .rdi) ((jmpBuf cpu).take 2)) cpu.rsp
    (loadQword cpu.memory cpu.rsp)

def savedMemory (cpu : Cpu) : Word → Byte :=
  storeWords (pushedMemory cpu) (cpu.regs .rdi + 16) ((jmpBuf cpu).drop 2)

theorem memory_setjmp (cpu : Cpu) : (setjmp cpu).memory = savedMemory cpu := by
  simp [setjmp, savedMemory, pushedMemory, jmpBuf, storeWords, Cpu.store, Cpu.push, Cpu.pop, Cpu.ret, Cpu.set, Cpu.rsp,
    Function.update, add_assoc]

theorem rsp_setjmp (cpu : Cpu) : (setjmp cpu).rsp = cpu.rsp + 8 := by
  simp [setjmp, Cpu.store, Cpu.push, Cpu.pop, Cpu.ret, Cpu.set, Cpu.rsp, Function.update]

theorem rip_setjmp (cpu : Cpu) : (setjmp cpu).rip = loadQword (savedMemory cpu) cpu.rsp := by
  rw [← memory_setjmp]
  simp [setjmp, Cpu.store, Cpu.push, Cpu.pop, Cpu.ret, Cpu.set, Cpu.rsp, Function.update]

theorem regs_setjmp (cpu : Cpu) :
    (setjmp cpu).regs .rax = 0 ∧ ∀ r ∈ calleeSaved, (setjmp cpu).regs r = cpu.regs r := by
  simp [setjmp, calleeSaved, Cpu.store, Cpu.push, Cpu.pop, Cpu.ret, Cpu.set, Cpu.rsp, Function.update]

theorem inWords_behind (inside : InWords (address + 16) 6 other) :
    InWords address 8 other ∧ ¬InWords address 2 other := by
  unfold InWords at *
  have shift : (other - (address + 16)).toNat = (2 ^ 64 - 16 + (other - address).toNat) % 2 ^ 64 := by bv_omega
  have bound := (other - address).isLt
  omega

theorem savedMemory_of_outside (outside : ¬InWords (cpu.regs .rdi + 16) 6 other) :
    savedMemory cpu other = pushedMemory cpu other :=
  storeWords_of_outside ((jmpBuf cpu).drop 2) (show 8 * 6 ≤ 2 ^ 64 by decide) outside

theorem stackAt_savedMemory (apart : BufferApart cpu) :
    StackAt (savedMemory cpu) (cpu.regs .rdi) (jmpBuf cpu) := by
  have two : 8 * ((jmpBuf cpu).take 2).length ≤ 2 ^ 64 := show 8 * 2 ≤ 2 ^ 64 by decide
  have six : 8 * ((jmpBuf cpu).drop 2).length ≤ 2 ^ 64 := show 8 * 6 ≤ 2 ^ 64 by decide
  rw [← List.take_append_drop 2 (jmpBuf cpu), StackAt.append_iff]
  refine ⟨(stackAt_storeWords cpu.memory (cpu.regs .rdi) two).congr two ?_, stackAt_storeWords _ _ six⟩
  intro other inside
  have first : InWords (cpu.regs .rdi) 2 other := inside
  have far : 8 ≤ (other - cpu.rsp).toNat := by
    by_contra near
    refine apart other (Nat.not_le.mp near) ?_
    unfold InWords at first ⊢
    omega
  rw [savedMemory_of_outside fun behind => (inWords_behind behind).2 first]
  exact storeQword_of_far far

theorem returned_setjmp (apart : BufferApart cpu) : Returned cpu (setjmp cpu) := by
  refine ⟨rsp_setjmp cpu, ?_, (regs_setjmp cpu).2⟩
  have same : loadQword (savedMemory cpu) cpu.rsp = loadQword (pushedMemory cpu) cpu.rsp := by
    refine loadQword_of_same fun other near => savedMemory_of_outside fun behind => ?_
    exact apart other near (inWords_behind behind).1
  rw [rip_setjmp, same]
  exact loadQword_storeQword _ _ _

/-! ### The second return -/

theorem longjmp_loads {rbx rsp rbp r12 r13 r14 r15 rip : Word}
    (stack : StackAt later.memory (later.regs .rdi) [rbx, rsp, rbp, r12, r13, r14, r15, rip]) :
    (longjmp later).rsp = rsp ∧ (longjmp later).rip = rip ∧
      calleeSaved.map (longjmp later).regs = [rbx, rbp, r12, r13, r14, r15] := by
  obtain ⟨rfl, rfl, rfl, rfl, rfl, rfl, rfl, rfl, _⟩ := stack
  simp [longjmp, calleeSaved, Cpu.rsp, Cpu.set, Function.update, add_assoc]

theorem returned_longjmp (stack : StackAt later.memory (later.regs .rdi) (jmpBuf cpu)) :
    Returned cpu (longjmp later) := by
  obtain ⟨rsp, rip, saved⟩ := longjmp_loads stack
  exact ⟨rsp, rip, List.map_inj_left.mp saved⟩

theorem rax_longjmp (later : Cpu) : (longjmp later).regs .rax = later.regs .rsi := by
  simp [longjmp, Cpu.set, Function.update]

/-- While its buffer is kept, `longjmp` makes `setjmp` return once more, with any value, also with the 0 of
the first time. -/
theorem setjmp_returns_twice (cpu later : Cpu) (apart : BufferApart cpu)
    (same : later.regs .rdi = cpu.regs .rdi)
    (kept : ∀ other, InWords (cpu.regs .rdi) 8 other → later.memory other = (setjmp cpu).memory other) :
    Returned cpu (setjmp cpu) ∧ (setjmp cpu).regs .rax = 0 ∧ Returned cpu (longjmp later) ∧
      (longjmp later).regs .rax = later.regs .rsi ∧ (longjmp later).memory = later.memory := by
  have saved := stackAt_savedMemory apart
  rw [← memory_setjmp] at saved
  have still : StackAt later.memory (later.regs .rdi) (jmpBuf cpu) := by
    rw [same]
    exact saved.congr (show 8 * 8 ≤ 2 ^ 64 by decide) kept
  exact ⟨returned_setjmp apart, (regs_setjmp cpu).1, returned_longjmp still, rax_longjmp later, rfl⟩

/-- A call of `setjmp` with the stack at `0x1000` and the buffer at `0x2000`. -/
def setjmpCaller : Cpu where
  regs r := if r = .rdi then 0x2000 else 0x1000
  rip := 0
  flags := 0
  cs := 0x08
  ss := 0x10
  memory _ := 0

/-- It cannot tell `longjmp(buf, 0)` from its own return. -/
theorem setjmp_returns_twice_zero :
    let later := { setjmpCaller.set .rsi 0 with memory := (setjmp setjmpCaller).memory }
    (longjmp later).rip = (setjmp setjmpCaller).rip ∧
      (longjmp later).regs .rax = (setjmp setjmpCaller).regs .rax := by
  intro later
  have apart : BufferApart setjmpCaller := by
    intro other near inside
    have near' : (other - 0x1000 : Word).toNat < 8 := near
    have inside' : (other - 0x2000 : Word).toNat < 64 := inside
    bv_omega
  obtain ⟨first, zero, second, value, _⟩ :=
    setjmp_returns_twice setjmpCaller later apart rfl fun _ _ => rfl
  exact ⟨second.rip.trans first.rip.symm, value.trans zero.symm⟩

end Osdev64
