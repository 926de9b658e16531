/-
The part of the processor that the assembly files work with: the general
registers, the stack in byte memory, and calls of C functions.

A stack is described as the list of words from an address on.  The lemmas say
what pushing and popping lists of registers does to it, so that a proof about an
entry path never looks at a single address.
-/

import Osdev64.StringCopy
import Mathlib.Tactic.Abel

namespace Osdev64

open Word64 Bytes

inductive Reg where
  | rax | rcx | rdx | rbx | rsp | rbp | rsi | rdi
  | r8 | r9 | r10 | r11 | r12 | r13 | r14 | r15
  deriving DecidableEq, Repr

structure Cpu where
  regs : Reg → Word
  rip : Word
  flags : Word
  cs : Word
  ss : Word
  memory : Word → Byte

namespace Cpu

def rsp (cpu : Cpu) : Word := cpu.regs .rsp

def set (cpu : Cpu) (r : Reg) (value : Word) : Cpu :=
  { cpu with regs := Function.update cpu.regs r value }

def push (cpu : Cpu) (value : Word) : Cpu :=
  { cpu.set .rsp (cpu.rsp - 8) with memory := storeQword cpu.memory (cpu.rsp - 8) value }

/-- For `pop rsp` the loaded value stays. -/
def pop (cpu : Cpu) (r : Reg) : Cpu :=
  (cpu.set .rsp (cpu.rsp + 8)).set r (loadQword cpu.memory cpu.rsp)

def pushAll (cpu : Cpu) (values : List Word) : Cpu := values.foldl push cpu

/-- `push` of one register after the other. -/
def pushRegs (cpu : Cpu) (rs : List Reg) : Cpu := rs.foldl (fun cpu r => cpu.push (cpu.regs r)) cpu

def popRegs (cpu : Cpu) (rs : List Reg) : Cpu := rs.foldl pop cpu

/-- `mov rdi, rsp` and `call`, up to the first instruction of the function. -/
def callOnStack (cpu : Cpu) (afterCall : Word) : Cpu := (cpu.set .rdi cpu.rsp).push afterCall

def ret (cpu : Cpu) : Cpu :=
  { cpu.set .rsp (cpu.rsp + 8) with rip := loadQword cpu.memory cpu.rsp }

/-- `iretq` in 64-bit mode; the checks of the selectors are left out. -/
def iretq (cpu : Cpu) : Cpu :=
  { cpu.set .rsp (loadQword cpu.memory (cpu.rsp + 24)) with
    rip := loadQword cpu.memory cpu.rsp
    cs := loadQword cpu.memory (cpu.rsp + 8)
    flags := loadQword cpu.memory (cpu.rsp + 16)
    ss := loadQword cpu.memory (cpu.rsp + 32) }

end Cpu

/-- The words from an address on. -/
def StackAt (memory : Word → Byte) : Word → List Word → Prop
  | _, [] => True
  | address, word :: words => loadQword memory address = word ∧ StackAt memory (address + 8) words

/-- The bytes of `count` words from an address on. -/
def InWords (address : Word) (count : Nat) (other : Word) : Prop := (other - address).toNat < 8 * count

def calleeSaved : List Reg := [.rbx, .rbp, .r12, .r13, .r14, .r15]

/-- A C function that was called with `entry` returned with `exit`. -/
structure Returned (entry exit : Cpu) : Prop where
  rsp : exit.rsp = entry.rsp + 8
  rip : exit.rip = loadQword entry.memory entry.rsp
  saved : ∀ r ∈ calleeSaved, exit.regs r = entry.regs r

variable {memory memory' : Word → Byte} {address : Word} {words words' : List Word} {cpu : Cpu}

/-! ### Stacks -/

theorem loadQword_of_same {address : Word}
    (same : ∀ other, (other - address).toNat < 8 → memory' other = memory other) :
    loadQword memory' address = loadQword memory address := by
  apply loadQword_congr
  intro x below
  apply same
  rw [add_sub_cancel_left, BitVec.toNat_ofNat]
  omega

theorem not_inWords_part {top other : Word} {total a b : Nat}
    (outside : ¬InWords (top - BitVec.ofNat 64 (8 * total)) total other) (fits : a + b ≤ total) :
    ¬InWords (top - BitVec.ofNat 64 (8 * a) - BitVec.ofNat 64 (8 * b)) b other := by
  unfold InWords at outside ⊢
  have shift : other - (top - BitVec.ofNat 64 (8 * a) - BitVec.ofNat 64 (8 * b)) =
      other - (top - BitVec.ofNat 64 (8 * total)) - BitVec.ofNat 64 (8 * (total - a - b)) := by
    have sum : BitVec.ofNat 64 (8 * total) = BitVec.ofNat 64 (8 * a) + BitVec.ofNat 64 (8 * b) +
        BitVec.ofNat 64 (8 * (total - a - b)) := by
      rw [← BitVec.ofNat_add, ← BitVec.ofNat_add]
      congr 1
      omega
    rw [sum]
    abel
  rw [shift, BitVec.toNat_sub, BitVec.toNat_ofNat]
  have bound := (other - (top - BitVec.ofNat 64 (8 * total))).isLt
  generalize (other - (top - BitVec.ofNat 64 (8 * total))).toNat = distance at outside bound ⊢
  omega

theorem StackAt.congr (stack : StackAt memory address words) (short : 8 * words.length ≤ 2 ^ 64)
    (same : ∀ other, InWords address words.length other → memory' other = memory other) :
    StackAt memory' address words := by
  induction words generalizing address with
  | nil => trivial
  | cons word words ih =>
    obtain ⟨first, rest⟩ := stack
    rw [List.length_cons] at short
    constructor
    · refine (loadQword_of_same fun other near => same other ?_).trans first
      unfold InWords
      rw [List.length_cons]
      omega
    · refine ih rest (by omega) fun other near => same other ?_
      unfold InWords at near ⊢
      rw [List.length_cons]
      have next : (other - (address + 8)).toNat = (2 ^ 64 - 8 + (other - address).toNat) % 2 ^ 64 := by
        bv_omega
      have bound := (other - address).isLt
      omega

theorem StackAt.append_iff : StackAt memory address (words ++ words') ↔
    StackAt memory address words ∧ StackAt memory (address + BitVec.ofNat 64 (8 * words.length)) words' := by
  induction words generalizing address with
  | nil => simp [StackAt]
  | cons word words ih =>
    have next : address + 8 + BitVec.ofNat 64 (8 * words.length) =
        address + BitVec.ofNat 64 (8 * (words.length + 1)) := by
      rw [Nat.mul_succ, BitVec.ofNat_add]
      bv_omega
    rw [List.cons_append, List.length_cons, StackAt, StackAt, ih, next, and_assoc]

namespace Cpu

@[simp] theorem rsp_set_rsp (cpu : Cpu) (value : Word) : (cpu.set .rsp value).rsp = value := by
  simp [set, rsp]

theorem regs_set_self (cpu : Cpu) (r : Reg) (value : Word) : (cpu.set r value).regs r = value := by
  simp [set]

theorem regs_set_of_ne {r r' : Reg} (different : r ≠ r') (value : Word) :
    (cpu.set r' value).regs r = cpu.regs r :=
  Function.update_of_ne different ..

@[simp] theorem rsp_push (cpu : Cpu) (word : Word) : (cpu.push word).rsp = cpu.rsp - 8 :=
  rsp_set_rsp cpu _

theorem regs_push {r : Reg} (different : r ≠ .rsp) (word : Word) : (cpu.push word).regs r = cpu.regs r :=
  regs_set_of_ne different _

end Cpu

theorem StackAt.push (stack : StackAt cpu.memory cpu.rsp words) (short : 8 * words.length + 8 ≤ 2 ^ 64)
    (word : Word) : StackAt (cpu.push word).memory (cpu.push word).rsp (word :: words) := by
  rw [Cpu.rsp_push]
  refine ⟨loadQword_storeQword _ _ _, ?_⟩
  rw [sub_add_cancel]
  refine stack.congr (by omega) fun other near => storeQword_of_far ?_
  unfold InWords at near
  have distance : (other - (cpu.rsp - 8)).toNat = ((other - cpu.rsp).toNat + 8) % 2 ^ 64 := by bv_omega
  omega

namespace Cpu

/-- The words that are pushed come to lie on the stack in front of those already there. -/
theorem stackAt_pushAll (words : List Word) (stack : StackAt cpu.memory cpu.rsp words')
    (short : 8 * (words.length + words'.length) ≤ 2 ^ 64) :
    StackAt (cpu.pushAll words).memory (cpu.pushAll words).rsp (words.reverse ++ words') := by
  induction words generalizing cpu words' with
  | nil => exact stack
  | cons word words ih =>
    rw [List.length_cons] at short
    rw [List.reverse_cons, List.append_assoc, List.singleton_append]
    exact ih (stack.push (by omega) word) (by rw [List.length_cons]; omega)

theorem rsp_pushAll (cpu : Cpu) (words : List Word) :
    (cpu.pushAll words).rsp = cpu.rsp - BitVec.ofNat 64 (8 * words.length) := by
  induction words generalizing cpu with
  | nil => simp [pushAll]
  | cons word words ih =>
    change ((cpu.push word).pushAll words).rsp = _
    rw [ih, rsp_push, List.length_cons, Nat.mul_succ, BitVec.ofNat_add, sub_sub]
    bv_omega

/-- Everything but the stack pointer and memory. -/
structure SameBut (cpu cpu' : Cpu) : Prop where
  regs : ∀ r, r ≠ .rsp → cpu'.regs r = cpu.regs r
  rip : cpu'.rip = cpu.rip
  flags : cpu'.flags = cpu.flags
  cs : cpu'.cs = cpu.cs
  ss : cpu'.ss = cpu.ss

theorem sameBut_pushAll (cpu : Cpu) (words : List Word) : SameBut cpu (cpu.pushAll words) := by
  induction words generalizing cpu with
  | nil => exact ⟨fun _ _ => rfl, rfl, rfl, rfl, rfl⟩
  | cons word words ih =>
    obtain ⟨regs, rip, flags, cs, ss⟩ := ih (cpu.push word)
    exact ⟨fun r different => (regs r different).trans (regs_push different word), rip, flags, cs, ss⟩

theorem memory_pushAll {other : Word} (short : 8 * words.length ≤ 2 ^ 64)
    (outside : ¬InWords (cpu.rsp - BitVec.ofNat 64 (8 * words.length)) words.length other) :
    (cpu.pushAll words).memory other = cpu.memory other := by
  induction words generalizing cpu with
  | nil => rfl
  | cons word words ih =>
    unfold InWords at outside
    rw [List.length_cons] at short outside
    have far : 8 ≤ (other - (cpu.rsp - 8)).toNat := by
      have distance : other - (cpu.rsp - BitVec.ofNat 64 (8 * (words.length + 1))) =
          (other - (cpu.rsp - 8)) + BitVec.ofNat 64 (8 * words.length) := by
        rw [Nat.mul_succ, BitVec.ofNat_add]
        bv_omega
      rw [distance, BitVec.toNat_add, BitVec.toNat_ofNat] at outside
      by_contra near
      omega
    change ((cpu.push word).pushAll words).memory other = _
    rw [ih (by omega)]
    · exact storeQword_of_far far
    · unfold InWords
      rw [rsp_push]
      have start : cpu.rsp - 8 - BitVec.ofNat 64 (8 * words.length) =
          cpu.rsp - BitVec.ofNat 64 (8 * (words.length + 1)) := by
        rw [Nat.mul_succ, BitVec.ofNat_add]
        bv_omega
      rw [start]
      omega

theorem map_regs_push {rs : List Reg} (noRsp : .rsp ∉ rs) (word : Word) :
    rs.map (cpu.push word).regs = rs.map cpu.regs := by
  apply List.map_congr_left
  intro r inside
  apply regs_push
  rintro rfl
  exact noRsp inside

theorem pushRegs_eq {rs : List Reg} (noRsp : .rsp ∉ rs) :
    cpu.pushRegs rs = cpu.pushAll (rs.map cpu.regs) := by
  induction rs generalizing cpu with
  | nil => rfl
  | cons r rs ih =>
    rw [List.mem_cons, not_or] at noRsp
    change (cpu.push (cpu.regs r)).pushRegs rs = (cpu.push (cpu.regs r)).pushAll (rs.map cpu.regs)
    rw [ih noRsp.2, map_regs_push noRsp.2]

theorem pushRegs_cons_eq {r : Reg} {rs : List Reg} (noRsp : .rsp ∉ rs) :
    cpu.pushRegs (r :: rs) = cpu.pushAll ((r :: rs).map cpu.regs) := by
  change (cpu.push (cpu.regs r)).pushRegs rs = (cpu.push (cpu.regs r)).pushAll (rs.map cpu.regs)
  rw [pushRegs_eq noRsp, map_regs_push noRsp]

/-- A function was called with a pointer to the words on the stack. -/
structure Called (cpu entry : Cpu) (words : List Word) (afterCall : Word) : Prop where
  frame : StackAt entry.memory (entry.regs .rdi) words
  argument : entry.regs .rdi = cpu.rsp
  rsp : entry.rsp = cpu.rsp - 8
  back : loadQword entry.memory entry.rsp = afterCall
  memory : ∀ other, ¬InWords (cpu.rsp - 8) 1 other → entry.memory other = cpu.memory other

theorem called_callOnStack (stack : StackAt cpu.memory cpu.rsp words)
    (short : 8 * words.length + 8 ≤ 2 ^ 64) (afterCall : Word) :
    Called cpu (cpu.callOnStack afterCall) words afterCall := by
  have top : (cpu.set .rdi cpu.rsp).rsp = cpu.rsp := regs_set_of_ne (by decide) _
  have argument : (cpu.callOnStack afterCall).regs .rdi = cpu.rsp :=
    (regs_push (by decide) _).trans (regs_set_self ..)
  have rsp' : (cpu.callOnStack afterCall).rsp = cpu.rsp - 8 := by
    unfold callOnStack
    rw [rsp_push, top]
  have under : StackAt (cpu.set .rdi cpu.rsp).memory (cpu.set .rdi cpu.rsp).rsp words := by
    rw [top]
    exact stack
  obtain ⟨back, frame⟩ := under.push short afterCall
  refine ⟨?_, argument, rsp', back, ?_⟩
  · rw [rsp_push, top, sub_add_cancel] at frame
    rw [argument]
    exact frame
  · intro other outside
    unfold InWords at outside
    refine storeQword_of_far ?_
    rw [top]
    omega

/-- The registers `rs` were popped with these values. -/
structure Popped (cpu cpu' : Cpu) (rs : List Reg) (values : Reg → Word) : Prop where
  rsp : cpu'.rsp = cpu.rsp + BitVec.ofNat 64 (8 * rs.length)
  popped : ∀ r ∈ rs, cpu'.regs r = values r
  kept : ∀ r, r ≠ .rsp → r ∉ rs → cpu'.regs r = cpu.regs r
  memory : cpu'.memory = cpu.memory
  flags : cpu'.flags = cpu.flags
  cs : cpu'.cs = cpu.cs

theorem popped_popRegs {rs : List Reg} {values : Reg → Word} (noRsp : .rsp ∉ rs)
    (stack : StackAt cpu.memory cpu.rsp (rs.map values)) : Popped cpu (cpu.popRegs rs) rs values := by
  induction rs generalizing cpu with
  | nil =>
    refine ⟨?_, fun _ member => (List.not_mem_nil member).elim, fun _ _ _ => rfl, rfl, rfl, rfl⟩
    simp [popRegs]
  | cons r rs ih =>
    rw [List.mem_cons, not_or] at noRsp
    obtain ⟨first, rest⟩ := stack
    have top : (cpu.pop r).rsp = cpu.rsp + 8 := (regs_set_of_ne noRsp.1 _).trans (rsp_set_rsp cpu _)
    have here : (cpu.pop r).regs r = values r := (Function.update_self ..).trans first
    have rest' : StackAt (cpu.pop r).memory (cpu.pop r).rsp (rs.map values) := by
      rw [top]
      exact rest
    obtain ⟨rsp', popped, kept, memory, flags, cs⟩ := ih noRsp.2 rest'
    refine ⟨?_, ?_, ?_, memory, flags, cs⟩
    · change ((cpu.pop r).popRegs rs).rsp = _
      rw [rsp', top, List.length_cons, Nat.mul_succ, BitVec.ofNat_add]
      bv_omega
    · intro r' member
      by_cases later : r' ∈ rs
      · exact popped r' later
      · obtain rfl := (List.mem_cons.mp member).resolve_right later
        exact (kept r' (Ne.symm noRsp.1) later).trans here
    · intro r' notRsp outside
      rw [List.mem_cons, not_or] at outside
      refine (kept r' notRsp outside.2).trans ?_
      exact (regs_set_of_ne outside.1 _).trans (regs_set_of_ne notRsp _)

theorem popRegs_rsp {rs : List Reg} {values : Reg → Word} (noRsp : .rsp ∉ rs)
    (stack : StackAt cpu.memory cpu.rsp ((rs ++ [Reg.rsp]).map values)) :
    (∀ r ∈ rs ++ [Reg.rsp], (cpu.popRegs (rs ++ [Reg.rsp])).regs r = values r) ∧
      (cpu.popRegs (rs ++ [Reg.rsp])).flags = cpu.flags ∧ (cpu.popRegs (rs ++ [Reg.rsp])).cs = cpu.cs := by
  rw [List.map_append, StackAt.append_iff, List.length_map] at stack
  obtain ⟨registers, last, _⟩ := stack
  have popped := popped_popRegs noRsp registers
  have all : cpu.popRegs (rs ++ [Reg.rsp]) = (cpu.popRegs rs).pop .rsp := List.foldl_append
  rw [all]
  refine ⟨fun r saved => ?_, popped.flags, popped.cs⟩
  by_cases top : r = .rsp
  · rw [top]
    refine (regs_set_self ..).trans ?_
    rw [popped.memory, popped.rsp]
    exact last
  · have inside : r ∈ rs := (List.mem_append.mp saved).resolve_right fun single =>
      top (List.mem_singleton.mp single)
    exact ((regs_set_of_ne top _).trans (regs_set_of_ne top _)).trans (popped.popped r inside)

theorem returned_ret (cpu : Cpu) : Returned cpu cpu.ret := by
  refine ⟨rsp_set_rsp cpu _, rfl, fun r saved => regs_set_of_ne ?_ _⟩
  rintro rfl
  exact absurd saved (by decide)

theorem iretq_eq {rip cs flags rsp ss : Word}
    (stack : StackAt cpu.memory cpu.rsp [rip, cs, flags, rsp, ss]) :
    cpu.iretq = { cpu.set .rsp rsp with rip := rip, cs := cs, flags := flags, ss := ss } := by
  obtain ⟨rfl, rfl, rfl, rfl, rfl, _⟩ := stack
  have step (address : Word) : address + 8 + 8 = address + 16 ∧ address + 8 + 8 + 8 = address + 24 ∧
      address + 8 + 8 + 8 + 8 = address + 32 := ⟨by bv_omega, by bv_omega, by bv_omega⟩
  obtain ⟨two, three, four⟩ := step cpu.rsp
  unfold iretq
  rw [four, three, two]

end Cpu

end Osdev64
