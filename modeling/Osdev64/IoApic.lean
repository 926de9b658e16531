/-
The I/O APIC driver of `src/ioapic.c`.

The device is a select register and a window onto the register it selects; the
redirection entry of a pin is two of those registers.  The driver's pointers are
not volatile, so what reaches the device depends on the compiler: here as the
source has it, and as `bin/kernel` does it.  As written `ioapic_init` masks the
pins below the maximum entry the device reports, which leaves out the last pin;
in `bin/kernel` the first register of an entry is never written.
-/

import Osdev64.Kernel
import Osdev64.Lib.Word
import Mathlib.Data.List.Induction
import Mathlib.Logic.Function.Basic

namespace Osdev64

open Word64

abbrev Register := BitVec 32

def irqZero : Register := 0x20

/-- Base address of the redirection table. -/
def ioredtbl : Register := 0x10

/-- How the driver was compiled.  Without optimisation every access is made where it is written.  The
Makefile has `-O2`: a store that a later one covers is left out, and accesses to different addresses
change places.  `shipped` is what the code of `bin/kernel` does. -/
inductive Build where
  | asWritten
  | shipped
deriving DecidableEq

/-- The pointer `IOAPIC` of the driver, and the device it points to once it is set. -/
structure IoApic where
  build : Build
  ioapic : Word
  ioregsel : Register
  registers : Register → Register

/-- The identification register and the redirection table; the others are read-only or reserved. -/
def writableRegister (reg : Register) : Bool := reg = 0 ∨ ioredtbl ≤ reg

/-- A store to `IOAPIC + IOREGSEL`.  Through a null pointer the device is not reached. -/
def storeIoregsel (reg : Register) (apic : IoApic) : IoApic :=
  if apic.ioapic = 0 then apic else { apic with ioregsel := reg }

/-- A store to `IOAPIC + IOWIN`. -/
def storeIowin (data : Register) (apic : IoApic) : IoApic :=
  if apic.ioapic ≠ 0 ∧ writableRegister apic.ioregsel then
    { apic with registers := Function.update apic.registers apic.ioregsel data }
  else apic

/-- A load from `IOAPIC + IOWIN`. -/
def loadIowin (apic : IoApic) : Register := apic.registers apic.ioregsel

def ioapicRead (reg : Register) (apic : IoApic) : Register × IoApic :=
  let apic := storeIoregsel reg apic
  (loadIowin apic, apic)

def ioapicWrite (reg data : Register) (apic : IoApic) : IoApic :=
  storeIowin data (storeIoregsel reg apic)

/-- The first register of a redirection entry. -/
def entryRegister (irq : BitVec 8) : Register := ioredtbl + irq.setWidth 32 * 2

/-- The writes that `ioapic_enable` and `ioapic_remap` have in common. -/
def ioapicRoute (pin irq : BitVec 8) (cpu : BitVec 16) (apic : IoApic) : IoApic :=
  let low := irqZero + irq.setWidth 32
  let apic := ioapicWrite (entryRegister pin) low apic
  ioapicWrite (entryRegister pin + 1) (cpu.setWidth 32 <<< 24) apic

def ioapicEnable (irq : BitVec 8) (cpu : BitVec 16) (apic : IoApic) : Int × IoApic :=
  if apic.ioapic = 0 then (-1, apic)
  else match apic.build with
    | .asWritten => (0, ioapicRoute irq irq cpu apic)
    | .shipped => (0, storeIowin (cpu.setWidth 32 <<< 24) (storeIoregsel (entryRegister irq + 1) apic))

/-- In `bin/kernel` the data is stored before the register is selected. -/
def ioapicRemap (src gsi : BitVec 8) (cpu : BitVec 16) (apic : IoApic) : Int × IoApic :=
  if apic.ioapic = 0 then (-1, apic)
  else match apic.build with
    | .asWritten => (0, ioapicRoute src gsi cpu apic)
    | .shipped => (0, storeIoregsel (entryRegister src + 1) (storeIowin (cpu.setWidth 32 <<< 24) apic))

def ioapicDisable (irq : BitVec 8) (apic : IoApic) : IoApic :=
  match apic.build with
  | .asWritten =>
    let apic := ioapicWrite (entryRegister irq) (1 <<< 16 ||| (0x20 + irq.setWidth 32)) apic
    ioapicWrite (entryRegister irq + 1) 0 apic
  | .shipped => storeIowin 0 (storeIoregsel (entryRegister irq + 1) apic)

def ioapicInitLoop (max : Nat) (apic : IoApic) : IoApic :=
  (List.range max).foldl (fun apic i => ioapicDisable (BitVec.ofNat 8 i) apic) apic

/-- `(ver >> 16) & 0xFF`. -/
def maxOf (ver : Register) : BitVec 16 := ((ver >>> 16) &&& 0xFF).setWidth 16

/-- `mmu_map_page` maps the page of the device to the pointer.  In `bin/kernel` the window is read
before the version register is selected, and of the loop the last stores are left, again the data
before the register. -/
def ioapicInit (ioapicAddress : Word) (apic : IoApic) : IoApic :=
  let apic := { apic with ioapic := p2v ioapicAddress }
  match apic.build with
  | .asWritten =>
    let (ver, apic) := ioapicRead 0x01 apic
    ioapicInitLoop (maxOf ver).toNat apic
  | .shipped =>
    let max := maxOf (loadIowin apic)
    let apic := storeIoregsel 0x01 apic
    if max = 0 then apic
    else storeIoregsel (max.setWidth 32 * 2 + 0x0F) (storeIowin 0 apic)

/-! ### Redirection entries -/

@[ext] structure Redirection where
  low : Register
  high : Register
deriving DecidableEq

namespace Redirection

def vector (entry : Redirection) : Nat := (entry.low.extractLsb' 0 8).toNat

def masked (entry : Redirection) : Bool := entry.low.getLsbD 16

def destination (entry : Redirection) : Nat := (entry.high.extractLsb' 24 8).toNat

end Redirection

def IoApic.entry (apic : IoApic) (pin : BitVec 8) : Redirection :=
  ⟨apic.registers (entryRegister pin), apic.registers (entryRegister pin + 1)⟩

/-- The maximum redirection entry of the version register. -/
def IoApic.maxEntry (apic : IoApic) : Nat := (apic.registers 0x01).toNat / 2 ^ 16 % 256

/-- What `ioapic_enable` and `ioapic_remap` write. -/
def routedEntry (irq : BitVec 8) (cpu : BitVec 16) : Redirection :=
  ⟨irqZero + irq.setWidth 32, cpu.setWidth 32 <<< 24⟩

/-- What `ioapic_disable` writes. -/
def disabledEntry (irq : BitVec 8) : Redirection := ⟨1 <<< 16 ||| (0x20 + irq.setWidth 32), 0⟩

theorem entryRegister_toNat (pin : BitVec 8) : (entryRegister pin).toNat = 16 + 2 * pin.toNat := by
  have small := pin.isLt
  unfold entryRegister ioredtbl
  rw [BitVec.toNat_add, BitVec.toNat_mul, BitVec.toNat_setWidth]
  change (16 + pin.toNat % 2 ^ 32 * 2 % 2 ^ 32) % 2 ^ 32 = _
  omega

theorem entryRegister_succ_toNat (pin : BitVec 8) :
    (entryRegister pin + 1).toNat = 17 + 2 * pin.toNat := by
  have small := pin.isLt
  have sum : (entryRegister pin + 1).toNat = ((entryRegister pin).toNat + 1) % 2 ^ 32 :=
    BitVec.toNat_add _ _
  rw [entryRegister_toNat] at sum
  omega

theorem writable_of_le {reg : Register} (inTable : 16 ≤ reg.toNat) : writableRegister reg = true :=
  decide_eq_true (Or.inr inTable)

theorem toNat_maxOf (ver : Register) : (maxOf ver).toNat = ver.toNat / 2 ^ 16 % 256 := by
  unfold maxOf
  rw [BitVec.toNat_setWidth, BitVec.toNat_and, BitVec.toNat_ushiftRight, Nat.shiftRight_eq_div_pow]
  change (ver.toNat / 2 ^ 16 &&& 2 ^ 8 - 1) % 2 ^ 16 = _
  rw [Nat.and_two_pow_sub_one_eq_mod]
  omega

theorem p2v_ne_zero (x : Word) : p2v x ≠ 0 := by
  intro zero
  have value := p2v_toNat x
  rw [zero] at value
  change 0 = _ at value
  omega

/-! ### Calls on pins -/

/-- A call of the driver after `ioapic_init`. -/
inductive PinCall where
  | enable (irq : BitVec 8) (cpu : BitVec 16)
  | remap (src gsi : BitVec 8) (cpu : BitVec 16)
  | disable (irq : BitVec 8)

namespace PinCall

def pin : PinCall → BitVec 8
  | .enable irq _ => irq
  | .remap src _ _ => src
  | .disable irq => irq

def run (apic : IoApic) : PinCall → IoApic
  | .enable irq cpu => (ioapicEnable irq cpu apic).2
  | .remap src gsi cpu => (ioapicRemap src gsi cpu apic).2
  | .disable irq => ioapicDisable irq apic

/-- The call asks for interrupts. -/
def opens : PinCall → Bool
  | .disable _ => false
  | _ => true

/-- The vector the call asks for. -/
def vector : PinCall → Nat
  | .enable irq _ => 0x20 + irq.toNat
  | .remap _ gsi _ => 0x20 + gsi.toNat
  | .disable irq => 0x20 + irq.toNat

/-- The processor the call asks for. -/
def destination : PinCall → Nat
  | .enable _ cpu => cpu.toNat
  | .remap _ _ cpu => cpu.toNat
  | .disable _ => 0

def entry : PinCall → Redirection
  | .enable irq cpu => routedEntry irq cpu
  | .remap _ gsi cpu => routedEntry gsi cpu
  | .disable irq => disabledEntry irq

/-- The vector and the processor have the eight bits of their fields. -/
def Fits (call : PinCall) : Prop := call.vector < 256 ∧ call.destination < 256

end PinCall

/-- The last call that names a pin. -/
def lastCall (pin : BitVec 8) (calls : List PinCall) : Option PinCall :=
  calls.reverse.find? fun call => call.pin = pin

theorem lastCall_eq_none_iff (pin : BitVec 8) (calls : List PinCall) :
    lastCall pin calls = none ↔ ∀ call ∈ calls, call.pin ≠ pin := by
  simp [lastCall]

variable {apic : IoApic}

/-! ### The accesses as they are written -/

theorem ioapicWrite_live (live : apic.ioapic ≠ 0) {reg : Register} (inTable : 16 ≤ reg.toNat)
    (data : Register) :
    ioapicWrite reg data apic =
      { apic with ioregsel := reg, registers := Function.update apic.registers reg data } := by
  unfold ioapicWrite storeIoregsel
  rw [if_neg live]
  exact if_pos ⟨live, writable_of_le inTable⟩

/-- A device that is reached, with every access where it is written. -/
structure IoApic.Plain (apic : IoApic) : Prop where
  live : apic.ioapic ≠ 0
  build : apic.build = .asWritten

theorem IoApic.Plain.write (plain : apic.Plain) (pin : BitVec 8) (low high : Register) :
    (ioapicWrite (entryRegister pin + 1) high (ioapicWrite (entryRegister pin) low apic)).Plain ∧
      ∀ other, (ioapicWrite (entryRegister pin + 1) high
          (ioapicWrite (entryRegister pin) low apic)).entry other =
        if other = pin then ⟨low, high⟩ else apic.entry other := by
  have first := entryRegister_toNat pin
  have second := entryRegister_succ_toNat pin
  have inTable : 16 ≤ (entryRegister pin).toNat := by omega
  have both : ioapicWrite (entryRegister pin + 1) high (ioapicWrite (entryRegister pin) low apic) =
      { apic with
        ioregsel := entryRegister pin + 1
        registers := Function.update (Function.update apic.registers (entryRegister pin) low)
          (entryRegister pin + 1) high } := by
    rw [ioapicWrite_live plain.live inTable, ioapicWrite_live (by exact plain.live) (by omega)]
  rw [both]
  refine ⟨⟨plain.live, plain.build⟩, fun other => ?_⟩
  have otherFirst := entryRegister_toNat other
  have otherSecond := entryRegister_succ_toNat other
  change Redirection.mk (Function.update (Function.update apic.registers (entryRegister pin) low)
      (entryRegister pin + 1) high (entryRegister other))
    (Function.update (Function.update apic.registers (entryRegister pin) low)
      (entryRegister pin + 1) high (entryRegister other + 1)) = _
  by_cases same : other = pin
  · subst same
    have apart : entryRegister other ≠ entryRegister other + 1 := fun equal => by
      have values := congrArg BitVec.toNat equal
      omega
    rw [if_pos rfl, Function.update_self, Function.update_of_ne apart, Function.update_self]
  · have different : other.toNat ≠ pin.toNat := fun equal => same (BitVec.eq_of_toNat_eq equal)
    have untouched (reg : Register) (notFirst : reg.toNat ≠ (entryRegister pin).toNat)
        (notSecond : reg.toNat ≠ (entryRegister pin + 1).toNat) :
        Function.update (Function.update apic.registers (entryRegister pin) low)
          (entryRegister pin + 1) high reg = apic.registers reg := by
      rw [Function.update_of_ne fun equal => notSecond (congrArg BitVec.toNat equal),
        Function.update_of_ne fun equal => notFirst (congrArg BitVec.toNat equal)]
    rw [if_neg same, untouched (entryRegister other) (by omega) (by omega),
      untouched (entryRegister other + 1) (by omega) (by omega)]
    rfl

theorem IoApic.Plain.disable (plain : apic.Plain) (irq : BitVec 8) :
    (ioapicDisable irq apic).Plain ∧ ∀ other, (ioapicDisable irq apic).entry other =
      if other = irq then disabledEntry irq else apic.entry other := by
  unfold ioapicDisable
  rw [plain.build]
  exact plain.write irq _ _

theorem IoApic.Plain.run (plain : apic.Plain) (call : PinCall) :
    (call.run apic).Plain ∧ ∀ other, (call.run apic).entry other =
      if other = call.pin then call.entry else apic.entry other := by
  cases call with
  | enable irq cpu =>
    have same : (PinCall.enable irq cpu).run apic = ioapicRoute irq irq cpu apic := by
      change (ioapicEnable irq cpu apic).2 = _
      rw [ioapicEnable, if_neg plain.live, plain.build]
    rw [same]
    exact plain.write irq _ _
  | remap src gsi cpu =>
    have same : (PinCall.remap src gsi cpu).run apic = ioapicRoute src gsi cpu apic := by
      change (ioapicRemap src gsi cpu apic).2 = _
      rw [ioapicRemap, if_neg plain.live, plain.build]
    rw [same]
    exact plain.write src _ _
  | disable irq => exact plain.disable irq

theorem IoApic.Plain.runs (plain : apic.Plain) (calls : List PinCall) :
    (calls.foldl PinCall.run apic).Plain ∧ ∀ pin, (calls.foldl PinCall.run apic).entry pin =
      ((lastCall pin calls).map PinCall.entry).getD (apic.entry pin) := by
  induction calls using List.reverseRecOn with
  | nil => exact ⟨plain, fun _ => rfl⟩
  | append_singleton calls call ih =>
    obtain ⟨still, entries⟩ := ih.1.run call
    rw [List.foldl_append, List.foldl_cons, List.foldl_nil]
    refine ⟨still, fun pin => ?_⟩
    rw [entries, ih.2]
    unfold lastCall
    rw [List.reverse_append, List.reverse_singleton, List.singleton_append]
    by_cases named : pin = call.pin
    · rw [if_pos named, List.find?_cons_of_pos (by simp [named])]
      rfl
    · rw [if_neg named, List.find?_cons_of_neg (by simp [Ne.symm named])]

theorem IoApic.Plain.initLoop (plain : apic.Plain) (max : Nat) (small : max ≤ 256) :
    (ioapicInitLoop max apic).Plain ∧ ∀ pin : BitVec 8, (ioapicInitLoop max apic).entry pin =
      if pin.toNat < max then disabledEntry pin else apic.entry pin := by
  induction max with
  | zero => exact ⟨plain, fun _ => rfl⟩
  | succ max ih =>
    have value : (BitVec.ofNat 8 max).toNat = max := by
      rw [BitVec.toNat_ofNat]
      omega
    have last : ioapicInitLoop (max + 1) apic =
        ioapicDisable (BitVec.ofNat 8 max) (ioapicInitLoop max apic) := by
      unfold ioapicInitLoop
      rw [List.range_succ, List.foldl_append]
      rfl
    obtain ⟨before, entries⟩ := ih (by omega)
    obtain ⟨still, disabled⟩ := before.disable (BitVec.ofNat 8 max)
    rw [last]
    refine ⟨still, fun pin => ?_⟩
    rw [disabled, entries]
    by_cases here : pin = BitVec.ofNat 8 max
    · rw [if_pos here, if_pos (by rw [here, value]; omega), here]
    · have other : pin.toNat ≠ max := fun equal => here (BitVec.eq_of_toNat_eq (equal.trans value.symm))
      rw [if_neg here]
      by_cases below : pin.toNat < max
      · rw [if_pos below, if_pos (by omega)]
      · rw [if_neg below, if_neg (by omega)]

theorem plain_init (written : apic.build = .asWritten) (address : Word) :
    (ioapicInit address apic).Plain ∧ ∀ pin : BitVec 8, (ioapicInit address apic).entry pin =
      if pin.toNat < apic.maxEntry then disabledEntry pin else apic.entry pin := by
  have live := p2v_ne_zero address
  have max : (maxOf (apic.registers 0x01)).toNat = apic.maxEntry := toNat_maxOf _
  have small : apic.maxEntry ≤ 256 := by
    unfold IoApic.maxEntry
    omega
  have same : ioapicInit address apic =
      ioapicInitLoop apic.maxEntry ⟨.asWritten, p2v address, 0x01, apic.registers⟩ := by
    unfold ioapicInit ioapicRead
    simp only [written, storeIoregsel, if_neg live, loadIowin, max]
  rw [same]
  exact IoApic.Plain.initLoop ⟨live, rfl⟩ apic.maxEntry small

/-! ### The accesses of `bin/kernel` -/

/-- The one store of a call to the window, by the register it goes to: `ioapic_remap` stores before it
selects, so its data goes to the register `sel` selected by the call before. -/
def PinCall.store (sel : Register) : PinCall → Register × Register
  | .enable irq cpu => (entryRegister irq + 1, cpu.setWidth 32 <<< 24)
  | .remap _ _ cpu => (sel, cpu.setWidth 32 <<< 24)
  | .disable irq => (entryRegister irq + 1, 0)

/-- The stores of all calls. -/
def windowStores (sel : Register) : List PinCall → List (Register × Register)
  | [] => []
  | call :: calls => call.store sel :: windowStores (entryRegister call.pin + 1) calls

/-- The register that is selected after the calls. -/
def selectedAfter (sel : Register) (calls : List PinCall) : Register :=
  (calls.getLast?.map fun call => entryRegister call.pin + 1).getD sel

/-- The register that `ioapic_init` leaves selected: the second of the entry it would mask last, by
what it takes for the version. -/
def IoApic.initSelects (apic : IoApic) : Register :=
  let max := maxOf (loadIowin apic)
  if max = 0 then 0x01 else max.setWidth 32 * 2 + 0x0F

/-- The second register of a pin's entry after `ioapic_init` and the calls: the last store to it. -/
def IoApic.lastHigh (apic : IoApic) (calls : List PinCall) (pin : BitVec 8) : Register :=
  (((windowStores apic.initSelects calls).reverse.find?
    fun store => store.1 = entryRegister pin + 1).map Prod.snd).getD
    (apic.registers (entryRegister pin + 1))

/-- A device that is reached by `bin/kernel`, with no first register of an entry selected. -/
structure IoApic.Merged (apic : IoApic) : Prop where
  live : apic.ioapic ≠ 0
  build : apic.build = .shipped
  odd : apic.ioregsel.toNat % 2 = 1

theorem storeIoregsel_live (live : apic.ioapic ≠ 0) (reg : Register) :
    storeIoregsel reg apic = { apic with ioregsel := reg } :=
  if_neg live

theorem storeIowin_keeps (data : Register) (apic : IoApic) :
    (storeIowin data apic).ioapic = apic.ioapic ∧ (storeIowin data apic).build = apic.build ∧
      (storeIowin data apic).ioregsel = apic.ioregsel := by
  unfold storeIowin
  split_ifs
  · exact ⟨rfl, rfl, rfl⟩
  · exact ⟨rfl, rfl, rfl⟩

theorem storeIowin_registers (live : apic.ioapic ≠ 0) (data : Register) {reg : Register}
    (inTable : 16 ≤ reg.toNat) :
    (storeIowin data apic).registers reg = if apic.ioregsel = reg then data else apic.registers reg := by
  unfold storeIowin
  by_cases here : apic.ioregsel = reg
  · have allowed : writableRegister apic.ioregsel = true := writable_of_le (here ▸ inTable)
    rw [if_pos ⟨live, allowed⟩, if_pos here, ← here]
    exact Function.update_self _ _ _
  · rw [if_neg here]
    split_ifs
    · exact Function.update_of_ne (Ne.symm here) _ _
    · rfl

theorem IoApic.Merged.run (merged : apic.Merged) (call : PinCall) :
    (call.run apic).Merged ∧ (call.run apic).ioregsel = entryRegister call.pin + 1 ∧
      ∀ reg : Register, 16 ≤ reg.toNat → (call.run apic).registers reg =
        if (call.store apic.ioregsel).1 = reg then (call.store apic.ioregsel).2
        else apic.registers reg := by
  have odd (pin : BitVec 8) : (entryRegister pin + 1).toNat % 2 = 1 := by
    rw [entryRegister_succ_toNat]
    omega
  have selects (pin : BitVec 8) (data : Register) :
      (storeIowin data (storeIoregsel (entryRegister pin + 1) apic)).Merged ∧
        (storeIowin data (storeIoregsel (entryRegister pin + 1) apic)).ioregsel = entryRegister pin + 1 ∧
        ∀ reg : Register, 16 ≤ reg.toNat →
          (storeIowin data (storeIoregsel (entryRegister pin + 1) apic)).registers reg =
            if entryRegister pin + 1 = reg then data else apic.registers reg := by
    rw [storeIoregsel_live merged.live]
    obtain ⟨pointer, build, same⟩ := storeIowin_keeps data { apic with ioregsel := entryRegister pin + 1 }
    refine ⟨⟨?_, build.trans merged.build, same ▸ odd pin⟩, same, fun reg inTable =>
      storeIowin_registers (by exact merged.live) _ inTable⟩
    rw [pointer]
    exact merged.live
  cases call with
  | enable irq cpu =>
    have same : (PinCall.enable irq cpu).run apic =
        storeIowin (cpu.setWidth 32 <<< 24) (storeIoregsel (entryRegister irq + 1) apic) := by
      change (ioapicEnable irq cpu apic).2 = _
      rw [ioapicEnable, if_neg merged.live, merged.build]
    rw [same]
    exact selects irq _
  | remap src gsi cpu =>
    obtain ⟨pointer, build, _⟩ := storeIowin_keeps (cpu.setWidth 32 <<< 24) apic
    have live : (storeIowin (cpu.setWidth 32 <<< 24) apic).ioapic ≠ 0 := pointer ▸ merged.live
    have same : (PinCall.remap src gsi cpu).run apic =
        storeIoregsel (entryRegister src + 1) (storeIowin (cpu.setWidth 32 <<< 24) apic) := by
      change (ioapicRemap src gsi cpu apic).2 = _
      rw [ioapicRemap, if_neg merged.live, merged.build]
    rw [same, storeIoregsel_live live]
    exact ⟨⟨live, build.trans merged.build, odd src⟩, rfl, fun reg inTable =>
      storeIowin_registers merged.live _ inTable⟩
  | disable irq =>
    have same : (PinCall.disable irq).run apic =
        storeIowin 0 (storeIoregsel (entryRegister irq + 1) apic) := by
      change ioapicDisable irq apic = _
      rw [ioapicDisable, merged.build]
    rw [same]
    exact selects irq _

theorem IoApic.Merged.runs (calls : List PinCall) :
    ∀ {apic : IoApic}, apic.Merged → ∀ reg : Register, 16 ≤ reg.toNat →
      (calls.foldl PinCall.run apic).registers reg =
        (((windowStores apic.ioregsel calls).reverse.find? fun store => store.1 = reg).map Prod.snd).getD
          (apic.registers reg) := by
  induction calls with
  | nil =>
    intro apic _ reg _
    rfl
  | cons call calls ih =>
    intro apic merged reg inTable
    obtain ⟨still, selected, registers⟩ := merged.run call
    rw [List.foldl_cons, ih still reg inTable, selected, registers reg inTable, windowStores,
      List.reverse_cons, List.find?_append]
    cases (windowStores (entryRegister call.pin + 1) calls).reverse.find? fun store => store.1 = reg with
    | some store => rfl
    | none =>
      rw [Option.none_or, Option.map_none, Option.getD_none]
      by_cases here : (call.store apic.ioregsel).1 = reg
      · rw [if_pos here, List.find?_cons_of_pos (by simp [here])]
        rfl
      · rw [if_neg here, List.find?_cons_of_neg (by simp [here])]
        rfl

theorem initSelects_odd (apic : IoApic) : apic.initSelects.toNat % 2 = 1 := by
  have max := toNat_maxOf (loadIowin apic)
  unfold IoApic.initSelects
  dsimp only
  split_ifs
  · rfl
  · rw [BitVec.toNat_add, BitVec.toNat_mul, BitVec.toNat_setWidth]
    change ((maxOf (loadIowin apic)).toNat % 2 ^ 32 * 2 % 2 ^ 32 + 15) % 2 ^ 32 % 2 = 1
    omega

/-- `ioapic_init` of `bin/kernel` writes no register of the table: its one store to the window finds
the version register selected. -/
theorem merged_init (shipped : apic.build = .shipped) (address : Word) :
    (ioapicInit address apic).Merged ∧ (ioapicInit address apic).ioregsel = apic.initSelects ∧
      (ioapicInit address apic).registers = apic.registers := by
  have live := p2v_ne_zero address
  have odd := initSelects_odd apic
  have same : ioapicInit address apic =
      ⟨.shipped, p2v address, apic.initSelects, apic.registers⟩ := by
    have refused : storeIowin 0 ⟨.shipped, p2v address, 0x01, apic.registers⟩ =
        ⟨.shipped, p2v address, 0x01, apic.registers⟩ :=
      if_neg fun both => absurd both.2 (show ¬writableRegister 0x01 = true by decide)
    have version : loadIowin ⟨.shipped, p2v address, apic.ioregsel, apic.registers⟩ = loadIowin apic := rfl
    unfold ioapicInit IoApic.initSelects
    simp only [shipped, version]
    rw [storeIoregsel_live (by exact live), refused, storeIoregsel_live (by exact live)]
    split_ifs
    · rfl
    · rfl
  rw [same]
  exact ⟨⟨live, rfl, odd⟩, rfl, rfl⟩

theorem windowStores_odd (calls : List PinCall) :
    ∀ {sel : Register}, sel.toNat % 2 = 1 → ∀ store ∈ windowStores sel calls, store.1.toNat % 2 = 1 := by
  induction calls with
  | nil =>
    intro sel _ store member
    cases member
  | cons call calls ih =>
    intro sel odd store member
    have own (pin : BitVec 8) : (entryRegister pin + 1).toNat % 2 = 1 := by
      rw [entryRegister_succ_toNat]
      omega
    rcases List.mem_cons.mp member with rfl | later
    · cases call with
      | enable irq cpu => exact own irq
      | remap src gsi cpu => exact odd
      | disable irq => exact own irq
    · exact ih (own call.pin) store later

/-- In `bin/kernel` an entry keeps its first register, with the mask and the vector, for ever. -/
theorem merged_entry (shipped : apic.build = .shipped) (address : Word) (calls : List PinCall)
    (pin : BitVec 8) :
    (calls.foldl PinCall.run (ioapicInit address apic)).entry pin =
      ⟨apic.registers (entryRegister pin), apic.lastHigh calls pin⟩ := by
  obtain ⟨merged, selected, registers⟩ := merged_init shipped address
  have first := entryRegister_toNat pin
  have second := entryRegister_succ_toNat pin
  have untouched : (windowStores apic.initSelects calls).reverse.find?
      (fun store => store.1 = entryRegister pin) = none := by
    apply List.find?_eq_none.mpr
    intro store member here
    have odd := windowStores_odd calls (initSelects_odd apic) store (List.mem_reverse.mp member)
    rw [of_decide_eq_true here] at odd
    omega
  unfold IoApic.entry IoApic.lastHigh
  rw [IoApic.Merged.runs calls merged _ (by omega), IoApic.Merged.runs calls merged _ (by omega), selected,
    registers, untouched]
  rfl

/-! ### Pins that are live only if asked for -/

/-- The number of redirection entries. -/
def IoApic.pins (apic : IoApic) : Nat := apic.maxEntry + 1

/-- What a pin's entry must be after the last call that names the pin. -/
def AsAsked (entry : Redirection) : Option PinCall → Prop
  | none => entry.masked = true
  | some call => (call.opens = false → entry.masked = true) ∧ entry.vector = call.vector ∧
      entry.destination = call.destination

/-- Every pin is as the last call on it asked, and no call changes the entry of another pin. -/
structure LiveIfAsked (apic : IoApic) (address : Word) (calls : List PinCall) : Prop where
  asked : ∀ pin : BitVec 8, pin.toNat < apic.pins →
    AsAsked ((calls.foldl PinCall.run (ioapicInit address apic)).entry pin) (lastCall pin calls)
  apart : ∀ front call, front ++ [call] <+: calls → ∀ pin, pin ≠ call.pin →
    ((front ++ [call]).foldl PinCall.run (ioapicInit address apic)).entry pin =
      (front.foldl PinCall.run (ioapicInit address apic)).entry pin

/-- For the accesses as written: the last pin is masked before `ioapic_init`, or a call names it; and
the last call on each pin asks for a vector and a processor that fit their fields. -/
structure AskableWritten (apic : IoApic) (calls : List PinCall) : Prop where
  lastPin : (apic.entry (BitVec.ofNat 8 apic.maxEntry)).masked = true ∨
    ∃ call ∈ calls, call.pin = BitVec.ofNat 8 apic.maxEntry
  fits : ∀ pin : BitVec 8, pin.toNat < apic.pins → ∀ call, lastCall pin calls = some call → call.Fits

/-- For `bin/kernel`: each pin has the mask and the vector before `ioapic_init` that the last call on
it asks for; the last store to its second register has the processor; and what `ioapic_remap` stores
goes to its own pin, or to one that already has it. -/
structure AskableShipped (apic : IoApic) (calls : List PinCall) : Prop where
  masked : ∀ pin : BitVec 8, pin.toNat < apic.pins →
    (∀ call, lastCall pin calls = some call → call.opens = false) → (apic.entry pin).masked = true
  vector : ∀ pin : BitVec 8, pin.toNat < apic.pins → ∀ call, lastCall pin calls = some call →
    (apic.entry pin).vector = call.vector
  destination : ∀ pin : BitVec 8, pin.toNat < apic.pins → ∀ call, lastCall pin calls = some call →
    (apic.lastHigh calls pin).toNat / 2 ^ 24 = call.destination
  ownPin : ∀ front src gsi cpu, front ++ [PinCall.remap src gsi cpu] <+: calls → ∀ pin, pin ≠ src →
    selectedAfter apic.initSelects front = entryRegister pin + 1 →
    apic.lastHigh front pin = (cpu.setWidth 32 : Register) <<< 24

def Askable (apic : IoApic) (calls : List PinCall) : Prop :=
  match apic.build with
  | .asWritten => AskableWritten apic calls
  | .shipped => AskableShipped apic calls

theorem routedEntry_vector (irq : BitVec 8) (cpu : BitVec 16) :
    (routedEntry irq cpu).vector = (0x20 + irq.toNat) % 256 := by
  have small := irq.isLt
  unfold Redirection.vector routedEntry irqZero
  rw [BitVec.extractLsb'_toNat, Nat.shiftRight_zero, BitVec.toNat_add, BitVec.toNat_setWidth]
  change (32 + irq.toNat % 2 ^ 32) % 2 ^ 32 % 2 ^ 8 = _
  omega

theorem routedEntry_destination (irq : BitVec 8) (cpu : BitVec 16) :
    (routedEntry irq cpu).destination = cpu.toNat % 256 := by
  have small := cpu.isLt
  unfold Redirection.destination routedEntry
  rw [BitVec.extractLsb'_toNat, BitVec.toNat_shiftLeft, BitVec.toNat_setWidth, Nat.shiftLeft_eq,
    Nat.shiftRight_eq_div_pow]
  omega

theorem routedEntry_masked (irq : BitVec 8) (cpu : BitVec 16) :
    (routedEntry irq cpu).masked = false := by
  have small := irq.isLt
  have value : (irqZero + irq.setWidth 32 : Register).toNat = 32 + irq.toNat := by
    rw [BitVec.toNat_add, BitVec.toNat_setWidth]
    change (32 + irq.toNat % 2 ^ 32) % 2 ^ 32 = _
    omega
  unfold Redirection.masked routedEntry
  rw [Bool.eq_false_iff, ne_eq, getLsbD_iff, value]
  omega

theorem disabledEntry_masked (irq : BitVec 8) : (disabledEntry irq).masked = true := by
  unfold Redirection.masked disabledEntry
  rw [BitVec.getLsbD_or]
  rfl

theorem disabledEntry_vector (irq : BitVec 8) :
    (disabledEntry irq).vector = (0x20 + irq.toNat) % 256 := by
  have small := irq.isLt
  unfold Redirection.vector disabledEntry
  rw [BitVec.extractLsb'_toNat, Nat.shiftRight_zero, BitVec.toNat_or, Nat.or_mod_two_pow,
    BitVec.toNat_add, BitVec.toNat_setWidth]
  change 0 ||| (32 + irq.toNat % 2 ^ 32) % 2 ^ 32 % 2 ^ 8 = _
  rw [Nat.zero_or]
  omega

theorem asAsked_entry_iff (call : PinCall) : AsAsked call.entry (some call) ↔ call.Fits := by
  unfold AsAsked PinCall.Fits
  cases call with
  | enable irq cpu =>
    simp only [PinCall.opens, PinCall.entry, PinCall.vector, PinCall.destination, routedEntry_vector,
      routedEntry_destination, Bool.true_eq_false, false_implies, true_and]
    omega
  | remap src gsi cpu =>
    simp only [PinCall.opens, PinCall.entry, PinCall.vector, PinCall.destination, routedEntry_vector,
      routedEntry_destination, Bool.true_eq_false, false_implies, true_and]
    omega
  | disable irq =>
    have high : (disabledEntry irq).destination = 0 := by
      change ((0 : Register).extractLsb' 24 8).toNat = 0
      decide
    simp only [PinCall.entry, PinCall.vector, PinCall.destination, disabledEntry_vector,
      disabledEntry_masked, high, implies_true, true_and, and_true, Nat.zero_lt_succ]
    omega

/-- A pin that no call names is masked below the maximum entry; the last one is as it was. -/
theorem asAsked_init_iff (written : apic.build = .asWritten) (address : Word) (pin : BitVec 8)
    (below : pin.toNat < apic.pins) :
    AsAsked ((ioapicInit address apic).entry pin) none ↔
      (pin = BitVec.ofNat 8 apic.maxEntry → (apic.entry pin).masked = true) := by
  have value : (BitVec.ofNat 8 apic.maxEntry).toNat = apic.maxEntry := by
    rw [BitVec.toNat_ofNat]
    unfold IoApic.maxEntry
    omega
  unfold AsAsked
  rw [(plain_init written address).2]
  by_cases inside : pin.toNat < apic.maxEntry
  · have notLast : pin ≠ BitVec.ofNat 8 apic.maxEntry := fun last => by
      rw [last, value] at inside
      omega
    rw [if_pos inside]
    exact iff_of_true (disabledEntry_masked pin) fun last => absurd last notLast
  · have last : pin = BitVec.ofNat 8 apic.maxEntry := by
      apply BitVec.eq_of_toNat_eq
      unfold IoApic.pins at below
      omega
    rw [if_neg inside]
    exact ⟨fun masked _ => masked, fun masked => masked last⟩

/-- As written, the pins are as asked exactly when the last pin does not depend on `ioapic_init` and
what was asked fits the entries. -/
theorem liveIfAsked_written_iff (written : apic.build = .asWritten) (address : Word)
    (calls : List PinCall) : LiveIfAsked apic address calls ↔ AskableWritten apic calls := by
  have plain := (plain_init written address).1
  have lastValue : (BitVec.ofNat 8 apic.maxEntry).toNat < apic.pins := by
    rw [BitVec.toNat_ofNat]
    exact Nat.lt_succ_of_le (Nat.mod_le _ _)
  constructor
  · intro right
    constructor
    · by_contra neither
      rw [not_or] at neither
      have unnamed : lastCall (BitVec.ofNat 8 apic.maxEntry) calls = none :=
        (lastCall_eq_none_iff _ calls).mpr fun call member named => neither.2 ⟨call, member, named⟩
      have asked := right.asked _ lastValue
      rw [(plain.runs calls).2, unnamed, Option.map_none, Option.getD_none,
        asAsked_init_iff written address _ lastValue] at asked
      exact neither.1 (asked rfl)
    · intro pin below call last
      have asked := right.asked pin below
      rw [(plain.runs calls).2, last, Option.map_some, Option.getD_some] at asked
      exact (asAsked_entry_iff call).mp asked
  · intro askable
    constructor
    · intro pin below
      rw [(plain.runs calls).2]
      cases last : lastCall pin calls with
      | none =>
        rw [Option.map_none, Option.getD_none, asAsked_init_iff written address pin below]
        intro isLast
        rcases askable.lastPin with masked | ⟨call, member, named⟩
        · rwa [isLast]
        · exact absurd (named.trans isLast.symm) ((lastCall_eq_none_iff pin calls).mp last call member)
      | some call =>
        rw [Option.map_some, Option.getD_some]
        exact (asAsked_entry_iff call).mpr (askable.fits pin below call last)
    · intro front call _ pin other
      rw [List.foldl_append, List.foldl_cons, List.foldl_nil, ((plain.runs front).1.run call).2,
        if_neg other]

theorem windowStores_append (calls : List PinCall) (call : PinCall) :
    ∀ sel, windowStores sel (calls ++ [call]) =
      windowStores sel calls ++ [call.store (selectedAfter sel calls)] := by
  induction calls with
  | nil =>
    intro sel
    rfl
  | cons first calls ih =>
    intro sel
    have selected : selectedAfter sel (first :: calls) =
        selectedAfter (entryRegister first.pin + 1) calls := by
      unfold selectedAfter
      rw [List.getLast?_cons]
      cases calls.getLast? <;> rfl
    rw [List.cons_append, windowStores, windowStores, ih, selected, List.cons_append]

theorem lastHigh_append (apic : IoApic) (front : List PinCall) (call : PinCall) (pin : BitVec 8) :
    apic.lastHigh (front ++ [call]) pin =
      if (call.store (selectedAfter apic.initSelects front)).1 = entryRegister pin + 1 then
        (call.store (selectedAfter apic.initSelects front)).2
      else apic.lastHigh front pin := by
  unfold IoApic.lastHigh
  rw [windowStores_append, List.reverse_append, List.reverse_singleton, List.singleton_append]
  split_ifs with here
  · rw [List.find?_cons_of_pos (by simpa using here)]
    rfl
  · rw [List.find?_cons_of_neg (by simpa using here)]

theorem entryRegister_inj {pin other : BitVec 8}
    (same : entryRegister pin + 1 = entryRegister other + 1) : pin = other := by
  have values := congrArg BitVec.toNat same
  rw [entryRegister_succ_toNat, entryRegister_succ_toNat] at values
  exact BitVec.eq_of_toNat_eq (by omega)

/-- A call changes no other pin exactly if the store of an `ioapic_remap` changes none. -/
theorem lastHigh_kept_iff (apic : IoApic) (front : List PinCall) (call : PinCall) :
    (∀ pin, pin ≠ call.pin → apic.lastHigh (front ++ [call]) pin = apic.lastHigh front pin) ↔
      ∀ src gsi cpu, call = .remap src gsi cpu → ∀ pin, pin ≠ src →
        selectedAfter apic.initSelects front = entryRegister pin + 1 →
        apic.lastHigh front pin = (cpu.setWidth 32 : Register) <<< 24 := by
  have own (irq pin : BitVec 8) (other : pin ≠ irq) : entryRegister irq + 1 ≠ entryRegister pin + 1 :=
    fun same => other (entryRegister_inj same).symm
  cases call with
  | enable irq cpu =>
    refine iff_of_true (fun pin other => ?_) (fun _ _ _ impossible => by cases impossible)
    exact (lastHigh_append apic front _ pin).trans (if_neg (own irq pin other))
  | remap src gsi cpu =>
    constructor
    · rintro kept _ _ _ ⟨⟩ pin other selected
      rw [← kept pin other, lastHigh_append]
      exact if_pos selected
    · intro stored pin other
      rw [lastHigh_append]
      by_cases selected : selectedAfter apic.initSelects front = entryRegister pin + 1
      · rw [stored src gsi cpu rfl pin other selected]
        exact if_pos selected
      · exact if_neg selected
  | disable irq =>
    refine iff_of_true (fun pin other => ?_) (fun _ _ _ impossible => by cases impossible)
    exact (lastHigh_append apic front _ pin).trans (if_neg (own irq pin other))

theorem destination_eq (low high : Register) :
    (Redirection.mk low high).destination = high.toNat / 2 ^ 24 := by
  have small := high.isLt
  change (high.extractLsb' 24 8).toNat = _
  rw [BitVec.extractLsb'_toNat, Nat.shiftRight_eq_div_pow]
  omega

theorem liveIfAsked_shipped_iff (shipped : apic.build = .shipped) (address : Word)
    (calls : List PinCall) : LiveIfAsked apic address calls ↔ AskableShipped apic calls := by
  have entry := merged_entry shipped address
  constructor
  · intro right
    have asked (pin : BitVec 8) (below : pin.toNat < apic.pins) := right.asked pin below
    simp only [entry] at asked
    refine ⟨fun pin below closed => ?_, fun pin below call last => ?_, fun pin below call last => ?_, ?_⟩
    · have here := asked pin below
      cases last : lastCall pin calls with
      | none =>
        rw [last] at here
        exact here
      | some call =>
        rw [last] at here
        exact here.1 (closed call last)
    · have here := asked pin below
      rw [last] at here
      exact here.2.1
    · have here := asked pin below
      rw [last] at here
      exact (destination_eq _ _).symm.trans here.2.2
    · intro front src gsi cpu within
      refine (lastHigh_kept_iff apic front (.remap src gsi cpu)).mp (fun pin other => ?_) src gsi cpu rfl
      have same := right.apart front _ within pin other
      rw [entry, entry] at same
      exact congrArg Redirection.high same
  · intro askable
    constructor
    · intro pin below
      rw [entry]
      cases last : lastCall pin calls with
      | none =>
        exact askable.masked pin below fun call some => by
          rw [last] at some
          cases some
      | some call =>
        refine ⟨fun closed => ?_, askable.vector pin below call last, ?_⟩
        · refine askable.masked pin below fun other some => ?_
          cases last.symm.trans some
          exact closed
        · rw [destination_eq]
          exact askable.destination pin below call last
    · intro front call within pin other
      rw [entry, entry]
      apply congrArg (Redirection.mk _)
      refine (lastHigh_kept_iff apic front call).mpr ?_ pin other
      rintro src gsi cpu rfl
      exact askable.ownPin front src gsi cpu within

/-- Version 0x11, 24 entries, and every other register zero: no pin is masked. -/
def openApic (build : Build) : IoApic := ⟨build, 0, 0, fun reg => if reg = 0x01 then 0x00170011 else 0⟩

end Osdev64
