/-
Source overrides and the wiring of the devices.

An override says that the device on ISA IRQ `s` is wired to pin `g`.  The driver
writes the entry of pin `s`, with the vector of IRQ `g`: the two are the wrong way
round, which comes out right only where another override swaps them back.  In
`bin/kernel` it writes no vector at all, and the pins deliver what they did before.
-/

import Osdev64.Acpi
import Osdev64.Trap

namespace Osdev64

open Word64

variable {apic : IoApic} {entry : Redirection} {list : List (BitVec 8 × BitVec 8)} {s g : BitVec 8}

/-- The entry lets interrupts through to the vector of an IRQ. -/
structure Delivers (entry : Redirection) (irq : BitVec 8) : Prop where
  unmasked : entry.masked = false
  vector : entry.vector = irqZero.toNat + irq.toNat

theorem Delivers.registered (delivers : Delivers entry s) {handler : Option TrapHandler}
    {before after : TrapState}
    (registered : trapRegister (irqZero.toNat + s.toNat) handler before = some after) :
    after.handlers entry.vector = handler := by
  unfold trapRegister at registered
  split at registered
  · obtain rfl := Option.some.inj registered
    exact if_pos delivers.vector
  · cases registered

/-- The I/O APIC after `ioapic_init` and the overrides, each of a source and a pin. -/
def applyOverrides (address : Word) (list : List (BitVec 8 × BitVec 8)) (apic : IoApic) : IoApic :=
  list.foldl (fun apic iso => (ioapicRemap iso.1 iso.2 0 apic).2) (ioapicInit address apic)

/-- Overrides with distinct sources and distinct pins, all of the device. -/
structure OverrideList (apic : IoApic) (list : List (BitVec 8 × BitVec 8)) : Prop where
  sources : (list.map Prod.fst).Nodup
  pins : (list.map Prod.snd).Nodup
  below : ∀ iso ∈ list, iso.1.toNat < apic.pins ∧ iso.2.toNat < apic.pins

def overrideCall (iso : BitVec 8 × BitVec 8) : PinCall := .remap iso.1 iso.2 0

theorem applyOverrides_eq (address : Word) (list : List (BitVec 8 × BitVec 8)) (apic : IoApic) :
    applyOverrides address list apic =
      (list.map overrideCall).foldl PinCall.run (ioapicInit address apic) := by
  rw [List.foldl_map]
  rfl

theorem applyOverrides_entry (written : apic.build = .asWritten) (address : Word)
    (list : List (BitVec 8 × BitVec 8)) (pin : BitVec 8) :
    (applyOverrides address list apic).entry pin =
      ((lastCall pin (list.map overrideCall)).map PinCall.entry).getD
        ((ioapicInit address apic).entry pin) := by
  rw [applyOverrides_eq, ((plain_init written address).1.runs _).2]

theorem OverrideList.entry_of_mem (valid : OverrideList apic list) (written : apic.build = .asWritten)
    (address : Word) {other : BitVec 8} (source : (g, other) ∈ list) :
    (applyOverrides address list apic).entry g = routedEntry other 0 := by
  have distinct : ((list.map overrideCall).map PinCall.pin).Nodup := by
    rw [List.map_map]
    exact valid.sources
  have last : lastCall g (list.map overrideCall) = some (.remap g other 0) :=
    lastCall_of_mem distinct (List.mem_map_of_mem source)
  rw [applyOverrides_entry written, last]
  rfl

theorem entry_of_not_source (written : apic.build = .asWritten) (address : Word)
    (unnamed : ∀ other, (g, other) ∉ list) :
    (applyOverrides address list apic).entry g = (ioapicInit address apic).entry g := by
  have none : lastCall g (list.map overrideCall) = none := by
    apply (lastCall_eq_none_iff g _).mpr
    intro call member named
    obtain ⟨iso, inside, rfl⟩ := List.mem_map.mp member
    obtain rfl : iso.1 = g := named
    exact unnamed iso.2 inside
  rw [applyOverrides_entry written, none]
  rfl

theorem delivers_routedEntry_iff (other : BitVec 8) :
    Delivers (routedEntry other 0) s ↔ other = s ∧ s.toNat < 224 := by
  have bound := other.isLt
  have bound' := s.isLt
  have value : irqZero.toNat = 32 := rfl
  have same : other = s ↔ other.toNat = s.toNat := BitVec.toNat_inj.symm
  have vector := routedEntry_vector other 0
  rw [same]
  constructor
  · intro delivers
    have asked := delivers.vector
    omega
  · rintro ⟨equal, small⟩
    exact ⟨routedEntry_masked other 0, by omega⟩

theorem delivers_init_iff (written : apic.build = .asWritten) (address : Word)
    (below : g.toNat < apic.pins) :
    Delivers ((ioapicInit address apic).entry g) s ↔ g.toNat = apic.maxEntry ∧ Delivers (apic.entry g) s := by
  unfold IoApic.pins at below
  rw [(plain_init written address).2]
  by_cases inside : g.toNat < apic.maxEntry
  · rw [if_pos inside]
    refine iff_of_false (fun delivers => ?_) (fun last => by omega)
    have unmasked := delivers.unmasked
    rw [disabledEntry_masked] at unmasked
    cases unmasked
  · rw [if_neg inside]
    exact ⟨fun delivers => ⟨by omega, delivers⟩, And.right⟩

theorem delivers_shipped_iff (shipped : apic.build = .shipped) (address : Word)
    (list : List (BitVec 8 × BitVec 8)) (pin : BitVec 8) :
    Delivers ((applyOverrides address list apic).entry pin) s ↔ Delivers (apic.entry pin) s := by
  rw [applyOverrides_eq, merged_entry shipped]
  constructor
  · rintro ⟨unmasked, vector⟩
    exact ⟨unmasked, vector⟩
  · rintro ⟨unmasked, vector⟩
    exact ⟨unmasked, vector⟩

/-- A device with 24 pins as it is after a reset, all of them masked. -/
def maskedApic (build : Build) : IoApic :=
  ⟨build, 0, 0, fun reg => if reg = 0x01 then 0x00170011 else if reg.toNat % 2 = 0 then 0x10000 else 0⟩

/-- As written: each pin is itself a source, overridden back to the IRQ, or it is the last pin, which
`ioapic_init` leaves as it is, and delivered before.  In `bin/kernel`: each pin delivered before. -/
def Rewired (apic : IoApic) (list : List (BitVec 8 × BitVec 8)) : Prop :=
  match apic.build with
  | .asWritten =>
    ∀ s g, (s, g) ∈ list → ((g, s) ∈ list ∧ s.toNat < 224) ∨
      ((∀ other, (g, other) ∉ list) ∧ g.toNat = apic.maxEntry ∧ Delivers (apic.entry g) s)
  | .shipped => ∀ s g, (s, g) ∈ list → Delivers (apic.entry g) s

theorem delivers_written_iff (written : apic.build = .asWritten) (address : Word)
    (valid : OverrideList apic list) (member : (s, g) ∈ list) :
    Delivers ((applyOverrides address list apic).entry g) s ↔ ((g, s) ∈ list ∧ s.toNat < 224) ∨
      ((∀ other, (g, other) ∉ list) ∧ g.toNat = apic.maxEntry ∧ Delivers (apic.entry g) s) := by
  by_cases source : ∃ other, (g, other) ∈ list
  · obtain ⟨other, inside⟩ := source
    have only : (g, s) ∈ list ↔ other = s := by
      constructor
      · intro back
        exact congrArg Prod.snd (List.inj_on_of_nodup_map valid.sources inside back rfl)
      · rintro rfl
        exact inside
    have named : ¬∀ other, (g, other) ∉ list := fun unnamed => unnamed other inside
    rw [valid.entry_of_mem written address inside, delivers_routedEntry_iff, only, or_iff_left]
    exact fun last => named last.1
  · have unnamed : ∀ other, (g, other) ∉ list := fun other inside => source ⟨other, inside⟩
    rw [entry_of_not_source written address unnamed,
      delivers_init_iff written address (valid.below _ member).2, or_iff_right]
    · exact ⟨fun last => ⟨unnamed, last⟩, And.right⟩
    · exact fun back => unnamed s back.1

/-- Every overridden device is delivered exactly under these conditions. -/
theorem overrides_deliver_iff (apic : IoApic) (address : Word) (list : List (BitVec 8 × BitVec 8))
    (valid : OverrideList apic list) :
    (∀ s g, (s, g) ∈ list → Delivers ((applyOverrides address list apic).entry g) s) ↔
      Rewired apic list := by
  unfold Rewired
  cases built : apic.build with
  | asWritten =>
    exact forall_congr' fun s => forall_congr' fun g => imp_congr_right fun member =>
      delivers_written_iff built address valid member
  | shipped =>
    exact forall_congr' fun s => forall_congr' fun g => imp_congr_right fun _ =>
      delivers_shipped_iff built address list g

/-- IRQs 0 and 2 swapped, and IRQ 9 on its own pin, as the code is written; and in `bin/kernel` the
timer on pin 2 of a device that has its vector there. -/
theorem swapped_overrides_deliver :
    (OverrideList (openApic .asWritten) [(0, 2), (2, 0), (9, 9)] ∧
      ∀ s g, (s, g) ∈ [((0 : BitVec 8), (2 : BitVec 8)), (2, 0), (9, 9)] →
        Delivers ((applyOverrides 0xFEC00000 [(0, 2), (2, 0), (9, 9)] (openApic .asWritten)).entry g) s) ∧
    (OverrideList ⟨.shipped, 0, 0, fun reg => if reg = 0x01 then 0x00170011 else 0x20⟩ [(0, 2)] ∧
      ∀ s g, (s, g) ∈ [((0 : BitVec 8), (2 : BitVec 8))] →
        Delivers ((applyOverrides 0xFEC00000 [(0, 2)]
          ⟨.shipped, 0, 0, fun reg => if reg = 0x01 then 0x00170011 else 0x20⟩).entry g) s) := by
  constructor
  · have valid : OverrideList (openApic .asWritten) [(0, 2), (2, 0), (9, 9)] := ⟨by decide, by decide,
      List.forall_mem_cons.mpr ⟨by decide,
        List.forall_mem_cons.mpr ⟨by decide, List.forall_mem_singleton.mpr (by decide)⟩⟩⟩
    refine ⟨valid, (overrides_deliver_iff (openApic .asWritten) 0xFEC00000 _ valid).mpr
      fun s g member => Or.inl ?_⟩
    simp only [List.mem_cons, List.not_mem_nil, or_false, Prod.mk.injEq] at member
    rcases member with ⟨rfl, rfl⟩ | ⟨rfl, rfl⟩ | ⟨rfl, rfl⟩ <;> decide
  · have valid : OverrideList ⟨.shipped, 0, 0, fun reg => if reg = 0x01 then 0x00170011 else 0x20⟩
        [(0, 2)] := ⟨by decide, by decide, List.forall_mem_singleton.mpr (by decide)⟩
    refine ⟨valid, (overrides_deliver_iff _ 0xFEC00000 _ valid).mpr fun s g member => ?_⟩
    obtain ⟨rfl, rfl⟩ := Prod.mk.inj (List.mem_singleton.mp member)
    exact ⟨by decide, by decide⟩

/-- The override of the timer: pin 2 of a masked device does not deliver it. -/
theorem timer_override_swapped :
    (OverrideList (maskedApic .asWritten) [(0, 2)] ∧
      ¬Delivers ((applyOverrides 0xFEC00000 [(0, 2)] (maskedApic .asWritten)).entry 2) 0) ∧
    (OverrideList (maskedApic .shipped) [(0, 2)] ∧
      ¬Delivers ((applyOverrides 0xFEC00000 [(0, 2)] (maskedApic .shipped)).entry 2) 0) := by
  have valid (build : Build) : OverrideList (maskedApic build) [(0, 2)] := by
    refine ⟨by decide, by decide, List.forall_mem_singleton.mpr ?_⟩
    cases build <;> decide
  refine ⟨⟨valid _, fun delivers => ?_⟩, valid _, fun delivers => ?_⟩
  · rw [entry_of_not_source rfl 0xFEC00000 (by decide), delivers_init_iff rfl 0xFEC00000 (by decide)]
      at delivers
    exact absurd delivers.1 (by decide)
  · rw [delivers_shipped_iff rfl] at delivers
    exact absurd delivers.unmasked (by decide)

end Osdev64
