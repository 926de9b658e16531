/-
`acpi_init` of `src/acpi.c`.

The scan of the BIOS area stops at the first signature, or behind the area.  A
checksum that is wrong is printed and no more: the pointers of whatever the scan
stopped at are followed.  Memory is what is meant to be behind each address; the
report says which pages are mapped and which bytes are read.
-/

import Osdev64.MadtWalk
import Osdev64.Lib.Log

namespace Osdev64

open Word64 Bytes Log

/-- Whose bytes are read. -/
inductive AcpiSource where
  | root
  | madt
  | other
deriving DecidableEq

inductive AcpiEvent where
  /-- The checksum of the RSDP is wrong. -/
  | assertFailed
  /-- `mmu_map_page` for a page structure with this address, here or in `ioapic_init`. -/
  | map (frame address : Word)
  /-- A table whose header is examined. -/
  | header (entry : Word)
  | read (source : AcpiSource) (address : Word)
deriving DecidableEq

def qwordAt (memory : Word → Byte) (address : Word) : Word :=
  dwordAt memory (address + 4) ++ dwordAt memory address

/-! ### The RSDP -/

/-- `RSD PTR `. -/
def rsdpSignature : Word := 0x2052545020445352

/-- The loop over the BIOS area, for at most so many rounds. -/
def scanLoop (memory : Word → Byte) : Nat → Word → Word
  | 0, ptr => ptr
  | rounds + 1, ptr =>
    if ptr < p2v 0x000FFFFF then
      if qwordAt memory ptr = rsdpSignature then ptr else scanLoop memory rounds (ptr + 16)
    else ptr

/-- The area has 8192 paragraphs. -/
def acpiScan (memory : Word → Byte) : Word := scanLoop memory 8192 (p2v 0x000E0000)

/-- The bytes are signed, and so is the result. -/
def acpiChecksum (memory : Word → Byte) (ptr : Word) : BitVec 32 :=
  let sum := (List.range 20).foldl
    (fun sum i => sum + (memory (ptr + BitVec.ofNat 64 i)).signExtend 32) (0 : BitVec 32)
  (sum.setWidth 8).signExtend 32

/-! ### The tables -/

def reads (source : AcpiSource) (address : Word) (count : Nat) : List AcpiEvent :=
  (List.range count).map fun k => .read source (address + BitVec.ofNat 64 k)

/-- The bytes of a record that the parser reads, behind its type and length. -/
def recordFields (type : Byte) : List Nat :=
  if type = 0 then [2, 3, 4, 5, 6, 7]
  else if type = 1 then [2, 4, 5, 6, 7]
  else if type = 2 then [3, 2, 4]
  else if type = 9 then [4, 5, 6, 7, 8, 9, 10, 11]
  else []

def recordReads (memory : Word → Byte) (entries : Word) : List AcpiEvent :=
  (0 :: 1 :: recordFields (memory entries)).map fun k => .read .madt (entries + BitVec.ofNat 64 k)

/-- The address `ioapic_init` is called with, for an I/O APIC. -/
def recordCalls (memory : Word → Byte) (entries : Word) : List Word :=
  if memory entries = 1 then [(dwordAt memory (entries + 4)).setWidth 64] else []

/-- A record: its bytes, and the page `ioapic_init` maps. -/
def recordEvents (memory : Word → Byte) (entries : Word) : List AcpiEvent :=
  recordReads memory entries ++
    (recordCalls memory entries).map fun address => .map (roundDown address pageSize) (p2v address)

/-- The loop of `acpi_parse_madt`; the length is read again in each round. -/
def parseReport (memory : Word → Byte) (madt : Word) :
    Nat → Word → Nat × IoApic → Log AcpiEvent (Nat × IoApic)
  | 0, entries, state => do
    tell (reads .madt (madt + 4) 4)
    if entries < madtEnd memory madt then stop else pure state
  | fuel + 1, entries, state => do
    tell (reads .madt (madt + 4) 4)
    if entries < madtEnd memory madt then do
      tell (recordEvents memory entries)
      parseReport memory madt fuel (nextRecord memory entries) ((recordAt memory entries).handle state)
    else pure state

def acpiParseReport (memory : Word → Byte) (fuel : Nat) (madt : Word) (apic : IoApic) :
    Log AcpiEvent (Nat × IoApic) :=
  parseReport memory madt fuel (madt + madtHeaderSize) (0, apic)

/-- `sizeof(struct acpi_header)`. -/
def acpiHeaderSize : Word := 36

/-- The signature `APIC`. -/
def isMadt (memory : Word → Byte) (entry : Word) : Bool := dwordAt memory entry = 0x43495041

/-- The page structure and the address of the calls of `mmu_map_page`. -/
def mapTable (table : Word) : AcpiEvent :=
  .map (roundDown table pageSize) (roundDown (p2v table) pageSize)

/-- The end of the loop's body: the signature, and the parser for an MADT. -/
def examineEntry (memory : Word → Byte) (fuel : Nat) (entry : Word) (state : Nat × IoApic) :
    Log AcpiEvent (Nat × IoApic) := do
  tell (reads (if isMadt memory entry then .madt else .other) entry 4)
  if isMadt memory entry then acpiParseReport memory fuel entry state.2 else pure state

/-- The pointer at this index, 32 bits wide whatever the table. -/
def tablePtr (memory : Word → Byte) (r i : Word) : Word :=
  (dwordAt memory (r + acpiHeaderSize + i * 4)).setWidth 64

def rootLoop (memory : Word → Byte) (fuel : Nat) (r : Word) :
    Nat → Word → Nat × IoApic → Log AcpiEvent (Nat × IoApic)
  | 0, _, _ => stop
  | rounds + 1, i, state => do
    tell (reads .root (r + 4) 4)
    if i < ((dwordAt memory (r + 4)).setWidth 64 - acpiHeaderSize) / 4 then do
      tell (reads .root (r + acpiHeaderSize + i * 4) 4)
      tell [mapTable (tablePtr memory r i), .header (p2v (tablePtr memory r i))]
      let state ← examineEntry memory fuel (p2v (tablePtr memory r i)) state
      rootLoop memory fuel r rounds (i + 1) state
    else pure state

/-- The fields of `struct rsdp_header` that are used. -/
def rsdpRev (memory : Word → Byte) (h : Word) : Byte := memory (h + 15)

def rsdtPtr (memory : Word → Byte) (h : Word) : Word := (dwordAt memory (h + 16)).setWidth 64

def xsdtPtr (memory : Word → Byte) (h : Word) : Word := qwordAt memory (h + 24)

/-- The root table: the XSDT for every revision but 0. -/
def rootPtr (memory : Word → Byte) (h : Word) : Word :=
  if rsdpRev memory h = 0 then rsdtPtr memory h else xsdtPtr memory h

/-- The number of processors, and the I/O APIC; the page that is mapped first is the one of the RSDT. -/
def acpiInit (memory : Word → Byte) (rounds fuel : Nat) (apic : IoApic) : Log AcpiEvent (Nat × IoApic) := do
  let h := acpiScan memory
  tell (if acpiChecksum memory h = 0 then [] else [.assertFailed])
  tell [mapTable (rsdtPtr memory h)]
  rootLoop memory fuel (p2v (rootPtr memory h)) rounds 0 (0, apic)

theorem parseReport_result (memory : Word → Byte) (madt : Word) (fuel : Nat) (entries : Word)
    (state : Nat × IoApic) :
    (parseReport memory madt fuel entries state).result =
      parseLoop memory (madtEnd memory madt) fuel entries state := by
  induction fuel generalizing entries state with
  | zero =>
    unfold parseReport parseLoop
    rw [tell_andThen]
    split <;> rfl
  | succ fuel ih =>
    unfold parseReport parseLoop
    rw [tell_andThen]
    split
    · rw [tell_andThen]
      exact ih _ _
    · rfl

/-! ### The structure that is used -/

/-- The paragraphs of the BIOS area, and the one behind it. -/
def paragraph (k : Nat) : Word := p2v 0x000E0000 + BitVec.ofNat 64 (16 * k)

def Signed (memory : Word → Byte) (k : Nat) : Prop := qwordAt memory (paragraph k) = rsdpSignature

theorem paragraph_toNat {k : Nat} (within : k ≤ 8192) :
    (paragraph k).toNat = 0xFFFFFFFF800E0000 + 16 * k := by
  have first : (p2v 0x000E0000).toNat = 0xFFFFFFFF800E0000 := by decide
  unfold paragraph
  rw [BitVec.toNat_add, BitVec.toNat_ofNat, first]
  omega

theorem paragraph_succ (k : Nat) : paragraph k + 16 = paragraph (k + 1) := by
  unfold paragraph
  rw [Nat.mul_succ, BitVec.ofNat_add, ← BitVec.add_assoc]
  rfl

theorem scanLoop_paragraph (memory : Word → Byte) {rounds k : Nat} (total : k + rounds = 8192) :
    ∃ j, k ≤ j ∧ j ≤ 8192 ∧ scanLoop memory rounds (paragraph k) = paragraph j ∧
      (∀ i, k ≤ i → i < j → ¬Signed memory i) ∧ (j < 8192 → Signed memory j) := by
  induction rounds generalizing k with
  | zero =>
    refine ⟨k, Nat.le_refl k, Nat.le_of_eq total, rfl, ?_, ?_⟩
    · intro i from' before
      omega
    · intro inside
      omega
  | succ rounds ih =>
    have end' : (p2v 0x000FFFFF).toNat = 0xFFFFFFFF800FFFFF := by decide
    have inside : paragraph k < p2v 0x000FFFFF := by
      rw [BitVec.lt_def, paragraph_toNat (by omega), end']
      omega
    rw [scanLoop, if_pos inside]
    by_cases signed : qwordAt memory (paragraph k) = rsdpSignature
    · rw [if_pos signed]
      refine ⟨k, Nat.le_refl k, by omega, rfl, ?_, fun _ => signed⟩
      intro i from' before
      omega
    · rw [if_neg signed, paragraph_succ]
      obtain ⟨j, after, within, stops, unsigned, found⟩ := ih (show k + 1 + rounds = 8192 by omega)
      refine ⟨j, by omega, within, stops, ?_, found⟩
      intro i from' before
      by_cases here : i = k
      · rw [here]
        exact signed
      · exact unsigned i (by omega) before

theorem acpiScan_paragraph (memory : Word → Byte) :
    ∃ j ≤ 8192, acpiScan memory = paragraph j ∧ (∀ i < j, ¬Signed memory i) ∧
      (j < 8192 → Signed memory j) := by
  have first : paragraph 0 = p2v 0x000E0000 := BitVec.add_zero _
  obtain ⟨j, -, within, stops, unsigned, found⟩ := scanLoop_paragraph memory (Nat.zero_add 8192)
  rw [first] at stops
  exact ⟨j, within, stops, fun i => unsigned i (Nat.zero_le i), found⟩

theorem acpiScan_of_first {memory : Word → Byte} {k : Nat} (inside : k < 8192) (signed : Signed memory k)
    (first : ∀ j < k, ¬Signed memory j) : acpiScan memory = paragraph k := by
  obtain ⟨j, within, stops, unsigned, found⟩ := acpiScan_paragraph memory
  rcases Nat.lt_trichotomy j k with before | rfl | after
  · exact absurd (found (by omega)) (first j before)
  · exact stops
  · exact absurd signed (unsigned k after)

def byteSum (memory : Word → Byte) (h : Word) : Nat :=
  ((List.range 20).map fun i => (memory (h + BitVec.ofNat 64 i)).toNat).sum

theorem foldl_signExtend_toNat (bytes : List Byte) (sum : BitVec 32) :
    (bytes.foldl (fun sum byte => sum + byte.signExtend 32) sum).toNat % 256 =
      (sum.toNat + (bytes.map BitVec.toNat).sum) % 256 := by
  induction bytes generalizing sum with
  | nil => rfl
  | cons byte bytes ih =>
    have low : (byte.signExtend 32).toNat % 256 = byte.toNat := by
      have same : (byte.signExtend 32).setWidth 8 = byte := by
        ext i inside
        have wide : i < 32 := by omega
        rw [BitVec.getElem_setWidth, BitVec.getLsbD_signExtend]
        simp [inside, wide]
      exact congrArg BitVec.toNat same
    rw [List.foldl_cons, ih, List.map_cons, List.sum_cons, BitVec.toNat_add]
    omega

theorem acpiChecksum_iff (memory : Word → Byte) (h : Word) :
    acpiChecksum memory h = 0 ↔ byteSum memory h % 256 = 0 := by
  have sum := foldl_signExtend_toNat ((List.range 20).map fun i => memory (h + BitVec.ofNat 64 i)) 0
  rw [List.foldl_map, List.map_map] at sum
  have low (byte : Byte) : byte.signExtend 32 = 0 ↔ byte.toNat = 0 := by
    revert byte
    decide
  unfold acpiChecksum byteSum
  rw [low, BitVec.toNat_setWidth, sum]
  exact Eq.congr_left (congrArg (· % 256) (Nat.zero_add _))

/-- An RSDP as it should be, at a paragraph of the area. -/
structure ValidRsdp (memory : Word → Byte) (h : Word) : Prop where
  above : p2v 0x000E0000 ≤ h
  below : h ≤ p2v 0x000FFFFF
  aligned : h.toNat % 16 = 0
  signature : qwordAt memory h = rsdpSignature
  checksum : byteSum memory h % 256 = 0

/-- The event comes from following a pointer of the RSDP. -/
def AcpiEvent.follows : AcpiEvent → Bool
  | .assertFailed => false
  | _ => true

/-- What is used is valid, a valid structure is found if there is one, and otherwise no pointer is
followed. -/
structure TrustsValid (memory : Word → Byte) (apic : IoApic) : Prop where
  used : ∀ rounds fuel, ∀ event ∈ (acpiInit memory rounds fuel apic).events, event.follows = true →
    ValidRsdp memory (acpiScan memory)
  chosen : (∃ h, ValidRsdp memory h) → ValidRsdp memory (acpiScan memory)
  none : (¬∃ h, ValidRsdp memory h) → ∀ rounds fuel, ∀ event ∈ (acpiInit memory rounds fuel apic).events,
    event.follows = false

theorem validRsdp_paragraph_iff {memory : Word → Byte} {k : Nat} (within : k ≤ 8192) :
    ValidRsdp memory (paragraph k) ↔
      k < 8192 ∧ Signed memory k ∧ acpiChecksum memory (paragraph k) = 0 := by
  have value := paragraph_toNat within
  have first : (p2v 0x000E0000).toNat = 0xFFFFFFFF800E0000 := by decide
  have end' : (p2v 0x000FFFFF).toNat = 0xFFFFFFFF800FFFFF := by decide
  rw [acpiChecksum_iff]
  constructor
  · intro valid
    have below := valid.below
    rw [BitVec.le_def] at below
    exact ⟨by omega, valid.signature, valid.checksum⟩
  · rintro ⟨inside, signed, checksum⟩
    refine ⟨?_, ?_, by omega, signed, checksum⟩
    · rw [BitVec.le_def]
      omega
    · rw [BitVec.le_def]
      omega

theorem mapTable_mem (memory : Word → Byte) (rounds fuel : Nat) (apic : IoApic) :
    mapTable (rsdtPtr memory (acpiScan memory)) ∈ (acpiInit memory rounds fuel apic).events := by
  unfold acpiInit
  simp only [tell_andThen]
  exact List.mem_append_right _ (List.mem_append_left _ List.mem_cons_self)

theorem TrustsValid.scan {memory : Word → Byte} {apic : IoApic} (trusts : TrustsValid memory apic) :
    ValidRsdp memory (acpiScan memory) :=
  trusts.used 0 0 _ (mapTable_mem memory 0 0 apic) rfl

/-- Exactly when the first signature of the area has a correct checksum. -/
theorem trustsValid_iff (memory : Word → Byte) (apic : IoApic) :
    TrustsValid memory apic ↔
      ∃ k < 8192, Signed memory k ∧ (∀ j < k, ¬Signed memory j) ∧
        acpiChecksum memory (paragraph k) = 0 := by
  constructor
  · intro trusts
    obtain ⟨j, within, stops, unsigned, -⟩ := acpiScan_paragraph memory
    have valid := trusts.scan
    rw [stops] at valid
    obtain ⟨inside, signed, checksum⟩ := (validRsdp_paragraph_iff within).mp valid
    exact ⟨j, inside, signed, unsigned, checksum⟩
  · rintro ⟨k, inside, signed, first, checksum⟩
    have valid : ValidRsdp memory (acpiScan memory) := by
      rw [acpiScan_of_first inside signed first]
      exact (validRsdp_paragraph_iff (Nat.le_of_lt inside)).mpr ⟨inside, signed, checksum⟩
    exact ⟨fun _ _ _ _ _ => valid, fun _ => valid, fun nowhere => absurd ⟨_, valid⟩ nowhere⟩

/-- The BIOS area with these bytes at its start, and zero bytes behind them. -/
def biosMemory (bytes : List Byte) : Word → Byte :=
  fun address => bytes.getD (address - p2v 0x000E0000).toNat 0

/-- The first 16 bytes of an RSDP of revision 0. -/
def rsdpBytes (checksum : Byte) : List Byte :=
  [0x52, 0x53, 0x44, 0x20, 0x50, 0x54, 0x52, 0x20, checksum, 0, 0, 0, 0, 0, 0, 0]

/-- The structure with the wrong checksum is used although a valid one follows it, and without any
signature the bytes behind the area are. -/
theorem wrong_checksum_used :
    (ValidRsdp (biosMemory (rsdpBytes 0 ++ rsdpBytes 0xE1)) (paragraph 1) ∧
      ¬TrustsValid (biosMemory (rsdpBytes 0 ++ rsdpBytes 0xE1)) (openApic .shipped)) ∧
    ¬TrustsValid (biosMemory []) (openApic .shipped) := by
  refine ⟨⟨?_, ?_⟩, ?_⟩
  · rw [validRsdp_paragraph_iff (by decide)]
    unfold Signed
    decide +kernel
  · intro trusts
    have signed : Signed (biosMemory (rsdpBytes 0 ++ rsdpBytes 0xE1)) 0 := by
      unfold Signed
      decide +kernel
    have valid := trusts.scan
    rw [acpiScan_of_first (by decide) signed (by simp), validRsdp_paragraph_iff (by decide)] at valid
    exact absurd valid.2.2 (by decide +kernel)
  · intro trusts
    have zeros (address : Word) : biosMemory [] address = 0 := rfl
    have blank (h : Word) : qwordAt (biosMemory []) h = 0 := by simp [qwordAt, dwordAt, zeros]
    have signature := trusts.scan.signature
    rw [blank] at signature
    exact absurd signature (by decide)

end Osdev64
