/-
The address arithmetic of `include/arch/x86_64/kernel.h`.

Every macro is the word operation of the header.  Its specification gives the
natural number it computes; `roundUp` moves an aligned address to the next
boundary, because the header adds the whole unit before it masks.
-/

import Osdev64.Lib.Word

namespace Osdev64

open Word64

def kernelVirt : Word := 0xFFFFFFFF80000000

def initialTop : Word := 0xFFFFFFFF80400000

def pageSize : Word := 0x1000

def roundDown (a b : Word) : Word := a &&& ~~~(b - 1)

def roundUp (a b : Word) : Word := (a + b) &&& ~~~(b - 1)

/-- Convert physical to higher half. -/
def p2v (x : Word) : Word := x ||| kernelVirt

def v2p (x : Word) : Word := x &&& ~~~kernelVirt

private theorem pageMask : ~~~(pageSize - 1) = BitVec.allOnes 64 <<< 12 := by decide

theorem roundDown_page (a : Word) :
    (roundDown a pageSize).toNat = a.toNat / 4096 * 4096 := by
  unfold roundDown
  rw [pageMask, toNat_and_high]
  rfl

theorem roundDown_div_page (a : Word) :
    (roundDown a pageSize / pageSize).toNat = a.toNat / 4096 := by
  rw [BitVec.toNat_udiv, roundDown_page]
  change a.toNat / 4096 * 4096 / 4096 = a.toNat / 4096
  omega

theorem roundUp_page (a : Word) :
    (roundUp a pageSize).toNat = (a.toNat + 4096) % 2 ^ 64 / 4096 * 4096 := by
  unfold roundUp
  rw [pageMask, toNat_and_high, BitVec.toNat_add]
  rfl

theorem roundUp_div_page (a : Word) :
    (roundUp a pageSize / pageSize).toNat = (a.toNat + 4096) % 2 ^ 64 / 4096 := by
  rw [BitVec.toNat_udiv, roundUp_page]
  change (a.toNat + 4096) % 2 ^ 64 / 4096 * 4096 / 4096 = (a.toNat + 4096) % 2 ^ 64 / 4096
  omega

theorem roundUp_div_page_of_lt (a : Word) (small : a.toNat + 4096 < 2 ^ 64) :
    (roundUp a pageSize / pageSize).toNat = a.toNat / 4096 + 1 := by
  rw [roundUp_div_page]
  omega

theorem p2v_toNat (x : Word) : (p2v x).toNat = x.toNat % 2 ^ 31 + (2 ^ 64 - 2 ^ 31) := by
  unfold p2v
  rw [BitVec.toNat_or]
  change x.toNat ||| 2 ^ 31 * (2 ^ 33 - 1) = _
  rw [or_high (show x.toNat < 2 ^ (31 + 33) from x.isLt)]
  omega

theorem v2p_toNat (x : Word) : (v2p x).toNat = x.toNat % 2 ^ 31 := by
  unfold v2p
  rw [BitVec.toNat_and]
  exact Nat.and_two_pow_sub_one_eq_mod x.toNat 31

theorem v2p_p2v_iff (x : Word) : v2p (p2v x) = x ↔ x.toNat < 2 ^ 31 := by
  have there : (v2p (p2v x)).toNat = x.toNat % 2 ^ 31 := by
    rw [v2p_toNat, p2v_toNat]
    omega
  constructor
  · intro same
    rw [same] at there
    omega
  · intro small
    apply BitVec.eq_of_toNat_eq
    rw [there]
    exact Nat.mod_eq_of_lt small

end Osdev64
