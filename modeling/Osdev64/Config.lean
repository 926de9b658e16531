/-
The configuration store of `src/config.c`.

The bound check lets the key `CONFIG_MAX` through, one past the array.  Apart
from that key the two functions are a store: the memory behind the array is part
of the model, so that a call with that key can be seen to use it.
-/

import Osdev64.Lib.Word
import Mathlib.Data.List.Induction

namespace Osdev64

open Word64

def configMax : Int := 128

/-- The words from `sysconfig` on, which do not end with the array, and the indices used on them. -/
structure SysConfig where
  sysconfig : Nat → Word
  indices : List Nat

/-- The check of both functions. -/
def configOut (config : BitVec 32) : Prop := config.toInt > configMax ∨ config.toInt < 0

instance (config : BitVec 32) : Decidable (configOut config) :=
  inferInstanceAs (Decidable (_ ∨ _))

def configSet (config : BitVec 32) (value : Word) (state : SysConfig) : Int × SysConfig :=
  if configOut config then (-1, state)
  else
    (0, { sysconfig := Function.update state.sysconfig config.toInt.toNat value
          indices := config.toInt.toNat :: state.indices })

/-- The result, and what is stored through `value`. -/
def configGet (config : BitVec 32) (state : SysConfig) : (Int × Option Word) × SysConfig :=
  if configOut config then ((-1, none), state)
  else
    ((0, some (state.sysconfig config.toInt.toNat)),
      { state with indices := config.toInt.toNat :: state.indices })

/-! ### Calls -/

inductive ConfigCall where
  | set (config : BitVec 32) (value : Word)
  | get (config : BitVec 32)

namespace ConfigCall

def key : ConfigCall → BitVec 32
  | set config _ => config
  | get config => config

def result (state : SysConfig) : ConfigCall → Int
  | set config value => (configSet config value state).1
  | get config => (configGet config state).1.1

def run (state : SysConfig) : ConfigCall → SysConfig
  | set config value => (configSet config value state).2
  | get config => (configGet config state).2

end ConfigCall

/-- The array is zero before the first call; the memory behind it may hold anything. -/
def SysConfig.initial (behind : Nat → Word) : SysConfig where
  sysconfig := fun index => if index < 128 then 0 else behind index
  indices := []

def ValidKey (config : BitVec 32) : Prop := 0 ≤ config.toInt ∧ config.toInt < configMax

instance (config : BitVec 32) : Decidable (ValidKey config) :=
  inferInstanceAs (Decidable (_ ∧ _))

/-- The value of the last call that set the key. -/
def lastSet (config : BitVec 32) (calls : List ConfigCall) : Word :=
  calls.foldl (fun value call =>
    match call with
    | .set other new => if other = config then new else value
    | .get _ => value) 0

/-- What a call of a store does after the calls `front`. -/
structure CallRight (front : List ConfigCall) (state : SysConfig) (call : ConfigCall) : Prop where
  inside : ∀ index ∈ (call.run state).indices, index < 128
  result : call.result state = if ValidKey call.key then 0 else -1
  unchanged : ¬ValidKey call.key → call.run state = state
  value : ∀ config, call = .get config → ValidKey config →
    (configGet config state).1.2 = some (lastSet config front)

/-! ### The store -/

/-- The array holds the last value of every key, and only its elements were used. -/
structure Stores (front : List ConfigCall) (state : SysConfig) : Prop where
  inside : ∀ index ∈ state.indices, index < 128
  value : ∀ config, ValidKey config → state.sysconfig config.toInt.toNat = lastSet config front

variable {front : List ConfigCall} {state : SysConfig} {call : ConfigCall} {config : BitVec 32}

theorem stores_initial (behind : Nat → Word) : Stores [] (SysConfig.initial behind) := by
  constructor
  · intro index used
    cases used
  · intro config valid
    obtain ⟨low, high⟩ := valid
    unfold configMax at high
    exact if_pos (by omega)

theorem validKey_iff (other : config.toInt ≠ 128) : ValidKey config ↔ ¬configOut config := by
  unfold ValidKey configOut configMax
  omega

theorem toNat_ne_of_ne {config config' : BitVec 32} (valid : ValidKey config) (valid' : ValidKey config')
    (different : config' ≠ config) : config'.toInt.toNat ≠ config.toInt.toNat := by
  intro same
  obtain ⟨low, _⟩ := valid
  obtain ⟨low', _⟩ := valid'
  exact different (BitVec.eq_of_toInt_eq (by omega))

theorem lastSet_append (config : BitVec 32) (front : List ConfigCall) (call : ConfigCall) :
    lastSet config (front ++ [call]) =
      match call with
      | .set other new => if other = config then new else lastSet config front
      | .get _ => lastSet config front := by
  unfold lastSet
  rw [List.foldl_append]
  rfl

theorem ConfigCall.run_of_out (out : configOut call.key) : call.result state = -1 ∧ call.run state = state := by
  cases call with
  | set config value =>
    change configOut config at out
    change (configSet config value state).1 = -1 ∧ (configSet config value state).2 = state
    unfold configSet
    rw [if_pos out]
    exact ⟨rfl, rfl⟩
  | get config =>
    change configOut config at out
    change (configGet config state).1.1 = -1 ∧ (configGet config state).2 = state
    unfold configGet
    rw [if_pos out]
    exact ⟨rfl, rfl⟩

theorem ConfigCall.run_of_in (checked : ¬configOut call.key) :
    call.result state = 0 ∧ (call.run state).indices = call.key.toInt.toNat :: state.indices := by
  cases call with
  | set config value =>
    change ¬configOut config at checked
    change (configSet config value state).1 = 0 ∧ (configSet config value state).2.indices = _
    unfold configSet
    rw [if_neg checked]
    exact ⟨rfl, rfl⟩
  | get config =>
    change ¬configOut config at checked
    change (configGet config state).1.1 = 0 ∧ (configGet config state).2.indices = _
    unfold configGet
    rw [if_neg checked]
    exact ⟨rfl, rfl⟩

theorem Stores.run (stores : Stores front state) (other : call.key.toInt ≠ 128) :
    Stores (front ++ [call]) (call.run state) := by
  by_cases valid : ValidKey call.key
  · have checked : ¬configOut call.key := (validKey_iff other).mp valid
    constructor
    · rw [(ConfigCall.run_of_in checked).2]
      refine List.forall_mem_cons.mpr ⟨?_, stores.inside⟩
      obtain ⟨low, high⟩ := valid
      unfold configMax at high
      omega
    · intro config validKey
      rw [lastSet_append]
      cases call with
      | set written value =>
        change ¬configOut written at checked
        change (configSet written value state).2.sysconfig _ = if written = config then value else _
        unfold configSet
        rw [if_neg checked]
        by_cases same : written = config
        · subst same
          rw [if_pos rfl]
          exact Function.update_self ..
        · rw [if_neg same, ← stores.value config validKey]
          exact Function.update_of_ne (toNat_ne_of_ne valid validKey (Ne.symm same)) ..
      | get read =>
        change ¬configOut read at checked
        change (configGet read state).2.sysconfig _ = _
        unfold configGet
        rw [if_neg checked]
        exact stores.value config validKey
  · have out : configOut call.key := not_not.mp fun checked => valid ((validKey_iff other).mpr checked)
    rw [(ConfigCall.run_of_out out).2]
    refine ⟨stores.inside, ?_⟩
    intro config validKey
    rw [lastSet_append, stores.value config validKey]
    cases call with
    | set written value =>
      have different : written ≠ config := by
        rintro rfl
        exact valid validKey
      exact (if_neg different).symm
    | get read => rfl

theorem Stores.callRight (stores : Stores front state) (other : call.key.toInt ≠ 128) :
    CallRight front state call := by
  constructor
  case inside => exact (stores.run other).inside
  case result =>
    by_cases valid : ValidKey call.key
    · rw [if_pos valid]
      exact (ConfigCall.run_of_in ((validKey_iff other).mp valid)).1
    · rw [if_neg valid]
      exact (ConfigCall.run_of_out (not_not.mp fun checked => valid ((validKey_iff other).mpr checked))).1
  case unchanged =>
    intro invalid
    exact (ConfigCall.run_of_out (not_not.mp fun checked => invalid ((validKey_iff other).mpr checked))).2
  case value =>
    intro config isGet valid
    subst isGet
    have checked : ¬configOut config := (validKey_iff other).mp valid
    unfold configGet
    rw [if_neg checked]
    exact congrArg some (stores.value config valid)

theorem stores_foldl (behind : Nat → Word) (calls : List ConfigCall)
    (others : ∀ call ∈ calls, call.key.toInt ≠ 128) :
    Stores calls (calls.foldl ConfigCall.run (SysConfig.initial behind)) := by
  induction calls using List.reverseRecOn with
  | nil => exact stores_initial behind
  | append_singleton front call ih =>
    rw [List.foldl_append]
    apply Stores.run
    · exact ih fun earlier member => others earlier (List.mem_append_left [call] member)
    · exact others call (List.mem_append_right front List.mem_cons_self)

/-- Every call of a sequence does what a store does exactly when no call has the key `CONFIG_MAX`. -/
theorem callsRight_iff (behind : Nat → Word) (calls : List ConfigCall) :
    (∀ front call, front ++ [call] <+: calls →
        CallRight front (front.foldl ConfigCall.run (SysConfig.initial behind)) call) ↔
      ∀ call ∈ calls, call.key.toInt ≠ 128 := by
  constructor
  · intro right call member isMax
    obtain ⟨front, back, rfl⟩ := List.append_of_mem member
    have prefixed : front ++ [call] <+: front ++ call :: back := ⟨back, by simp⟩
    have invalid : ¬ValidKey call.key := by
      unfold ValidKey configMax
      omega
    have checked : ¬configOut call.key := by
      unfold configOut configMax
      omega
    have result := (right front call prefixed).result
    rw [if_neg invalid, (ConfigCall.run_of_in checked).1] at result
    cases result
  · intro others front call prefixed
    have inCalls : ∀ earlier ∈ front ++ [call], earlier.key.toInt ≠ 128 :=
      fun earlier member => others earlier (prefixed.subset member)
    have stores := stores_foldl behind front fun earlier member =>
      inCalls earlier (List.mem_append_left [call] member)
    exact stores.callRight (inCalls call (List.mem_append_right front List.mem_cons_self))

/-- Setting the key `CONFIG_MAX` succeeds and changes the word behind the array. -/
theorem configMax_overwrites_behind :
    (configSet 128 1 (SysConfig.initial fun _ => 0)).1 = 0 ∧
      (configSet 128 1 (SysConfig.initial fun _ => 0)).2.sysconfig 128 = 1 := by
  decide

end Osdev64
