/-
`list_move` and `list_move_tail` among any number of rings.

A heap holds a family of rings, each under its own head.  Moving an entry takes it
out of the sequence it is in and puts it to one end of another, or of the same; the
pointers of every other ring stay as they are.
-/

import Osdev64.List

namespace Osdev64

open PointerRing

variable {ν : Type} [DecidableEq ν]

/-- The sequence under each head. -/
abbrev Sequences (ν : Type) := ν → Option (List ν)

/-- The rings of a heap, without common nodes. -/
structure RingFamily (heap : Heap ν) (rings : Sequences ν) : Prop where
  ring : ∀ head items, rings head = some items → Ring heap head items
  apart : ∀ head head' items items', rings head = some items → rings head' = some items' → head ≠ head' →
    Apart head head' items items'

def Sequences.without (rings : Sequences ν) (entry : ν) : Sequences ν := fun head =>
  (rings head).map fun items => items.erase entry

/-- The sequences after `list_move_tail`. -/
def Sequences.moveTail (rings : Sequences ν) (head entry : ν) : Sequences ν := fun other =>
  (rings other).map fun items =>
    if other = head then items.erase entry ++ [entry] else items.erase entry

/-- The sequences after `list_move`. -/
def Sequences.move (rings : Sequences ν) (head entry : ν) : Sequences ν := fun other =>
  (rings other).map fun items =>
    if other = head then entry :: items.erase entry else items.erase entry

/-- An entry that `list_move` may be called with: no head, and on some ring or alone. -/
structure Movable (heap : Heap ν) (rings : Sequences ν) (entry : ν) : Prop where
  notHead : rings entry = none
  placed : (∃ head items, rings head = some items ∧ entry ∈ items) ∨ heap.SelfLinked entry

/-- The heap after a move: the rings are as they should be, and those the move is not about
have kept every pointer. -/
structure Moved (heap heap' : Heap ν) (rings rings' : Sequences ν) (head entry : ν) : Prop where
  family : RingFamily heap' rings'
  others : ∀ other items, rings other = some items → other ≠ head → entry ∉ items →
    rings' other = some items ∧ ∀ node ∈ other :: items, Agrees heap heap' node
  strays : ∀ node, node ≠ entry → (∀ other items, rings other = some items → node ∉ other :: items) →
    Agrees heap heap' node

variable {heap heap' : Heap ν} {rings : Sequences ν} {head entry : ν} {items : List ν}

namespace RingFamily

omit [DecidableEq ν] in
theorem same_of_mem (family : RingFamily heap rings) {head head' node : ν} {items items' : List ν}
    (atHead : rings head = some items) (atHead' : rings head' = some items')
    (member : node ∈ head :: items) (member' : node ∈ head' :: items') : head = head' := by
  by_contra different
  exact family.apart head head' items items' atHead atHead' different node member member'

theorem listDel (family : RingFamily heap rings) (movable : Movable heap rings entry) :
    RingFamily (listDel heap entry) (rings.without entry) ∧
      ∀ node, (∀ head items, rings head = some items → entry ∈ items → node ∉ head :: items) →
        Agrees heap (Osdev64.listDel heap entry) node := by
  by_cases member : ∃ head items, rings head = some items ∧ entry ∈ items
  · obtain ⟨home, homeItems, atHome, member⟩ := member
    have ring := family.ring home homeItems atHome
    have away (node : ν) (outside : node ∉ home :: homeItems) : Agrees heap (Osdev64.listDel heap entry) node :=
      listDel_agrees ring member outside
    refine ⟨⟨?_, ?_⟩, fun node outside => away node (outside home homeItems atHome member)⟩
    · intro head items found
      obtain ⟨before, atHead, rfl⟩ := Option.map_eq_some_iff.mp found
      by_cases same : head = home
      · subst same
        rw [atHome, Option.some.injEq] at atHead
        rw [← atHead]
        exact listDel_ring ring member
      · have apart := family.apart head home before homeItems atHead atHome same
        have absent : entry ∉ before := fun here =>
          apart entry (List.mem_cons_of_mem head here) (List.mem_cons_of_mem home member)
        rw [List.erase_of_not_mem absent]
        exact (family.ring head before atHead).congr fun node inside => away node (apart node inside)
    · intro head head' items items' found found' different node inside inside'
      obtain ⟨before, atHead, rfl⟩ := Option.map_eq_some_iff.mp found
      obtain ⟨before', atHead', rfl⟩ := Option.map_eq_some_iff.mp found'
      exact family.apart head head' before before' atHead atHead' different node
        (mem_cons_of_erase inside) (mem_cons_of_erase inside')
  · have self := movable.placed.resolve_left member
    have same : rings.without entry = rings := by
      funext head
      unfold Sequences.without
      cases atHead : rings head with
      | none => rfl
      | some items =>
        have absent : entry ∉ items := fun here => member ⟨head, items, atHead, here⟩
        rw [Option.map_some, List.erase_of_not_mem absent]
    rw [listDel_of_selfLinked self, same]
    exact ⟨family, fun node _ => ⟨rfl, rfl⟩⟩

theorem add (family : RingFamily heap rings) (atHead : rings head = some items)
    (foreign : ∀ other others, rings other = some others → entry ∉ other :: others) {items' : List ν}
    (ring : Ring heap' head items') (members : ∀ node ∈ items', node = entry ∨ node ∈ items)
    (agrees : ∀ node, node ∉ head :: items → node ≠ entry → Agrees heap heap' node) :
    RingFamily heap' (Function.update rings head (some items')) := by
  have inside {node : ν} (member : node ∈ head :: items') : node = entry ∨ node ∈ head :: items := by
    rcases List.mem_cons.mp member with atHead | later
    · exact Or.inr (List.mem_cons.mpr (Or.inl atHead))
    · exact (members node later).imp_right (List.mem_cons_of_mem head)
  have apart {other : ν} {others : List ν} (found : rings other = some others) (different : other ≠ head) :
      ∀ node ∈ other :: others, node ∉ head :: items' := by
    intro node here there
    rcases inside there with rfl | old
    · exact foreign other others found here
    · exact different (family.same_of_mem found atHead here old)
  refine ⟨?_, ?_⟩
  · intro other others found
    by_cases same : other = head
    · subst same
      rw [Function.update_self, Option.some.injEq] at found
      rw [← found]
      exact ring
    · rw [Function.update_of_ne same] at found
      refine (family.ring other others found).congr fun node here => agrees node ?_ ?_
      · exact fun there => same (family.same_of_mem found atHead here there)
      · rintro rfl
        exact foreign other others found here
  · intro first second firstItems secondItems atFirst atSecond different
    by_cases firstHead : first = head
    · subst firstHead
      rw [Function.update_self, Option.some.injEq] at atFirst
      rw [Function.update_of_ne (Ne.symm different)] at atSecond
      subst atFirst
      exact fun node here there => apart atSecond (Ne.symm different) node there here
    · rw [Function.update_of_ne firstHead] at atFirst
      by_cases secondHead : second = head
      · subst secondHead
        rw [Function.update_self, Option.some.injEq] at atSecond
        subst atSecond
        exact apart atFirst firstHead
      · rw [Function.update_of_ne secondHead] at atSecond
        exact family.apart first second firstItems secondItems atFirst atSecond different

theorem foreign_without (family : RingFamily heap rings) (movable : Movable heap rings entry) :
    ∀ other others, rings.without entry other = some others → entry ∉ other :: others := by
  intro other others found
  obtain ⟨before, atOther, rfl⟩ := Option.map_eq_some_iff.mp found
  apply not_mem_cons_erase (family.ring other before atOther)
  rintro rfl
  rw [movable.notHead] at atOther
  cases atOther

theorem moved (family : RingFamily heap rings) (atHead : rings head = some items)
    (movable : Movable heap rings entry) {items' : List ν} {rings' : Sequences ν}
    (ring : Ring heap' head items') (members : ∀ node ∈ items', node = entry ∨ node ∈ items.erase entry)
    (agrees : ∀ node, node ∉ head :: items.erase entry → node ≠ entry →
      Agrees (Osdev64.listDel heap entry) heap' node)
    (result : rings' = Function.update (rings.without entry) head (some items')) :
    Moved heap heap' rings rings' head entry := by
  obtain ⟨removed, kept⟩ := family.listDel movable
  have foreign := family.foreign_without movable
  have atHead' : rings.without entry head = some (items.erase entry) := by
    unfold Sequences.without
    rw [atHead, Option.map_some]
  refine ⟨result ▸ removed.add atHead' foreign ring members agrees, ?_, ?_⟩
  · intro other others atOther notHead absent
    have sequence : rings' other = some others := by
      rw [result, Function.update_of_ne notHead]
      unfold Sequences.without
      rw [atOther, Option.map_some, List.erase_of_not_mem absent]
    refine ⟨sequence, fun node here => (kept node ?_).trans (agrees node ?_ ?_)⟩
    · intro home homeItems atHome member there
      have same : other = home := family.same_of_mem atOther atHome here there
      rw [same, atHome, Option.some.injEq] at atOther
      exact absent (atOther ▸ member)
    · exact fun there => notHead (family.same_of_mem atOther atHead here (mem_cons_of_erase there))
    · rintro rfl
      rcases List.mem_cons.mp here with rfl | member
      · rw [movable.notHead] at atOther
        cases atOther
      · exact absent member
  · intro node notEntry outside
    refine (kept node fun home homeItems atHome _ => outside home homeItems atHome).trans
      (agrees node ?_ notEntry)
    exact fun there => outside head items atHead (mem_cons_of_erase there)

end RingFamily

/-- Moving an entry to an end of a ring does that to the sequences, and nothing else. -/
theorem listMove_refines (heap : Heap ν) (rings : Sequences ν) (family : RingFamily heap rings)
    (head entry : ν) (items : List ν) (atHead : rings head = some items) (movable : Movable heap rings entry) :
    Moved heap (listMoveTail heap head entry) rings (rings.moveTail head entry) head entry ∧
      Moved heap (listMove heap head entry) rings (rings.move head entry) head entry := by
  have foreign := family.foreign_without movable
  have atHead' : rings.without entry head = some (items.erase entry) := by
    unfold Sequences.without
    rw [atHead, Option.map_some]
  have ring : Ring (listDel heap entry) head (items.erase entry) :=
    (family.listDel movable).1.ring head _ atHead'
  have outside : entry ∉ head :: items.erase entry := foreign head _ atHead'
  have update (change : List ν → List ν) :
      (fun other => (rings other).map fun items =>
        if other = head then change (items.erase entry) else items.erase entry) =
      Function.update (rings.without entry) head (some (change (items.erase entry))) := by
    funext other
    by_cases same : other = head
    · subst same
      rw [Function.update_self, atHead, Option.map_some, if_pos rfl]
    · rw [Function.update_of_ne same]
      simp only [if_neg same]
      rfl
  constructor
  · refine family.moved atHead movable (listAddTail_ring ring outside) ?_
      (fun node away notEntry => listAddTail_agrees ring away notEntry) (update (· ++ [entry]))
    intro node member
    rcases List.mem_append.mp member with old | new
    · exact Or.inr old
    · exact Or.inl (List.mem_singleton.mp new)
  · refine family.moved atHead movable (listAdd_ring ring outside) ?_
      (fun node away notEntry => listAdd_agrees ring away notEntry) (update (entry :: ·))
    intro node member
    exact List.mem_cons.mp member

/-- The rings 0, 1, 2 and 3, 4, with the heads 0 and 3. -/
def twoRingHeap : Heap (Fin 5) where
  next := fun node => if node = 2 then 0 else if node = 4 then 3 else node + 1
  prev := fun node => if node = 0 then 2 else if node = 3 then 4 else node - 1

def twoSequences : Sequences (Fin 5) := fun head =>
  if head = 0 then some [1, 2] else if head = 3 then some [4] else none

theorem twoRingHeap_family : RingFamily twoRingHeap twoSequences := by
  have sequence {head : Fin 5} {items : List (Fin 5)} (found : twoSequences head = some items) :
      head = 0 ∧ items = [1, 2] ∨ head = 3 ∧ items = [4] := by
    unfold twoSequences at found
    split_ifs at found with first second
    · exact Or.inl ⟨first, (Option.some.inj found).symm⟩
    · exact Or.inr ⟨second, (Option.some.inj found).symm⟩
  constructor
  · intro head items found
    rcases sequence found with ⟨rfl, rfl⟩ | ⟨rfl, rfl⟩
    · exact ⟨by decide, by decide⟩
    · exact ⟨by decide, by decide⟩
  · intro head head' items items' found found' different
    unfold Apart
    rcases sequence found with ⟨rfl, rfl⟩ | ⟨rfl, rfl⟩
    · rcases sequence found' with ⟨rfl, rfl⟩ | ⟨rfl, rfl⟩
      · exact absurd rfl different
      · decide
    · rcases sequence found' with ⟨rfl, rfl⟩ | ⟨rfl, rfl⟩
      · decide
      · exact absurd rfl different

theorem listMove_refines_two :
    RingFamily twoRingHeap twoSequences ∧ Ring (listMoveTail twoRingHeap 3 1) 3 [4, 1] ∧
      Ring (listMove twoRingHeap 0 2) 0 [2, 1] :=
  ⟨twoRingHeap_family,
    (listMove_refines twoRingHeap twoSequences twoRingHeap_family 3 1 [4] rfl
      ⟨rfl, Or.inl ⟨0, [1, 2], rfl, by decide⟩⟩).1.family.ring 3 [4, 1] (by decide),
    (listMove_refines twoRingHeap twoSequences twoRingHeap_family 0 2 [1, 2] rfl
      ⟨rfl, Or.inl ⟨0, [1, 2], rfl, by decide⟩⟩).2.family.ring 0 [2, 1] (by decide)⟩

end Osdev64
