/-
The intrusive circular lists of `include/list.h`, over any node type.

Each function performs the pointer writes of its C counterpart in the same
order.  A specification says which ring an operation changes and how, and that
it leaves the pointers of every other node alone.
-/

import Osdev64.Lib.Ring

namespace Osdev64

open PointerRing

variable {ν : Type} [DecidableEq ν]

def listInit (heap : Heap ν) (list : ν) : Heap ν :=
  (heap.setNext list list).setPrev list list

def listEmpty (heap : Heap ν) (list : ν) : Bool :=
  heap.next list = list

/-- `__list_del`: make the two given nodes neighbours. -/
def listDelBetween (heap : Heap ν) (prev next : ν) : Heap ν :=
  (heap.setPrev next prev).setNext prev next

def listDel (heap : Heap ν) (entry : ν) : Heap ν :=
  listDelBetween heap (heap.prev entry) (heap.next entry)

/-- `__list_add`: put `entry` between two neighbours. -/
def listAddBetween (heap : Heap ν) (entry prev next : ν) : Heap ν :=
  (((heap.setPrev next entry).setNext entry next).setPrev entry prev).setNext prev entry

/-- Insert new at the beginning of head. -/
def listAdd (heap : Heap ν) (head entry : ν) : Heap ν :=
  listAddBetween heap entry head (heap.next head)

/-- Insert new at the tail of head. -/
def listAddTail (heap : Heap ν) (head entry : ν) : Heap ν :=
  listAddBetween heap entry (heap.prev head) head

def listMove (heap : Heap ν) (head entry : ν) : Heap ν :=
  listAdd (listDel heap entry) head entry

def listMoveTail (heap : Heap ν) (head entry : ν) : Heap ν :=
  listAddTail (listDel heap entry) head entry

/-- Both pointers of `node` are the same in the two heaps. -/
def Agrees (heap heap' : Heap ν) (node : ν) : Prop :=
  heap'.next node = heap.next node ∧ heap'.prev node = heap.prev node

omit [DecidableEq ν] in
theorem Agrees.trans {first second third : Heap ν} {node : ν}
    (left : Agrees first second node) (right : Agrees second third node) :
    Agrees first third node :=
  ⟨right.1.trans left.1, right.2.trans left.2⟩

omit [DecidableEq ν] in
theorem Agrees.selfLinked {heap heap' : Heap ν} {node : ν} (agrees : Agrees heap heap' node)
    (self : heap.SelfLinked node) : heap'.SelfLinked node :=
  ⟨agrees.1.trans self.1, agrees.2.trans self.2⟩

variable {heap : Heap ν} {head node entry : ν} {items : List ν}

/-! ### Initialisation -/

theorem listInit_selfLinked (heap : Heap ν) (list : ν) :
    (listInit heap list).SelfLinked list := by
  constructor
  · simp [listInit, Heap.setNext, Heap.setPrev]
  · simp [listInit, Heap.setNext, Heap.setPrev]

theorem listInit_agrees (heap : Heap ν) {list node : ν} (different : node ≠ list) :
    Agrees heap (listInit heap list) node := by
  constructor
  · simp [listInit, Heap.setNext, Heap.setPrev, Function.update_of_ne different]
  · simp [listInit, Heap.setNext, Heap.setPrev, Function.update_of_ne different]

/-! ### Taking an entry out -/

theorem listDel_eq_join (heap : Heap ν) (entry : ν) :
    listDel heap entry = heap.join (heap.prev entry) (heap.next entry) := rfl

theorem listDel_agrees_of_ne (heap : Heap ν) (entry : ν)
    (notPrev : node ≠ heap.prev entry) (notNext : node ≠ heap.next entry) :
    Agrees heap (listDel heap entry) node := by
  rw [listDel_eq_join]
  constructor
  · rw [Heap.join_next, if_neg notPrev]
  · rw [Heap.join_prev, if_neg notNext]

theorem listDel_of_selfLinked (self : heap.SelfLinked entry) : listDel heap entry = heap := by
  obtain ⟨nextSelf, prevSelf⟩ := self
  have sameNext : (listDel heap entry).next = heap.next := by
    funext node
    rw [listDel_eq_join, Heap.join_next, prevSelf, nextSelf]
    split
    · rename_i same
      rw [same, nextSelf]
    · rfl
  have samePrev : (listDel heap entry).prev = heap.prev := by
    funext node
    rw [listDel_eq_join, Heap.join_prev, prevSelf, nextSelf]
    split
    · rename_i same
      rw [same, prevSelf]
    · rfl
  cases heap
  cases deleted : listDel _ entry
  rw [deleted] at sameNext samePrev
  subst sameNext samePrev
  rfl

theorem listDel_ring (ring : Ring heap head items) (member : entry ∈ items) :
    Ring (listDel heap entry) head (items.erase entry) := by
  obtain ⟨before, after, absent, rfl, erased⟩ := List.exists_erase_eq member
  rw [erased]
  exact ring.remove

theorem listDel_agrees (ring : Ring heap head items) (member : entry ∈ items)
    (outside : node ∉ head :: items) : Agrees heap (listDel heap entry) node := by
  have inside := List.mem_cons_of_mem head member
  apply listDel_agrees_of_ne
  · rintro rfl
    exact outside (ring.prev_mem inside)
  · rintro rfl
    exact outside (ring.next_mem inside)

/-! ### Putting an entry in -/

theorem listAddBetween_eq_join (heap : Heap ν) (entry prev next : ν) :
    listAddBetween heap entry prev next = (heap.join entry next).join prev entry := rfl

theorem listAddBetween_agrees (heap : Heap ν) (prev next : ν) (notPrev : node ≠ prev)
    (notNext : node ≠ next) (notEntry : node ≠ entry) :
    Agrees heap (listAddBetween heap entry prev next) node := by
  rw [listAddBetween_eq_join]
  constructor
  · rw [Heap.join_next, if_neg notPrev, Heap.join_next, if_neg notEntry]
  · rw [Heap.join_prev, if_neg notEntry, Heap.join_prev, if_neg notNext]

omit [DecidableEq ν] in
private theorem prev_head_getLast (ring : Ring heap head items) :
    (head :: items).getLast? = some (heap.prev head) := by
  have whole : Ring heap head (items ++ []) := by
    rw [List.append_nil]
    exact ring
  obtain ⟨lead, left, right, trail, leadEq, trailEq, _, link, _⟩ := whole.cut
  have rightHead : right = head := (List.cons.inj trailEq).1.symm
  rw [leadEq, ← rightHead, link.2]
  simp

omit [DecidableEq ν] in
private theorem next_head_head (ring : Ring heap head items) :
    (items ++ [head]).head? = some (heap.next head) := by
  cases items with
  | nil =>
    rw [(Ring.nil_iff_selfLinked.mp ring).1]
    rfl
  | cons first rest =>
    rw [ring.next_head_cons]
    rfl

theorem listAddTail_ring (ring : Ring heap head items) (foreign : entry ∉ head :: items) :
    Ring (listAddTail heap head entry) head (items ++ [entry]) := by
  have whole : Ring heap head (items ++ []) := by
    rw [List.append_nil]
    exact ring
  refine whole.insert ?_ (prev_head_getLast ring) rfl
  rw [List.append_nil]
  exact foreign

theorem listAdd_ring (ring : Ring heap head items) (foreign : entry ∉ head :: items) :
    Ring (listAdd heap head entry) head (entry :: items) := by
  have whole : Ring heap head ([] ++ items) := ring
  exact whole.insert foreign rfl (next_head_head ring)

theorem listAddTail_agrees (ring : Ring heap head items) (outside : node ∉ head :: items)
    (notEntry : node ≠ entry) : Agrees heap (listAddTail heap head entry) node := by
  apply listAddBetween_agrees _ _ _ _ _ notEntry
  · rintro rfl
    exact outside (ring.prev_mem List.mem_cons_self)
  · rintro rfl
    exact outside List.mem_cons_self

theorem listAdd_agrees (ring : Ring heap head items) (outside : node ∉ head :: items)
    (notEntry : node ≠ entry) : Agrees heap (listAdd heap head entry) node := by
  apply listAddBetween_agrees _ _ _ _ _ notEntry
  · rintro rfl
    exact outside List.mem_cons_self
  · rintro rfl
    exact outside (ring.next_mem List.mem_cons_self)

/-! ### Moving an entry -/

/-- Where an entry may sit when `list_del` reaches it: in a ring, or alone. -/
def Placed (heap : Heap ν) (items : List ν) (entry : ν) : Prop :=
  entry ∈ items ∨ heap.SelfLinked entry

theorem listDel_of_placed (ring : Ring heap head items) (placed : Placed heap items entry) :
    Ring (listDel heap entry) head (items.erase entry) ∧
      ∀ node, node ∉ head :: items → Agrees heap (listDel heap entry) node := by
  by_cases member : entry ∈ items
  · exact ⟨listDel_ring ring member, fun node outside => listDel_agrees ring member outside⟩
  · have self := placed.resolve_left member
    rw [listDel_of_selfLinked self, List.erase_of_not_mem member]
    exact ⟨ring, fun node _ => ⟨rfl, rfl⟩⟩

theorem not_mem_cons_erase (ring : Ring heap head items)
    (notHead : entry ≠ head) : entry ∉ head :: items.erase entry := by
  rw [List.mem_cons, not_or]
  exact ⟨notHead, List.Nodup.not_mem_erase ring.nodup⟩

theorem mem_cons_of_erase (inside : node ∈ head :: items.erase entry) :
    node ∈ head :: items := by
  rcases List.mem_cons.mp inside with atHead | member
  · exact atHead ▸ List.mem_cons_self
  · exact List.mem_cons_of_mem head (List.mem_of_mem_erase member)

private theorem outside_erase (outside : node ∉ head :: items) :
    node ∉ head :: items.erase entry :=
  fun member => outside (mem_cons_of_erase member)

theorem listMoveTail_ring (ring : Ring heap head items) (notHead : entry ≠ head)
    (placed : Placed heap items entry) :
    Ring (listMoveTail heap head entry) head (items.erase entry ++ [entry]) ∧
      ∀ node, node ∉ head :: items → node ≠ entry →
        Agrees heap (listMoveTail heap head entry) node := by
  obtain ⟨removed, others⟩ := listDel_of_placed ring placed
  refine ⟨listAddTail_ring removed (not_mem_cons_erase ring notHead), ?_⟩
  intro node outside notEntry
  exact (others node outside).trans
    (listAddTail_agrees removed (outside_erase outside) notEntry)

/-- Two rings without a common node. -/
def Apart (head head' : ν) (items items' : List ν) : Prop :=
  ∀ node ∈ head :: items, node ∉ head' :: items'

section TwoRings

variable {head' : ν} {items' : List ν}

theorem listDel_two (ring : Ring heap head items) (ring' : Ring heap head' items')
    (apart : Apart head head' items items')
    (placed : entry ∈ items ∨ Placed heap items' entry) :
    Ring (listDel heap entry) head (items.erase entry) ∧
      Ring (listDel heap entry) head' (items'.erase entry) ∧
      ∀ node, node ∉ head :: items → node ∉ head' :: items' →
        Agrees heap (listDel heap entry) node := by
  by_cases member : entry ∈ items
  · have absent : entry ∉ items' := fun other =>
      apart entry (List.mem_cons_of_mem head member) (List.mem_cons_of_mem head' other)
    refine ⟨listDel_ring ring member, ?_, ?_⟩
    · rw [List.erase_of_not_mem absent]
      exact ring'.congr fun node inside =>
        listDel_agrees ring member (fun outside => apart node outside inside)
    · intro node outside _
      exact listDel_agrees ring member outside
  · obtain ⟨removed, others⟩ := listDel_of_placed ring' (placed.resolve_left member)
    refine ⟨?_, removed, fun node _ outside => others node outside⟩
    rw [List.erase_of_not_mem member]
    exact ring.congr fun node inside => others node (apart node inside)

theorem listMoveTail_two (ring : Ring heap head items) (ring' : Ring heap head' items')
    (apart : Apart head head' items items') (notHead : entry ≠ head) (notHead' : entry ≠ head')
    (placed : entry ∈ items ∨ Placed heap items' entry) :
    Ring (listMoveTail heap head' entry) head (items.erase entry) ∧
      Ring (listMoveTail heap head' entry) head' (items'.erase entry ++ [entry]) ∧
      ∀ node, node ∉ head :: items → node ∉ head' :: items' → node ≠ entry →
        Agrees heap (listMoveTail heap head' entry) node := by
  obtain ⟨kept, removed, others⟩ := listDel_two ring ring' apart placed
  refine ⟨?_, listAddTail_ring removed (not_mem_cons_erase ring' notHead'), ?_⟩
  · refine kept.congr fun node inside => listAddTail_agrees removed (outside_erase ?_) ?_
    · exact apart node (mem_cons_of_erase inside)
    · rintro rfl
      exact not_mem_cons_erase ring notHead inside
  · intro node outside outside' notEntry
    exact (others node outside outside').trans
      (listAddTail_agrees removed (outside_erase outside') notEntry)

theorem listMove_two (ring : Ring heap head items) (ring' : Ring heap head' items')
    (apart : Apart head head' items items') (notHead : entry ≠ head) (notHead' : entry ≠ head')
    (placed : entry ∈ items ∨ Placed heap items' entry) :
    Ring (listMove heap head' entry) head (items.erase entry) ∧
      Ring (listMove heap head' entry) head' (entry :: items'.erase entry) ∧
      ∀ node, node ∉ head :: items → node ∉ head' :: items' → node ≠ entry →
        Agrees heap (listMove heap head' entry) node := by
  obtain ⟨kept, removed, others⟩ := listDel_two ring ring' apart placed
  refine ⟨?_, listAdd_ring removed (not_mem_cons_erase ring' notHead'), ?_⟩
  · refine kept.congr fun node inside => listAdd_agrees removed (outside_erase ?_) ?_
    · exact apart node (mem_cons_of_erase inside)
    · rintro rfl
      exact not_mem_cons_erase ring notHead inside
  · intro node outside outside' notEntry
    exact (others node outside outside').trans
      (listAdd_agrees removed (outside_erase outside') notEntry)

end TwoRings

end Osdev64
