/-
Circular doubly linked rings over a pointer heap.

A heap gives every node a successor and a predecessor.  A ring is a list of
distinct nodes, read forward from a head, whose pointers agree in both
directions and close on the head again.  The rules below say what joining two
nodes does to the rings of a heap; they name no particular node type.
-/

import Mathlib.Data.List.Chain
import Mathlib.Data.List.Nodup
import Mathlib.Logic.Function.Iterate

namespace PointerRing

structure Heap (ν : Type) where
  next : ν → ν
  prev : ν → ν

/-- `left` and `right` name each other as neighbours. -/
def Heap.Linked {ν : Type} (heap : Heap ν) (left right : ν) : Prop :=
  heap.next left = right ∧ heap.prev right = left

instance {ν : Type} [DecidableEq ν] (heap : Heap ν) (left right : ν) : Decidable (heap.Linked left right) :=
  inferInstanceAs (Decidable (_ ∧ _))

def Heap.SelfLinked {ν : Type} (heap : Heap ν) (node : ν) : Prop :=
  heap.Linked node node

/-- `node` is met when the successors of `head` are followed. -/
def Heap.Follows {ν : Type} (heap : Heap ν) (head node : ν) : Prop :=
  ∃ steps, heap.next^[steps + 1] head = node ∧ node ≠ head

/-- The nodes `items`, read forward from `head`, form one closed ring. -/
structure Ring {ν : Type} (heap : Heap ν) (head : ν) (items : List ν) : Prop where
  distinct : (head :: items).Nodup
  linked : (head :: items ++ [head]).IsChain heap.Linked

variable {ν : Type} {heap heap' : Heap ν} {head node : ν} {items before after : List ν}

/-! ### Reading a ring -/

private theorem chain_restrict {R S : ν → ν → Prop} {nodes : List ν}
    (chain : nodes.IsChain R)
    (step : ∀ left ∈ nodes.dropLast, ∀ right ∈ nodes.tail, R left right → S left right) :
    nodes.IsChain S := by
  induction nodes with
  | nil => exact List.isChain_nil
  | cons first rest ih =>
    cases rest with
    | nil => exact List.isChain_singleton first
    | cons second tail =>
      obtain ⟨link, linked⟩ := List.isChain_cons_cons.mp chain
      refine List.isChain_cons_cons.mpr ⟨?_, ?_⟩
      · exact step first (by simp) second (by simp) link
      · apply ih linked
        intro left leftMember right rightMember
        apply step
        · simp only [List.dropLast_cons_cons, List.mem_cons]
          exact Or.inr leftMember
        · simp only [List.tail_cons] at rightMember ⊢
          exact List.mem_cons_of_mem second rightMember

theorem Ring.head_not_mem (ring : Ring heap head items) : head ∉ items :=
  (List.nodup_cons.mp ring.distinct).1

theorem Ring.nodup (ring : Ring heap head items) : items.Nodup :=
  (List.nodup_cons.mp ring.distinct).2

theorem Ring.nil_iff_selfLinked : Ring heap head [] ↔ heap.SelfLinked head := by
  constructor
  · intro ring
    exact List.isChain_pair.mp ring.linked
  · intro link
    exact ⟨List.nodup_singleton head, List.isChain_pair.mpr link⟩

private theorem gap_append {lead trail : List ν} {left right : ν}
    (leadEq : head :: before = lead ++ [left]) (trailEq : after ++ [head] = right :: trail) :
    head :: (before ++ after) ++ [head] = lead ++ left :: right :: trail := by
  calc
    head :: (before ++ after) ++ [head] = (head :: before) ++ (after ++ [head]) := by simp
    _ = (lead ++ [left]) ++ (right :: trail) := by rw [leadEq, trailEq]
    _ = lead ++ left :: right :: trail := by simp

theorem Ring.cut (ring : Ring heap head (before ++ after)) :
    ∃ lead left right trail,
      head :: before = lead ++ [left] ∧ after ++ [head] = right :: trail ∧
      (lead ++ [left]).IsChain heap.Linked ∧ heap.Linked left right ∧
      (right :: trail).IsChain heap.Linked := by
  obtain ⟨lead, left, leadEq⟩ := (List.eq_nil_or_concat' (head :: before)).resolve_left
    (List.cons_ne_nil head before)
  cases trailEq : after ++ [head] with
  | nil => simp at trailEq
  | cons right trail =>
    have chain := ring.linked
    rw [gap_append leadEq trailEq, List.isChain_append_cons_cons] at chain
    exact ⟨lead, left, right, trail, leadEq, rfl, chain⟩

private theorem Ring.of_gap {lead trail : List ν} {left right : ν}
    (distinct : (head :: (before ++ after)).Nodup)
    (leadEq : head :: before = lead ++ [left]) (trailEq : after ++ [head] = right :: trail)
    (leads : (lead ++ [left]).IsChain heap.Linked) (link : heap.Linked left right)
    (trails : (right :: trail).IsChain heap.Linked) :
    Ring heap head (before ++ after) := by
  refine ⟨distinct, ?_⟩
  rw [gap_append leadEq trailEq, List.isChain_append_cons_cons]
  exact ⟨leads, link, trails⟩

theorem Ring.linked_around (ring : Ring heap head (before ++ node :: after)) :
    ∃ left right,
      left ∈ head :: before ∧ right ∈ after ++ [head] ∧
      heap.Linked left node ∧ heap.Linked node right := by
  obtain ⟨lead, left, right, trail, leadEq, trailEq, _, link, trails⟩ := ring.cut
  rw [List.cons_append] at trailEq
  obtain ⟨sameNode, rest⟩ := List.cons.inj trailEq
  subst sameNode
  subst rest
  cases afterEq : after ++ [head] with
  | nil => simp at afterEq
  | cons second others =>
    rw [afterEq] at trails
    refine ⟨left, second, ?_, List.mem_cons_self, link, ?_⟩
    · rw [leadEq]
      exact List.mem_append_right lead List.mem_cons_self
    · exact (List.isChain_cons_cons.mp trails).1

theorem Ring.linked_of_mem (ring : Ring heap head items) (member : node ∈ head :: items) :
    heap.Linked node (heap.next node) ∧ heap.Linked (heap.prev node) node ∧
      heap.next node ∈ head :: items ∧ heap.prev node ∈ head :: items := by
  rcases List.mem_cons.mp member with atHead | inside
  · subst node
    have fromFront : Ring heap head ([] ++ items) := ring
    have fromBack : Ring heap head (items ++ []) := by
      rw [List.append_nil]
      exact ring
    obtain ⟨lead, left, right, trail, leadEq, trailEq, _, link, _⟩ := fromFront.cut
    obtain ⟨lead', left', right', trail', leadEq', trailEq', _, link', _⟩ := fromBack.cut
    have leftHead : left = head := by
      have ends := congrArg List.getLast? leadEq
      simpa using ends.symm
    have rightHead : right' = head := (List.cons.inj trailEq').1.symm
    rw [leftHead] at link
    rw [rightHead] at link'
    refine ⟨?_, ?_, ?_, ?_⟩
    · rw [link.1]
      exact link
    · rw [link'.2]
      exact link'
    · rw [link.1]
      have rightMember : right ∈ items ++ [head] := by
        rw [trailEq]
        exact List.mem_cons_self
      rcases List.mem_append.mp rightMember with inItems | atEnd
      · exact List.mem_cons_of_mem head inItems
      · rw [List.mem_singleton.mp atEnd]
        exact List.mem_cons_self
    · rw [link'.2, leadEq']
      exact List.mem_append_right lead' List.mem_cons_self
  · obtain ⟨before, after, rfl⟩ := List.append_of_mem inside
    obtain ⟨left, right, leftMember, rightMember, leftLink, rightLink⟩ := ring.linked_around
    refine ⟨?_, ?_, ?_, ?_⟩
    · rw [rightLink.1]
      exact rightLink
    · rw [leftLink.2]
      exact leftLink
    · rw [rightLink.1]
      simp only [List.mem_append, List.mem_cons, List.not_mem_nil, or_false] at rightMember ⊢
      tauto
    · rw [leftLink.2]
      simp only [List.mem_append, List.mem_cons] at leftMember ⊢
      tauto

theorem Ring.next_mem (ring : Ring heap head items) (member : node ∈ head :: items) :
    heap.next node ∈ head :: items :=
  (ring.linked_of_mem member).2.2.1

theorem Ring.prev_mem (ring : Ring heap head items) (member : node ∈ head :: items) :
    heap.prev node ∈ head :: items :=
  (ring.linked_of_mem member).2.2.2

theorem Ring.next_head_cons {first : ν} {rest : List ν}
    (ring : Ring heap head (first :: rest)) : heap.next head = first :=
  (List.isChain_cons_cons.mp ring.linked).1.1

theorem Ring.next_head_eq_iff (ring : Ring heap head items) :
    heap.next head = head ↔ items = [] := by
  cases items with
  | nil => simp [(Ring.nil_iff_selfLinked.mp ring).1]
  | cons first rest =>
    rw [ring.next_head_cons]
    simp only [reduceCtorEq, iff_false]
    intro same
    exact ring.head_not_mem (same ▸ List.mem_cons_self)

theorem Ring.items_unique {others : List ν} (ring : Ring heap head items)
    (other : Ring heap head others) : items = others := by
  have walk : ∀ (start : ν) (left right : List ν),
      (start :: left ++ [head]).IsChain heap.Linked →
      (start :: right ++ [head]).IsChain heap.Linked →
      head ∉ left → head ∉ right → left = right := by
    intro start left
    induction left generalizing start with
    | nil =>
      intro right leftChain rightChain _ headRight
      cases right with
      | nil => rfl
      | cons first rest =>
        have one := (List.isChain_cons_cons.mp leftChain).1.1
        have two := (List.isChain_cons_cons.mp rightChain).1.1
        rw [one] at two
        exact False.elim (headRight (two ▸ List.mem_cons_self))
    | cons first rest ih =>
      intro right leftChain rightChain headLeft headRight
      cases right with
      | nil =>
        have one := (List.isChain_cons_cons.mp leftChain).1.1
        have two := (List.isChain_cons_cons.mp rightChain).1.1
        rw [one] at two
        exact False.elim (headLeft (two ▸ List.mem_cons_self))
      | cons second others =>
        obtain ⟨⟨one, _⟩, restChain⟩ := List.isChain_cons_cons.mp leftChain
        obtain ⟨⟨two, _⟩, othersChain⟩ := List.isChain_cons_cons.mp rightChain
        have same : first = second := one.symm.trans two
        subst same
        rw [ih first others restChain othersChain
          (fun member => headLeft (List.mem_cons_of_mem first member))
          (fun member => headRight (List.mem_cons_of_mem first member))]
  exact walk head items others ring.linked other.linked ring.head_not_mem other.head_not_mem

theorem Ring.follows_iff (ring : Ring heap head items) :
    heap.Follows head node ↔ node ∈ items := by
  constructor
  · rintro ⟨steps, reached, differs⟩
    have inside : ∀ count, heap.next^[count] head ∈ head :: items := by
      intro count
      induction count with
      | zero => exact List.mem_cons_self
      | succ count ih =>
        rw [Function.iterate_succ_apply']
        exact ring.next_mem ih
    have member := inside (steps + 1)
    rw [reached] at member
    exact (List.mem_cons.mp member).resolve_left differs
  · intro member
    have walk : ∀ (start : ν) (nodes : List ν),
        (start :: nodes ++ [head]).IsChain heap.Linked → node ∈ nodes →
        ∃ steps, heap.next^[steps + 1] start = node := by
      intro start nodes
      induction nodes generalizing start with
      | nil => intro _ absent; cases absent
      | cons first rest ih =>
        intro chain present
        obtain ⟨⟨one, _⟩, restChain⟩ := List.isChain_cons_cons.mp chain
        rcases List.mem_cons.mp present with here | later
        · exact ⟨0, by rw [here]; exact one⟩
        · obtain ⟨steps, reached⟩ := ih first restChain later
          refine ⟨steps + 1, ?_⟩
          rw [Function.iterate_succ_apply, one]
          exact reached
    obtain ⟨steps, reached⟩ := walk head items ring.linked member
    refine ⟨steps, reached, ?_⟩
    rintro rfl
    exact ring.head_not_mem member

/-! ### Joining two nodes -/

variable [DecidableEq ν]

def Heap.setNext (heap : Heap ν) (node target : ν) : Heap ν :=
  { heap with next := Function.update heap.next node target }

def Heap.setPrev (heap : Heap ν) (node target : ν) : Heap ν :=
  { heap with prev := Function.update heap.prev node target }

/-- Make `right` the successor of `left` and `left` the predecessor of `right`. -/
def Heap.join (heap : Heap ν) (left right : ν) : Heap ν :=
  (heap.setPrev right left).setNext left right

@[simp] theorem Heap.join_next (heap : Heap ν) (left right node : ν) :
    (heap.join left right).next node = if node = left then right else heap.next node := by
  simp [Heap.join, Heap.setNext, Heap.setPrev, Function.update_apply]

@[simp] theorem Heap.join_prev (heap : Heap ν) (left right node : ν) :
    (heap.join left right).prev node = if node = right then left else heap.prev node := by
  simp [Heap.join, Heap.setNext, Heap.setPrev, Function.update_apply]

theorem Heap.join_linked (heap : Heap ν) (left right : ν) :
    (heap.join left right).Linked left right := by
  simp [Heap.Linked]

omit [DecidableEq ν] in
theorem Ring.congr (ring : Ring heap head items)
    (same : ∀ member ∈ head :: items,
      heap'.next member = heap.next member ∧ heap'.prev member = heap.prev member) :
    Ring heap' head items := by
  refine ⟨ring.distinct, ring.linked.imp_of_mem_imp ?_⟩
  have inside : ∀ member, member ∈ head :: items ++ [head] → member ∈ head :: items := by
    intro member present
    simp only [List.cons_append, List.mem_cons, List.mem_append, List.not_mem_nil,
      or_false] at present ⊢
    tauto
  intro left right leftMember rightMember link
  exact ⟨(same left (inside left leftMember)).1.trans link.1,
    (same right (inside right rightMember)).2.trans link.2⟩

private theorem chain_join {nodes : List ν} {left right : ν}
    (chain : nodes.IsChain heap.Linked)
    (leftOutside : left ∉ nodes.dropLast) (rightOutside : right ∉ nodes.tail) :
    nodes.IsChain (heap.join left right).Linked := by
  apply chain_restrict chain
  intro first firstMember second secondMember link
  constructor
  · rw [Heap.join_next, if_neg]
    · exact link.1
    · rintro rfl
      exact leftOutside firstMember
  · rw [Heap.join_prev, if_neg]
    · exact link.2
    · rintro rfl
      exact rightOutside secondMember

omit [DecidableEq ν] in
private theorem apart_of_cut {lead trail : List ν} {left right : ν}
    (distinct : (head :: (before ++ after)).Nodup) (leadEq : head :: before = lead ++ [left])
    (trailEq : after ++ [head] = right :: trail) :
    (left ∉ (lead ++ [left]).dropLast ∧ right ∉ (lead ++ [left]).tail) ∧
      left ∉ (right :: trail).dropLast ∧ right ∉ (right :: trail).tail := by
  have turned : (before ++ (after ++ [head])).Nodup := by
    rw [← List.append_assoc]
    exact (List.perm_append_singleton head (before ++ after)).nodup_iff.mpr distinct
  have leadDistinct : (lead ++ [left]).Nodup := by
    rw [← leadEq]
    exact distinct.sublist (List.Sublist.cons_cons head (List.sublist_append_left before after))
  have trailDistinct : (right :: trail).Nodup := by
    rw [← trailEq]
    exact (List.nodup_append.mp turned).2.1
  have leftMember : left ∈ head :: before := by
    rw [leadEq]
    exact List.mem_append_right lead List.mem_cons_self
  have rightMember : right ∈ after ++ [head] := by
    rw [trailEq]
    exact List.mem_cons_self
  refine ⟨⟨?_, ?_⟩, ?_, ?_⟩
  · rw [List.dropLast_concat]
    intro member
    exact (List.nodup_append.mp leadDistinct).2.2 left member left List.mem_cons_self rfl
  · rw [← leadEq, List.tail_cons]
    intro member
    exact (List.nodup_append.mp turned).2.2 right member right rightMember rfl
  · rw [← trailEq, List.dropLast_concat]
    intro member
    rw [← List.cons_append] at distinct
    exact (List.nodup_append.mp distinct).2.2 left leftMember left member rfl
  · exact (List.nodup_cons.mp trailDistinct).1

theorem Ring.remove (ring : Ring heap head (before ++ node :: after)) :
    Ring (heap.join (heap.prev node) (heap.next node)) head (before ++ after) := by
  obtain ⟨lead, left, right, trail, leadEq, trailEq, leads, link, trails⟩ := ring.cut
  rw [List.cons_append] at trailEq
  obtain ⟨sameNode, restEq⟩ := List.cons.inj trailEq
  subst sameNode
  cases afterEq : after ++ [head] with
  | nil => simp at afterEq
  | cons second others =>
    rw [← restEq, afterEq] at trails
    obtain ⟨onward, rest⟩ := List.isChain_cons_cons.mp trails
    have distinct := ring.distinct
    have shorter : (head :: (before ++ after)).Nodup := by
      refine distinct.sublist (List.Sublist.cons_cons head ?_)
      exact List.Sublist.append (List.Sublist.refl before) (List.sublist_cons_self node after)
    obtain ⟨⟨leftLead, rightLead⟩, leftTrail, rightTrail⟩ := apart_of_cut shorter leadEq afterEq
    rw [link.2, onward.1]
    exact Ring.of_gap shorter leadEq afterEq (chain_join leads leftLead rightLead)
      (Heap.join_linked heap left second) (chain_join rest leftTrail rightTrail)

theorem Ring.insert {left right : ν} (ring : Ring heap head (before ++ after))
    (foreign : node ∉ head :: (before ++ after))
    (leftEq : (head :: before).getLast? = some left)
    (rightEq : (after ++ [head]).head? = some right) :
    Ring ((heap.join node right).join left node) head (before ++ node :: after) := by
  obtain ⟨lead, left', right', trail, leadEq, trailEq, leads, _, trails⟩ := ring.cut
  have sameLeft : left' = left := by
    rw [leadEq] at leftEq
    simpa using leftEq
  have sameRight : right' = right := by
    rw [trailEq] at rightEq
    simpa using rightEq
  subst sameLeft sameRight
  have distinct := ring.distinct
  obtain ⟨⟨leftLead, rightLead⟩, leftTrail, rightTrail⟩ := apart_of_cut distinct leadEq trailEq
  have outside : ∀ member, member ∈ head :: before ∨ member ∈ after ++ [head] →
      node ≠ member := by
    rintro member present rfl
    apply foreign
    simp only [List.mem_cons, List.mem_append, List.not_mem_nil, or_false] at present ⊢
    tauto
  have nodeLead : node ∉ lead ++ [left'] := by
    rw [← leadEq]
    exact fun member => outside node (Or.inl member) rfl
  have nodeTrail : node ∉ right' :: trail := by
    rw [← trailEq]
    exact fun member => outside node (Or.inr member) rfl
  have longer : (head :: (before ++ node :: after)).Nodup := by
    have moved : List.Perm (head :: (before ++ node :: after))
        (node :: head :: (before ++ after)) :=
      (List.Perm.cons head List.perm_middle).trans (List.Perm.swap node head (before ++ after))
    exact moved.nodup_iff.mpr (List.nodup_cons.mpr ⟨foreign, distinct⟩)
  refine Ring.of_gap longer leadEq (by rw [List.cons_append, trailEq]) ?_
    (Heap.join_linked _ left' node) ?_
  · have led := chain_join leads (fun member => nodeLead (List.dropLast_subset _ member)) rightLead
    exact chain_join led leftLead fun member => nodeLead (List.mem_of_mem_tail member)
  · have trailed := chain_join trails (fun member => nodeTrail (List.dropLast_subset _ member)) rightTrail
    have onward : (node :: right' :: trail).IsChain (heap.join node right').Linked :=
      List.isChain_cons_cons.mpr ⟨Heap.join_linked heap node right', trailed⟩
    apply chain_join onward
    · rw [List.dropLast_cons_cons, List.mem_cons, not_or]
      refine ⟨?_, leftTrail⟩
      rintro rfl
      exact nodeLead (List.mem_append_right lead List.mem_cons_self)
    · exact nodeTrail

end PointerRing
