import ExtentPlanner.ExtentSet
import ExtentPlanner.Proofs.Success
import Mathlib.Algebra.Group.Nat.Defs
import Mathlib.Data.List.Nodup
import Mathlib.Data.Nat.Bitwise

/-! Extent sets by their members. The operations on words are the operations on sets of numbers
below 64, and the position at which an order binds a set is that of the last extent of the order
that is a member. -/
namespace ExtentPlanner

namespace ExtentSet

/-! ## Members -/

private theorem testBit_ge (set : ExtentSet) (large : maxExtents ≤ extent) :
    set.toNat.testBit extent = false :=
  Nat.testBit_lt_two_pow (Nat.lt_of_lt_of_le set.word.toNat_lt
    (Nat.pow_le_pow_right (by decide) large))

private theorem toNat_bit (small : extent < maxExtents) :
    ((1 : UInt64) <<< UInt64.ofNat extent).toNat = 2 ^ extent := by
  have bound : extent < 64 := small
  have power : 2 ^ extent < 2 ^ 64 := Nat.pow_lt_pow_right (by decide) bound
  rw [UInt64.toNat_shiftLeft, UInt64.toNat_ofNat', UInt64.toNat_one,
    Nat.mod_eq_of_lt (by omega : extent < 2 ^ 64), Nat.mod_eq_of_lt bound, Nat.one_shiftLeft,
    Nat.mod_eq_of_lt power]

theorem testBit_eq_includes (set : ExtentSet) (extent : Nat) :
    set.toNat.testBit extent = set.includes extent := by
  by_cases small : extent < maxExtents
  · have masked : (set.word &&& 1 <<< UInt64.ofNat extent).toNat =
        (set.toNat.testBit extent).toNat * 2 ^ extent := by
      rw [UInt64.toNat_and, toNat_bit small, Nat.and_two_pow, toNat]
    rw [includes, decide_eq_true small, Bool.true_and, Bool.eq_iff_iff, bne_iff_ne, ne_eq,
      ← UInt64.toNat_inj, masked]
    cases set.toNat.testBit extent <;> simp
  · simp [includes, small, testBit_ge set (Nat.le_of_not_lt small)]

@[simp] theorem includes_empty (extent : Nat) : empty.includes extent = false := by
  rw [← testBit_eq_includes]
  exact Nat.zero_testBit extent

@[simp] theorem includes_union (first second : ExtentSet) (extent : Nat) :
    (first.union second).includes extent = (first.includes extent || second.includes extent) := by
  simp only [← testBit_eq_includes, toNat, union, UInt64.toNat_or, Nat.testBit_or]

theorem includes_insert (set : ExtentSet) (small : extent < maxExtents) (other : Nat) :
    (set.insert extent).includes other = true ↔ set.includes other = true ∨ other = extent := by
  rw [← testBit_eq_includes, ← testBit_eq_includes, insert, if_pos small, toNat, toNat,
    UInt64.toNat_or, toNat_bit small, Nat.testBit_or, Bool.or_eq_true, Nat.testBit_two_pow,
    decide_eq_true_eq, eq_comm (a := extent)]

theorem lt_of_includes {set : ExtentSet} (member : set.includes extent = true) :
    extent < maxExtents :=
  of_decide_eq_true (Bool.and_eq_true_iff.mp member).1

private theorem testBit_complement (word : UInt64) (extent : Nat) :
    (~~~word).toNat.testBit extent =
      (decide (extent < maxExtents) && !word.toNat.testBit extent) := by
  rw [← UInt64.toNat_toBitVec, UInt64.toBitVec_not, BitVec.testBit_toNat, BitVec.getLsbD_not]
  rfl

/-- A mask with the complement of a set leaves the members that are not in it. -/
theorem isSubset_iff {first second : ExtentSet} : first.isSubset second = true ↔
    ∀ extent, first.includes extent = true → second.includes extent = true := by
  rw [isSubset, beq_iff_eq, ← UInt64.toNat_inj, UInt64.toNat_and, UInt64.toNat_zero]
  constructor
  · intro nothing extent member
    have small := lt_of_includes member
    rw [← testBit_eq_includes, toNat] at member ⊢
    have outside := congrArg (·.testBit extent) nothing
    simpa only [Nat.testBit_and, testBit_complement, member, small, decide_true, Bool.true_and,
      Nat.zero_testBit, Bool.not_eq_false'] using outside
  · intro below
    refine Nat.eq_of_testBit_eq fun extent => ?_
    have member := below extent
    rw [← testBit_eq_includes, ← testBit_eq_includes, toNat, toNat] at member
    rw [Nat.testBit_and, testBit_complement, Nat.zero_testBit]
    cases bit : first.word.toNat.testBit extent with
    | false => rfl
    | true => rw [member bit, Bool.not_true, Bool.and_false, Bool.and_false]

/-- Sets with the same members are the same. -/
theorem eq_of_includes {first second : ExtentSet}
    (same : ∀ extent, first.includes extent = second.includes extent) : first = second := by
  have bits : first.toNat = second.toNat := Nat.eq_of_testBit_eq fun extent => by
    rw [testBit_eq_includes, testBit_eq_includes, same]
  exact congrArg ExtentSet.mk (UInt64.toNat_inj.mp bits)

theorem intersects_iff {first second : ExtentSet} : first.intersects second = true ↔
    ∃ extent, first.includes extent = true ∧ second.includes extent = true := by
  rw [intersects, bne_iff_ne, ne_eq, ← UInt64.toNat_inj, UInt64.toNat_and, UInt64.toNat_zero]
  constructor
  · intro nonzero
    obtain ⟨extent, bit⟩ := Nat.exists_testBit_of_ne_zero nonzero
    rw [Nat.testBit_and, Bool.and_eq_true] at bit
    exact ⟨extent, (testBit_eq_includes ..).symm.trans bit.1,
      (testBit_eq_includes ..).symm.trans bit.2⟩
  · rintro ⟨extent, inFirst, inSecond⟩ zero
    have bit := congrArg (·.testBit extent) zero
    rw [← testBit_eq_includes, toNat] at inFirst inSecond
    simp [Nat.testBit_and, inFirst, inSecond] at bit

theorem isEmpty_eq_false_iff {set : ExtentSet} :
    set.isEmpty = false ↔ ∃ extent, set.includes extent = true := by
  have shared : set.intersects set = !set.isEmpty := by
    rw [intersects, UInt64.and_self]
    rfl
  rw [← Bool.not_eq_true', ← shared, intersects_iff]
  simp only [and_self]

theorem add_eq (set : ExtentSet) (extent : Nat) : set.add extent =
    if extent < maxExtents then .ok (set.insert extent)
    else .error (.internal (.extentOutOfRange extent)) := by
  by_cases small : extent < maxExtents
  · simp only [add, addInPlace, if_pos small, Except.map]
  · simp only [add, addInPlace, if_neg small, Except.map]

private theorem addAll_members {set : ExtentSet} {extents : List Nat}
    (ran : set.addAll extents = .ok whole) :
    (∀ extent ∈ extents, extent < maxExtents) ∧
      ∀ extent, whole.includes extent = true ↔ set.includes extent = true ∨ extent ∈ extents := by
  induction extents generalizing set with
  | nil =>
    cases ran
    simp
  | cons head rest ih =>
    obtain ⟨added, ranHead, ran⟩ := bind_succeeds.mp ran
    rw [add_eq] at ranHead
    split at ranHead
    · rename_i small
      cases ranHead
      obtain ⟨restSmall, members⟩ := ih ran
      refine ⟨List.forall_mem_cons.mpr ⟨small, restSmall⟩, fun extent => ?_⟩
      rw [members, includes_insert set small, List.mem_cons, or_assoc]
    · cases ranHead

/-- A list makes a set only if its numbers are below 64, and these are then the members. -/
theorem ofList_members {set : ExtentSet} {extents : List Nat} (ran : ofList extents = .ok set) :
    (∀ extent ∈ extents, extent < maxExtents) ∧
      ∀ extent, set.includes extent = true ↔ extent ∈ extents := by
  obtain ⟨small, members⟩ := addAll_members ran
  exact ⟨small, fun extent => by simp [members]⟩

private theorem addAll_succeedsIff (set : ExtentSet) (extents : List Nat) :
    SucceedsIff (∀ extent ∈ extents, extent < maxExtents)
      (fun failure => ∃ extent ∈ extents, maxExtents ≤ extent ∧
        failure = .internal (.extentOutOfRange extent)) (set.addAll extents) := by
  induction extents generalizing set with
  | nil => exact fun _ member => absurd member List.not_mem_nil
  | cons head rest ih =>
    rw [addAll, add_eq]
    split
    · rename_i small
      refine (ih (set.insert head)).imp ?_ ?_
      · rw [List.forall_mem_cons, and_iff_right small]
      · rintro failure _ ⟨extent, member, large, rfl⟩
        exact ⟨extent, List.mem_cons_of_mem _ member, large, rfl⟩
    · rename_i large
      exact ⟨fun small => large (small head List.mem_cons_self), head, List.mem_cons_self,
        Nat.le_of_not_lt large, rfl⟩

/-- A list makes a set if its numbers are below 64; else one that is not is the failure. -/
theorem ofList_succeedsIff (extents : List Nat) :
    SucceedsIff (∀ extent ∈ extents, extent < maxExtents)
      (fun failure => ∃ extent ∈ extents, maxExtents ≤ extent ∧
        failure = .internal (.extentOutOfRange extent)) (ofList extents) :=
  addAll_succeedsIff empty extents

theorem ofList_ok {extents : List Nat} (small : ∀ extent ∈ extents, extent < maxExtents) :
    ∃ set, ofList extents = .ok set :=
  (ofList_succeedsIff extents).exists_iff.mpr small

/-- A list makes the set that has its numbers as members, if there is one. -/
theorem ofList_iff {set : ExtentSet} {extents : List Nat} : ofList extents = .ok set ↔
    ∀ extent, set.includes extent = true ↔ extent ∈ extents := by
  constructor
  · exact fun ran => (ofList_members ran).2
  · intro members
    obtain ⟨made, ran⟩ := ofList_ok fun extent member =>
      lt_of_includes ((members extent).mpr member)
    rw [ran, Except.ok.injEq]
    exact eq_of_includes fun extent =>
      Bool.eq_iff_iff.mpr (((ofList_members ran).2 extent).trans (members extent).symm)

/-! ## Where an order binds a set -/

/-- The last extent of an order that is read, or the first extent if none is. -/
def lastRead? (reads order : List Nat) : Option Nat :=
  (order.filter (decide <| · ∈ reads)).getLast?.or order.head?

theorem mem_of_lastRead? (last : lastRead? reads order = some extent) : extent ∈ order := by
  rcases Option.or_eq_some_iff.mp last with read | ⟨_, first⟩
  · exact (List.mem_filter.mp (List.mem_of_getLast? read)).1
  · exact List.mem_of_head? first

/-- If the end of an order is read, the last extent read is there. -/
theorem lastRead?_of_read (front : List Nat) {back : List Nat}
    (read : ∃ extent ∈ reads, extent ∈ back) :
    ∃ extent ∈ back, lastRead? reads (front ++ back) = some extent := by
  obtain ⟨extent, inside, member⟩ := read
  have nonempty : back.filter (decide <| · ∈ reads) ≠ [] :=
    List.ne_nil_of_mem (List.mem_filter.mpr ⟨member, by simpa using inside⟩)
  have found := List.getLast?_eq_some_getLast nonempty
  refine ⟨_, (List.mem_filter.mp (List.mem_of_getLast? found)).1, ?_⟩
  rw [lastRead?, List.filter_append, List.getLast?_append, found, Option.some_or, Option.some_or]

/-- If the end of an order is not read, it does not matter. -/
theorem lastRead?_of_unread {front back : List Nat} (unread : ∀ extent ∈ reads, extent ∉ back)
    (nonempty : front ≠ []) : lastRead? reads (front ++ back) = lastRead? reads front := by
  have noneRead : back.filter (decide <| · ∈ reads) = [] := by
    rw [List.filter_eq_nil_iff]
    exact fun extent member inside => unread extent (by simpa using inside) member
  rw [lastRead?, lastRead?, List.filter_append, noneRead, List.append_nil,
    List.head?_append_of_ne_nil _ nonempty]

/-- The bound position splits the order: up to it every member has been visited, and before it one
was missing, except that the first position is given without regard to this. -/
private theorem boundPositionFrom_split {set visited : ExtentSet} {order : List Nat}
    (small : ∀ extent ∈ order, extent < maxExtents)
    (bound : set.boundPositionFrom visited order = some position) :
    ∃ before extent after, order = before ++ extent :: after ∧ before.length = position ∧
      (∀ member, set.includes member = true →
        visited.includes member = true ∨ member ∈ before ∨ member = extent) ∧
      (before ≠ [] → ∃ member, set.includes member = true ∧
        visited.includes member = false ∧ member ∉ before) := by
  induction order generalizing visited position with
  | nil => cases bound
  | cons head rest ih =>
    obtain ⟨smallHead, smallRest⟩ := List.forall_mem_cons.mp small
    rw [boundPositionFrom] at bound
    split at bound
    · rename_i covers
      cases bound
      refine ⟨[], head, rest, rfl, rfl, fun member inside => ?_,
        fun nonempty => absurd rfl nonempty⟩
      have reached := isSubset_iff.mp covers member inside
      rcases (includes_insert visited smallHead member).mp reached with earlier | here
      · exact .inl earlier
      · exact .inr (.inr here)
    · rename_i misses
      obtain ⟨place, later, rfl⟩ := Option.map_eq_some_iff.mp bound
      obtain ⟨before, extent, after, rfl, rfl, covered, missed⟩ := ih smallRest later
      refine ⟨head :: before, extent, after, rfl, rfl, fun member inside => ?_, fun _ => ?_⟩
      · rcases covered member inside with earlier | inBefore | here
        · rcases (includes_insert visited smallHead member).mp earlier with visitedBefore | atHead
          · exact .inl visitedBefore
          · exact .inr (.inl (atHead ▸ List.mem_cons_self))
        · exact .inr (.inl (List.mem_cons_of_mem _ inBefore))
        · exact .inr (.inr here)
      · have outside : ∃ member, set.includes member = true ∧
            (visited.insert head).includes member = false ∧ member ∉ before := by
          by_cases first : before = []
          · rw [isSubset_iff] at misses
            push Not at misses
            obtain ⟨member, inside, absent⟩ := misses
            exact ⟨member, inside, by simpa using absent, by simp [first]⟩
          · exact missed first
        obtain ⟨member, inside, absent, notBefore⟩ := outside
        rw [← Bool.not_eq_true, includes_insert visited smallHead, not_or] at absent
        refine ⟨member, inside, by simpa using absent.1, ?_⟩
        rw [List.mem_cons, not_or]
        exact ⟨absent.2, notBefore⟩

/-- A set is bound where the last extent of the order that is a member is visited. -/
theorem boundPosition?_some {set : ExtentSet} {reads order : List Nat}
    (members : ∀ extent, set.includes extent = true ↔ extent ∈ reads)
    (small : ∀ extent ∈ order, extent < maxExtents) (distinct : order.Nodup)
    (bound : set.boundPosition? order = some position) :
    (∀ extent ∈ reads, extent ∈ order) ∧ order[position]? = lastRead? reads order := by
  obtain ⟨before, extent, after, rfl, rfl, covered, missed⟩ := boundPositionFrom_split small bound
  have reached : ∀ member ∈ reads, member ∈ before ∨ member = extent := by
    intro member inside
    rcases covered member ((members member).mpr inside) with impossible | reached
    · simp at impossible
    · exact reached
  have noneAfter : after.filter (decide <| · ∈ reads) = [] := by
    rw [List.filter_eq_nil_iff]
    intro member later inside
    obtain ⟨_, tail, apart⟩ := List.nodup_append.mp distinct
    rcases reached member (by simpa using inside) with earlier | here
    · exact apart member earlier member (List.mem_cons_of_mem _ later) rfl
    · exact (List.nodup_cons.mp tail).1 (here ▸ later)
  refine ⟨fun member inside => ?_, ?_⟩
  · rcases reached member inside with earlier | here
    · exact List.mem_append_left _ earlier
    · exact List.mem_append_right _ (here ▸ List.mem_cons_self)
  · rw [lastRead?, List.filter_append, List.filter_cons, noneAfter]
    by_cases first : before = []
    · subst first
      by_cases inside : extent ∈ reads <;> simp [inside]
    · obtain ⟨member, inside, _, notBefore⟩ := missed first
      have here := (reached member ((members member).mp inside)).resolve_left notBefore
      have read : extent ∈ reads := here ▸ (members member).mp inside
      simp [read]

/-- Every member has been visited when the order binds a set. -/
theorem boundPosition?_covers {set : ExtentSet} {order : List Nat}
    (small : ∀ extent ∈ order, extent < maxExtents)
    (bound : set.boundPosition? order = some position) :
    ∀ extent, set.includes extent = true → extent ∈ order.take (position + 1) := by
  obtain ⟨before, last, after, rfl, rfl, covered, _⟩ := boundPositionFrom_split small bound
  intro extent inside
  rw [List.append_cons, List.take_left' (by simp)]
  rcases covered extent inside with impossible | earlier | here
  · simp at impossible
  · exact List.mem_append_left _ earlier
  · exact List.mem_append_right _ (List.mem_singleton.mpr here)

/-- At every position before that at which the order binds a set, some member has not been
visited. -/
theorem boundPosition?_misses {set : ExtentSet} {order : List Nat}
    (small : ∀ extent ∈ order, extent < maxExtents)
    (bound : set.boundPosition? order = some position) (before : earlier < position) :
    ∃ extent, set.includes extent = true ∧ extent ∉ order.take (earlier + 1) := by
  obtain ⟨front, last, after, rfl, rfl, _, missed⟩ := boundPositionFrom_split small bound
  have nonempty : front ≠ [] := List.ne_nil_of_length_pos (Nat.zero_lt_of_lt before)
  obtain ⟨extent, inside, _, absent⟩ := missed nonempty
  refine ⟨extent, inside, fun visited => absent ?_⟩
  rw [List.take_append_of_le_length before] at visited
  exact List.mem_of_mem_take visited

/-- An order binds every set of its extents. -/
theorem boundPosition?_isSome {set : ExtentSet} {order : List Nat}
    (small : ∀ extent ∈ order, extent < maxExtents) (nonempty : order ≠ [])
    (covered : ∀ extent, set.includes extent = true → extent ∈ order) :
    (set.boundPosition? order).isSome := by
  have general : ∀ visited : ExtentSet, (∀ extent, set.includes extent = true →
      visited.includes extent = true ∨ extent ∈ order) →
        (set.boundPositionFrom visited order).isSome := by
    clear covered
    induction order with
    | nil => exact absurd rfl nonempty
    | cons head rest ih =>
      obtain ⟨smallHead, smallRest⟩ := List.forall_mem_cons.mp small
      intro visited covered
      rw [boundPositionFrom]
      split
      · rfl
      · rename_i misses
        rw [Option.isSome_map]
        have further : ∀ extent, set.includes extent = true →
            (visited.insert head).includes extent = true ∨ extent ∈ rest := by
          intro extent inside
          rw [includes_insert visited smallHead, or_assoc, ← List.mem_cons]
          exact covered extent inside
        by_cases last : rest = []
        · refine absurd (isSubset_iff.mpr fun extent inside => ?_) misses
          simpa [last] using further extent inside
        · exact ih smallRest last _ further
  exact general empty fun extent inside => .inr (covered extent inside)

end ExtentSet

end ExtentPlanner
