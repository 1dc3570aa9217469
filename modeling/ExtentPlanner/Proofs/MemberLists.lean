import ExtentPlanner.Proofs.ExtentMembers

/-! An extent set says nothing but which extents are its members. Every question about the word of a
set, whether it is asked by shifting, masking or counting one bits, has the answer that the ascending
list of the members gives, and two words with the same list are the same. This is so for every word
of 64 bits and for every extent number, also for those that no set can have. -/
namespace ExtentPlanner.ExtentSet

variable {set first second left : ExtentSet} {extents : List Nat} {extent : Nat}

/-! ## The list of members -/

theorem mem_toList_iff : extent ∈ set.toList ↔ set.includes extent = true := by
  rw [toList, List.mem_filter, List.mem_range]
  exact and_iff_right_of_imp lt_of_includes

theorem toList_ascending (set : ExtentSet) : set.toList.Pairwise (· < ·) :=
  List.pairwise_lt_range.filter _

/-- Sets with the same list of members have the same word. -/
theorem toList_injective (same : first.toList = second.toList) : first = second :=
  eq_of_includes fun extent => by
    rw [Bool.eq_iff_iff, ← mem_toList_iff, ← mem_toList_iff, same]

theorem toList_eq_nil_iff : set.toList = [] ↔ set.isEmpty = true := by
  rw [List.eq_nil_iff_forall_not_mem, ← Bool.not_eq_false, isEmpty_eq_false_iff]
  simp only [mem_toList_iff, not_exists]

/-! ## Counting one bits -/

/-- Counting the one bits of the lowest places one after the other counts the places that have
one. -/
theorem cpopNatRec_eq_length (word : BitVec width) (places : Nat) :
    word.cpopNatRec places 0 = ((List.range places).filter word.getLsbD).length := by
  induction places with
  | zero => rfl
  | succ places ih =>
    rw [BitVec.cpopNatRec_succ, BitVec.cpopNatRec_add, ih, List.range_succ, List.filter_append,
      List.length_append]
    cases bit : word.getLsbD places <;> simp [bit]

theorem includes_eq_getLsbD (set : ExtentSet) : set.includes = set.word.toBitVec.getLsbD :=
  funext fun extent => (testBit_eq_includes set extent).symm

theorem size_eq_length (set : ExtentSet) : set.size = set.toList.length := by
  rw [size, BitVec.toNat_cpop, cpopNatRec_eq_length, ← includes_eq_getLsbD]
  rfl

/-! ## Adding in place -/

/-- Adding fails exactly for a number that no set can have, and then leaves the set as it is. -/
theorem addInPlace_error_iff {failure : PlanError} :
    set.addInPlace extent = (left, .error failure) ↔
      maxExtents ≤ extent ∧ left = set ∧ failure = .internal (.extentOutOfRange extent) := by
  rw [addInPlace]
  split
  · rename_i small
    simp [Nat.not_le_of_lt small]
  · rename_i large
    simp [Nat.le_of_not_lt large, eq_comm]

/-- Adding succeeds for all other numbers, and makes the number a member. -/
theorem addInPlace_ok_iff :
    set.addInPlace extent = (left, .ok ()) ↔ extent < maxExtents ∧
      ∀ other, other ∈ left.toList ↔ other ∈ set.toList ∨ other = extent := by
  by_cases small : extent < maxExtents
  · have ran : set.addInPlace extent = (set.insert extent, .ok ()) := by
      rw [addInPlace, if_pos small]
    rw [ran, Prod.mk.injEq, and_iff_left rfl, and_iff_right small]
    simp only [mem_toList_iff, ← includes_insert set small]
    constructor
    · rintro rfl _
      exact Iff.rfl
    · exact fun same => eq_of_includes fun other => Bool.eq_iff_iff.mpr (same other).symm
  · simp [addInPlace, small]

/-! ## Sets as lists of members -/

/-- The set that a list of extents makes has them as its members, each of them once. -/
structure MadeOf (set : ExtentSet) (extents : List Nat) : Prop where
  ascending : set.toList.Pairwise (· < ·)
  mem_iff : ∀ extent, extent ∈ set.toList ↔ extent ∈ extents
  size : set.size = set.toList.length

/-- What two sets tell is what the lists of their members tell. -/
structure ReadsMembers (first second : ExtentSet) : Prop where
  ascending : first.toList.Pairwise (· < ·)
  size : first.size = first.toList.length
  includes_iff : ∀ extent, first.includes extent = true ↔ extent ∈ first.toList
  union_iff : ∀ extent, extent ∈ (first.union second).toList ↔
    extent ∈ first.toList ∨ extent ∈ second.toList
  intersects_iff : first.intersects second = true ↔
    ∃ extent ∈ first.toList, extent ∈ second.toList
  isSubset_iff : first.isSubset second = true ↔ first.toList ⊆ second.toList
  isEmpty_iff : first.isEmpty = true ↔ first.toList = []
  word_eq_iff : first.word = second.word ↔ first.toList = second.toList

theorem madeOf_of_ofList (ran : ofList extents = .ok set) : MadeOf set extents where
  ascending := set.toList_ascending
  mem_iff extent := mem_toList_iff.trans ((ofList_members ran).2 extent)
  size := set.size_eq_length

theorem readsMembers (first second : ExtentSet) : ReadsMembers first second where
  ascending := first.toList_ascending
  size := first.size_eq_length
  includes_iff _ := mem_toList_iff.symm
  union_iff extent := by
    simp only [mem_toList_iff, includes_union, Bool.or_eq_true]
  intersects_iff := by
    rw [intersects_iff]
    simp only [mem_toList_iff]
  isSubset_iff := by
    rw [isSubset_iff, List.subset_def]
    simp only [mem_toList_iff]
  isEmpty_iff := toList_eq_nil_iff.symm
  word_eq_iff := by
    refine ⟨fun same => ?_, fun same => congrArg word (toList_injective same)⟩
    rw [show first = second from congrArg mk same]

/-- Extent sets are the finite sets of numbers below 64. A list of extents makes a set exactly if all
of them are below 64, and the set lists them in ascending order without repeats and counts them. Of
any two words, whatever is asked of them is answered as by the lists of their members, for every
number; and adding a number that no set can have fails and leaves the set as it is, while adding any
other makes it a member. -/
theorem finite_sets_of_extents (extents : List Nat) (first second left : ExtentSet) (extent : Nat) :
    ((∃ set, ofList extents = .ok set) ↔ ∀ extent ∈ extents, extent < maxExtents) ∧
    (∀ set, ofList extents = .ok set → MadeOf set extents) ∧
    ReadsMembers first second ∧
    (∀ failure, first.addInPlace extent = (left, .error failure) ↔
      maxExtents ≤ extent ∧ left = first ∧ failure = .internal (.extentOutOfRange extent)) ∧
    (first.addInPlace extent = (left, .ok ()) ↔ extent < maxExtents ∧
      ∀ other, other ∈ left.toList ↔ other ∈ first.toList ∨ other = extent) :=
  ⟨(ofList_succeedsIff extents).exists_iff, fun _ ran => madeOf_of_ofList ran,
    readsMembers first second, fun _ => addInPlace_error_iff, addInPlace_ok_iff⟩

/-- Extents in no order, the least of them twice and the greatest that there can be. -/
def scattered : List Nat := [40, 3, 63, 3]

/-- The set that they make lists three members, is not changed by a failure to add a fourth, and
shares members with the set of all extents, which has 64. -/
theorem finite_sets_of_extents_scattered :
    ∃ set, ofList scattered = .ok set ∧ MadeOf set scattered ∧ set.toList = [3, 40, 63] ∧
      set.size = 3 ∧ ReadsMembers set ⟨0xffffffffffffffff⟩ ∧
      (set.addInPlace 64).1 = set ∧ (⟨0xffffffffffffffff⟩ : ExtentSet).size = 64 ∧
      ¬∃ wider, ofList (64 :: scattered) = .ok wider := by
  let set : ExtentSet := ⟨0x8000010000000008⟩
  have ran : ofList scattered = .ok set := by decide
  obtain ⟨_, made, reads, refused, _⟩ :=
    finite_sets_of_extents scattered set ⟨0xffffffffffffffff⟩ set 64
  have unchanged := (refused _).mpr ⟨Nat.le_refl 64, rfl, rfl⟩
  refine ⟨set, ran, made set ran, by decide, by decide, reads, congrArg Prod.fst unchanged,
    by decide, ?_⟩
  rw [(finite_sets_of_extents (64 :: scattered) set set set 64).1]
  decide

end ExtentPlanner.ExtentSet
