import ExtentPlanner.Proofs.ExtentMembers
import Mathlib.Data.List.Induction

/-! The keys listed for an extent of an order are the sets that the order binds there. The list has
one set for each mask over the extents visited before; masks of 64 bits are far more than are needed,
since no position is listed that needs more than `maxListedPosition` bits. That two masks give two
sets rests on the extents being distinct, and that no set is missed is shown without masks, by
deciding of one extent after the other whether it is a member. -/
namespace ExtentPlanner.ExtentSet

variable {base set key : ExtentSet} {extents order : List Nat} {mask place extent position : Nat}

/-! ## Masks -/

/-- Whether a word has a one bit at a place. -/
def hasBit (word : UInt64) (place : Nat) : Bool := word &&& 1 <<< UInt64.ofNat place != 0

/-- The base with the extents whose place in the list is a one bit of the mask. -/
def masked (base : ExtentSet) (extents : List Nat) (mask : Nat) : ExtentSet :=
  extents.zipIdx.foldl (fun set (extent, place) =>
    if hasBit (UInt64.ofNat mask) place then set.insert extent else set) base

theorem hasBit_ofNat (few : place < maxExtents) (fits : mask < 2 ^ maxExtents) :
    hasBit (UInt64.ofNat mask) place = mask.testBit place := by
  have included : (ofNat mask).includes place = hasBit (UInt64.ofNat mask) place := by
    rw [includes, decide_eq_true few, Bool.true_and]
    rfl
  rw [← included, ← testBit_eq_includes, ofNat, toNat, UInt64.toNat_ofNat_of_lt' fits]

theorem masked_snoc (base : ExtentSet) (extents : List Nat) (extent mask : Nat) :
    base.masked (extents ++ [extent]) mask =
      if hasBit (UInt64.ofNat mask) extents.length then (base.masked extents mask).insert extent
      else base.masked extents mask := by
  simp [masked, List.zipIdx_append]

/-- Only the bits at places of the list matter. -/
theorem masked_congr {other : Nat} (same : ∀ place < extents.length,
    hasBit (UInt64.ofNat mask) place = hasBit (UInt64.ofNat other) place) :
    base.masked extents mask = base.masked extents other := by
  induction extents using List.reverseRecOn with
  | nil => rfl
  | append_singleton extents extent ih =>
    rw [List.length_append, List.length_singleton] at same
    have earlier := ih fun place before => same place (Nat.lt_succ_of_lt before)
    rw [masked_snoc, masked_snoc, same _ (Nat.lt_succ_self _), earlier]

/-- The sets with a subset of the extents added are those of all masks, in the order of the
masks. -/
theorem withSubsets_eq_masked (base : ExtentSet) (few : extents.length ≤ maxExtents) :
    base.withSubsets extents = (List.range (2 ^ extents.length)).map (base.masked extents) := by
  induction extents using List.reverseRecOn with
  | nil => rfl
  | append_singleton extents extent ih =>
    rw [List.length_append, List.length_singleton] at few ⊢
    have fits : 2 ^ (extents.length + 1) ≤ 2 ^ maxExtents := Nat.pow_le_pow_right (by decide) few
    have double : 2 ^ (extents.length + 1) = 2 ^ extents.length + 2 ^ extents.length := by
      rw [Nat.pow_succ, Nat.mul_two]
    have low : ∀ mask ∈ List.range (2 ^ extents.length),
        base.masked (extents ++ [extent]) mask = base.masked extents mask := by
      intro mask listed
      have below := List.mem_range.mp listed
      rw [masked_snoc, hasBit_ofNat (by omega) (by omega), Nat.testBit_lt_two_pow below]
      rfl
    have high : ∀ mask ∈ List.range (2 ^ extents.length),
        base.masked (extents ++ [extent]) (2 ^ extents.length + mask) =
          (base.masked extents mask).insert extent := by
      intro mask listed
      have below := List.mem_range.mp listed
      rw [masked_snoc, hasBit_ofNat (by omega) (by omega), Nat.testBit_two_pow_add_eq,
        Nat.testBit_lt_two_pow below, Bool.not_false, if_pos rfl]
      congr 1
      apply masked_congr
      intro place before
      rw [hasBit_ofNat (by omega) (by omega), hasBit_ofNat (by omega) (by omega),
        Nat.testBit_two_pow_add_gt before]
    rw [withSubsets, List.foldl_append, List.foldl_cons, List.foldl_nil, ← withSubsets,
      ih (by omega), double, List.range_add, List.map_append, List.map_map, List.map_map,
      List.map_congr_left low]
    congr 1
    exact (List.map_congr_left high).symm

/-- What is added are the extents at places where the mask has a one bit. -/
theorem includes_masked (small : ∀ extent ∈ extents, extent < maxExtents) :
    (base.masked extents mask).includes extent = true ↔ base.includes extent = true ∨
      ∃ place, extents[place]? = some extent ∧ hasBit (UInt64.ofNat mask) place = true := by
  have general : ∀ (placed : List (Nat × Nat)) (base : ExtentSet),
      (∀ entry ∈ placed, entry.1 < maxExtents) →
        ((placed.foldl (fun set (extent, place) =>
          if hasBit (UInt64.ofNat mask) place then set.insert extent else set) base).includes extent =
            true ↔ base.includes extent = true ∨
              ∃ place, (extent, place) ∈ placed ∧ hasBit (UInt64.ofNat mask) place = true) := by
    intro placed
    induction placed with
    | nil => simp
    | cons entry rest ih =>
      intro base small
      obtain ⟨other, place⟩ := entry
      obtain ⟨smallHead, smallRest⟩ := List.forall_mem_cons.mp small
      rw [List.foldl_cons, ih _ smallRest]
      dsimp only
      split
      · rename_i bit
        rw [includes_insert _ smallHead]
        simp [or_and_right, exists_or, bit, or_assoc]
      · rename_i noBit
        simp [or_and_right, exists_or, noBit]
  have listed : ∀ entry ∈ extents.zipIdx, entry.1 < maxExtents := fun entry member =>
    small _ (List.fst_mem_of_mem_zipIdx member)
  rw [masked, general _ _ listed]
  simp only [List.mem_zipIdx_iff_getElem?]

/-- Different masks over distinct new extents give different sets. -/
theorem masked_injective (few : extents.length ≤ maxExtents) (distinct : extents.Nodup)
    (small : ∀ extent ∈ extents, extent < maxExtents)
    (fresh : ∀ extent ∈ extents, base.includes extent = false)
    (first : mask < 2 ^ extents.length) (second : other < 2 ^ extents.length)
    (same : base.masked extents mask = base.masked extents other) : mask = other := by
  have fits : 2 ^ extents.length ≤ 2 ^ maxExtents := Nat.pow_le_pow_right (by decide) few
  refine Nat.eq_of_testBit_eq fun place => ?_
  by_cases inside : place < extents.length
  · have bit_iff : ∀ {mask}, mask < 2 ^ extents.length →
        (mask.testBit place = true ↔ (base.masked extents mask).includes extents[place] = true) := by
      intro mask below
      rw [includes_masked small, fresh _ (List.getElem_mem inside),
        ← hasBit_ofNat (by omega) (by omega : mask < 2 ^ maxExtents)]
      constructor
      · exact fun bit => .inr ⟨place, List.getElem?_eq_getElem inside, bit⟩
      · rintro (impossible | ⟨elsewhere, here, bit⟩)
        · cases impossible
        · rw [List.getElem?_eq_some_iff] at here
          obtain ⟨within, here⟩ := here
          rwa [distinct.getElem_inj_iff.mp here] at bit
    rw [Bool.eq_iff_iff, bit_iff first, bit_iff second, same]
  · have wide : 2 ^ extents.length ≤ 2 ^ place :=
      Nat.pow_le_pow_right (by decide) (Nat.le_of_not_lt inside)
    rw [Nat.testBit_lt_two_pow (by omega), Nat.testBit_lt_two_pow (by omega)]

/-! ## Subsets -/

private theorem mem_foldl_subsets {sets : List ExtentSet} :
    set ∈ extents.foldl (fun sets extent => sets ++ sets.map (·.insert extent)) sets ↔
      ∃ base ∈ sets, set ∈ base.withSubsets extents := by
  induction extents generalizing sets with
  | nil => simp [withSubsets]
  | cons extent rest ih =>
    have decided : ∀ base : ExtentSet, set ∈ base.withSubsets (extent :: rest) ↔
        set ∈ base.withSubsets rest ∨ set ∈ (base.insert extent).withSubsets rest := by
      intro base
      rw [withSubsets, List.foldl_cons, ih]
      simp
    rw [List.foldl_cons, ih]
    simp only [decided, List.mem_append, List.mem_map, or_and_right, and_or_left, exists_or]
    refine or_congr Iff.rfl ?_
    constructor
    · rintro ⟨_, ⟨base, listed, rfl⟩, member⟩
      exact ⟨base, listed, member⟩
    · rintro ⟨base, listed, member⟩
      exact ⟨_, ⟨base, listed, rfl⟩, member⟩

/-- The first extent is added or it is not. -/
theorem mem_withSubsets_cons : set ∈ base.withSubsets (extent :: extents) ↔
    set ∈ base.withSubsets extents ∨ set ∈ (base.insert extent).withSubsets extents := by
  rw [withSubsets, List.foldl_cons, mem_foldl_subsets]
  simp

/-- The sets with a subset of the extents added are those between the base and the base with all
extents. -/
theorem mem_withSubsets_iff (small : ∀ extent ∈ extents, extent < maxExtents) :
    set ∈ base.withSubsets extents ↔
      (∀ extent, base.includes extent = true → set.includes extent = true) ∧
        ∀ extent, set.includes extent = true → base.includes extent = true ∨ extent ∈ extents := by
  induction extents generalizing base with
  | nil =>
    simp only [withSubsets, List.foldl_nil, List.mem_singleton, List.not_mem_nil, or_false]
    constructor
    · rintro rfl
      exact ⟨fun _ => id, fun _ => id⟩
    · rintro ⟨above, below⟩
      exact eq_of_includes fun extent => Bool.eq_iff_iff.mpr ⟨below extent, above extent⟩
  | cons head rest ih =>
    obtain ⟨smallHead, smallRest⟩ := List.forall_mem_cons.mp small
    rw [mem_withSubsets_cons, ih smallRest, ih smallRest]
    simp only [includes_insert base smallHead, List.mem_cons]
    constructor
    · rintro (⟨above, below⟩ | ⟨above, below⟩)
      · exact ⟨above, fun extent member => (below extent member).imp_right .inr⟩
      · exact ⟨fun extent member => above extent (.inl member),
          fun extent member => or_assoc.mp (below extent member)⟩
    · rintro ⟨above, below⟩
      by_cases inside : set.includes head = true
      · refine .inr ⟨?_, fun extent member => or_assoc.mpr (below extent member)⟩
        rintro extent (member | rfl)
        · exact above extent member
        · exact inside
      · refine .inl ⟨above, fun extent member => (below extent member).imp_right fun listed => ?_⟩
        exact listed.resolve_left fun same => inside (same ▸ member)

/-! ## Bound keys -/

private theorem take_through (here : order[position]? = some extent) :
    order.take (position + 1) = order.take position ++ [extent] := by
  rw [List.take_add_one, here, Option.toList_some]

private theorem nodup_take_through (distinct : order.Nodup)
    (here : order[position]? = some extent) :
    extent ∉ order.take position ∧ (order.take position).Nodup := by
  have front := distinct.sublist (List.take_sublist (position + 1) order)
  rwa [take_through here, List.nodup_append_comm, List.singleton_append, List.nodup_cons] at front

/-- A set with a member is bound at a position if all its members have been visited there and the
extent at the position is one of them. -/
theorem boundPosition?_eq_some_iff (small : ∀ extent ∈ order, extent < maxExtents)
    (distinct : order.Nodup) (here : order[position]? = some extent)
    (nonempty : key.isEmpty = false) :
    key.boundPosition? order = some position ↔ key.includes extent = true ∧
      ∀ member, key.includes member = true → member ∈ order.take (position + 1) := by
  have unvisited := (nodup_take_through distinct here).1
  constructor
  · intro bound
    have covers := boundPosition?_covers small bound
    have new : ∃ member, key.includes member = true ∧ member ∉ order.take position := by
      cases position with
      | zero =>
        obtain ⟨member, inside⟩ := isEmpty_eq_false_iff.mp nonempty
        exact ⟨member, inside, List.not_mem_nil⟩
      | succ earlier => exact boundPosition?_misses small bound (Nat.lt_succ_self earlier)
    obtain ⟨member, inside, absent⟩ := new
    have reached := covers member inside
    rw [take_through here, List.mem_append, or_iff_right absent, List.mem_singleton] at reached
    exact ⟨reached ▸ inside, covers⟩
  · rintro ⟨inside, covers⟩
    obtain ⟨place, bound⟩ := Option.isSome_iff_exists.mp (boundPosition?_isSome small
      (List.ne_nil_of_mem (List.mem_of_getElem? here))
      fun member inside => List.mem_of_mem_take (covers member inside))
    rw [bound]
    rcases Nat.lt_trichotomy place position with before | same | after
    · have reached := boundPosition?_covers small bound extent inside
      exact absurd ((List.take_sublist_take_left before).subset reached) unvisited
    · rw [same]
    · obtain ⟨member, missed, absent⟩ := boundPosition?_misses small bound after
      exact absurd (covers member missed) absent

/-- What the list of keys for the extent at a position has to be. -/
structure ListsKeys (order : List Nat) (current position : Nat) (keys : List ExtentSet) : Prop where
  /-- There is one key for each mask over the extents before, in the order of the masks. -/
  enumerated : keys = (List.range (2 ^ position)).map
    ((empty.insert current).masked (order.take position))
  length : keys.length = 2 ^ position
  distinct : keys.Nodup
  bound_iff : ∀ key, key.isEmpty = false →
    (key ∈ keys ↔ key.boundPosition? order = some position)

theorem findIdx?_of_getElem? (distinct : order.Nodup) (here : order[position]? = some extent) :
    order.findIdx? (· == extent) = some position := by
  obtain ⟨within, there⟩ := List.getElem?_eq_some_iff.mp here
  rw [List.findIdx?_eq_some_iff_getElem]
  refine ⟨within, by simpa using there, fun earlier before => ?_⟩
  rw [beq_iff_eq, ← there]
  exact fun same => Nat.ne_of_lt before (distinct.getElem_inj_iff.mp same)

/-- The sets with a subset of the extents before a position added to the extent there. -/
theorem listsKeys_withSubsets (small : ∀ extent ∈ order, extent < maxExtents)
    (distinct : order.Nodup) (here : order[position]? = some extent)
    (listed : position ≤ maxListedPosition) :
    ListsKeys order extent position ((empty.insert extent).withSubsets (order.take position)) := by
  obtain ⟨unvisited, distinctBefore⟩ := nodup_take_through distinct here
  have length : (order.take position).length = position :=
    List.length_take_of_le (Nat.le_of_lt (List.getElem?_eq_some_iff.mp here).1)
  have few : (order.take position).length ≤ maxExtents := by
    rw [length]
    exact Nat.le_trans listed (by decide)
  have smallBefore : ∀ extent ∈ order.take position, extent < maxExtents :=
    fun extent member => small extent (List.mem_of_mem_take member)
  have smallHere := small extent (List.mem_of_getElem? here)
  have single : ∀ member, (empty.insert extent).includes member = true ↔ member = extent := by
    intro member
    simp [includes_insert _ smallHere]
  have fresh : ∀ member ∈ order.take position, (empty.insert extent).includes member = false := by
    intro member before
    rw [← Bool.not_eq_true, single]
    exact ne_of_mem_of_not_mem before unvisited
  have enumerated := withSubsets_eq_masked (empty.insert extent) few
  refine ⟨?_, ?_, ?_, ?_⟩
  · rw [enumerated, length]
  · rw [enumerated, List.length_map, List.length_range, length]
  · rw [enumerated]
    refine List.Nodup.map_on (fun mask below other bound same => ?_) List.nodup_range
    exact masked_injective few distinctBefore smallBefore fresh (List.mem_range.mp below)
      (List.mem_range.mp bound) same
  · intro key nonempty
    rw [mem_withSubsets_iff smallBefore, boundPosition?_eq_some_iff small distinct here nonempty,
      take_through here]
    simp only [single, forall_eq, List.mem_append, List.mem_singleton, or_comm]

/-- The keys listed for the extent at a position are the sets that the order binds there. No keys
are listed for positions that would need too many, nor for extents that the order does not have. -/
theorem listed_keys_iff_bound (distinct : order.Nodup)
    (small : ∀ extent ∈ order, extent < maxExtents) :
    (∀ position current, order[position]? = some current → position ≤ maxListedPosition →
      ∃ keys, keysBoundAt current order = .ok keys ∧ ListsKeys order current position keys) ∧
    (∀ position current, order[position]? = some current → maxListedPosition < position →
      keysBoundAt current order =
        .error (.internal (.tooDeepToList current position maxListedPosition))) ∧
    ∀ missing, missing ∉ order →
      keysBoundAt missing order = .error (.internal (.missingFromOrder missing order)) := by
  refine ⟨fun position current here listed => ?_, fun position current here deep => ?_,
    fun missing absent => ?_⟩
  · obtain ⟨preceding, ran⟩ : ∃ set, ofList (order.take position) = .ok set :=
      ofList_ok fun extent member => small extent (List.mem_of_mem_take member)
    have ranSingle : single current = .ok (empty.insert current) := by
      rw [single, add_eq, if_pos (small current (List.mem_of_getElem? here))]
    refine ⟨_, ?_, listsKeys_withSubsets small distinct here listed⟩
    rw [keysBoundAt, findIdx?_of_getElem? distinct here]
    dsimp only
    rw [if_neg (Nat.not_lt.mpr listed), ranSingle, ran]
    rfl
  · rw [keysBoundAt, findIdx?_of_getElem? distinct here]
    dsimp only
    rw [if_pos deep]
  · have unfound : order.findIdx? (· == missing) = none := by
      rw [List.findIdx?_eq_none_iff]
      intro extent member
      simpa using ne_of_mem_of_not_mem member absent
    rw [keysBoundAt, unfound]

/-- An order whose last extent stands too deep for a list of keys. -/
def deepOrder : List Nat := 20 :: 9 :: List.range' 30 16

/-- The keys listed at the third extent are four, and the set of it and the first is one of them; no
keys are listed at the last extent or for extent 5. -/
theorem listed_keys_of_deepOrder :
    deepOrder.Nodup ∧ (∀ extent ∈ deepOrder, extent < maxExtents) ∧
      (∃ keys, keysBoundAt 30 deepOrder = .ok keys ∧ keys.length = 4 ∧
        (empty.insert 20).insert 30 ∈ keys ∧ (empty.insert 30).insert 31 ∉ keys) ∧
      keysBoundAt 45 deepOrder = .error (.internal (.tooDeepToList 45 17 16)) ∧
      keysBoundAt 5 deepOrder = .error (.internal (.missingFromOrder 5 deepOrder)) := by
  have distinct : deepOrder.Nodup := by decide
  have small : ∀ extent ∈ deepOrder, extent < maxExtents := by decide
  obtain ⟨listed, deep, missing⟩ := listed_keys_iff_bound distinct small
  obtain ⟨keys, ran, lists⟩ := listed 2 30 rfl (by decide)
  refine ⟨distinct, small, ⟨keys, ran, lists.length, ?_, ?_⟩, deep 17 45 rfl (by decide),
    missing 5 (by decide)⟩
  · exact (lists.bound_iff _ (by decide)).mpr (by decide)
  · rw [lists.bound_iff _ (by decide)]
    decide

end ExtentPlanner.ExtentSet
