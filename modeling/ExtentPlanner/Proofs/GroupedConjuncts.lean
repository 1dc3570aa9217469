import ExtentPlanner.Proofs.ExtentMembers
import ExtentPlanner.Proofs.FoldedForm
import Mathlib.Data.List.TakeWhile

/-! The groups of a table of conjuncts. However conditions are added, and also where an addition
fails midway, the group of a set holds just those of the stored conjuncts that read exactly this
set, in the order in which they came. `Files` is what each insertion keeps of this; the stored
conjuncts are a list, to which an addition appends what it offers, up to the first that fits no
set. -/
namespace ExtentPlanner

namespace Condition

/-- The operands of the outermost AND chain of the folded condition, without TRUE. -/
def offered (condition : Condition) : List Condition := condition.fold.filterConjuncts

/-- Whether everything that the condition reads fits a set. -/
def Fits (condition : Condition) : Prop := ∀ extent ∈ condition.extents, extent < maxExtents

instance (condition : Condition) : Decidable condition.Fits :=
  inferInstanceAs (Decidable (∀ extent ∈ condition.extents, extent < maxExtents))

/-- What an addition of the condition stores: the conjuncts left of the first that does not fit. -/
def accepted (condition : Condition) : List Condition :=
  condition.offered.takeWhile fun conjunct => conjunct.Fits

/-- The conjuncts of a list that read exactly the extents of a key, in order. -/
def readingExactly (key : ExtentSet) (conjuncts : List Condition) : List Condition :=
  conjuncts.filter fun conjunct => conjunct.extentSet = .ok key

theorem extentSet_succeedsIff (condition : Condition) :
    SucceedsIff condition.Fits (fun failure => ∃ extent ∈ condition.extents,
      maxExtents ≤ extent ∧ failure = .internal (.extentOutOfRange extent)) condition.extentSet :=
  ExtentSet.ofList_succeedsIff condition.extents

/-- An offered conjunct is no AND and not the literal TRUE. -/
theorem of_mem_offered {condition conjunct : Condition} (member : conjunct ∈ condition.offered) :
    (∀ left right, conjunct ≠ and left right) ∧ conjunct ≠ truth .isTrue := by
  obtain ⟨inside, notTrue⟩ := List.mem_filter.mp member
  refine ⟨?_, isTrueLiteral_eq_false.mp (by simpa using notTrue)⟩
  rintro left right rfl
  have single := congrArg List.length (single_of_mem_conjuncts inside)
  -- Each operand of an AND has a conjunct of its own.
  have operand : ∀ condition : Condition, 0 < condition.conjuncts.length := by
    intro condition
    induction condition with
    | and left right lefts rights =>
      rw [conjuncts, List.length_append]
      exact Nat.lt_of_lt_of_le lefts (Nat.le_add_right _ _)
    | truth | compare | isType | or | not => exact Nat.one_pos
  have onLeft := operand left
  have onRight := operand right
  simp only [conjuncts, List.length_append, List.length_singleton] at single
  omega

end Condition

namespace ConjunctTable

open Condition (readingExactly)

variable {table : ConjunctTable} {groups : List ConjunctGroup} {stored : List Condition}
  {condition : Condition} {key other : ExtentSet}

/-- Groups in the order of their keys' numbers, each key once. -/
def Ascending (groups : List ConjunctGroup) : Prop :=
  groups.Pairwise fun first second => first.key.toNat < second.key.toNat

/-- The conditions of the group of a key, in a list of groups. -/
def findIn (key : ExtentSet) (groups : List ConjunctGroup) : Option (List Condition) :=
  (groups.find? fun group => group.key == key).map (·.conditions)

/-- The groups of a table are made of the stored conjuncts. -/
structure Files (table : ConjunctTable) (stored : List Condition) : Prop where
  ascending : Ascending table.groups
  found : ∀ key, table.find? key =
    if readingExactly key stored = [] then none else some (readingExactly key stored)
  nonempty : ∀ group ∈ table.groups, group.conditions ≠ []
  conserved : table.conditions.Perm stored

/-- What comes out of adding a condition to a table that files `stored`: everything offered has
been filed, or everything left of the first conjunct that reads an extent which fits no set. -/
inductive Added (stored : List Condition) (condition : Condition) :
    ConjunctTable × Planned Unit → Prop where
  | whole (fits : ∀ conjunct ∈ condition.offered, conjunct.Fits)
    (files : Files next (stored ++ condition.offered)) : Added stored condition (next, .ok ())
  | cut (split : condition.offered = front ++ offending :: back)
    (fits : ∀ conjunct ∈ front, conjunct.Fits) (read : extent ∈ offending.extents)
    (large : maxExtents ≤ extent) (files : Files next (stored ++ front)) :
    Added stored condition (next, .error (.internal (.extentOutOfRange extent)))

/-! ## Insertion into groups -/

private theorem toNat_ne (different : key ≠ other) : key.toNat ≠ other.toNat := fun same =>
  different (by
    obtain ⟨word⟩ := key
    obtain ⟨word'⟩ := other
    exact congrArg ExtentSet.mk (UInt64.toNat_inj.mp same))

theorem findIn_cons (group : ConjunctGroup) (rest : List ConjunctGroup) (key : ExtentSet) :
    findIn key (group :: rest) = if key = group.key then some group.conditions
      else findIn key rest := by
  by_cases same : key = group.key
  · simp [findIn, same]
  · simp [findIn, same, Ne.symm same]

/-- A key below all others has no group. -/
theorem findIn_of_below (below : ∀ group ∈ groups, key.toNat < group.key.toNat) :
    findIn key groups = none := by
  have absent : groups.find? (fun group => group.key == key) = none := by
    rw [List.find?_eq_none]
    intro group member same
    have less := below group member
    rw [beq_iff_eq.mp same] at less
    exact Nat.lt_irrefl _ less
  rw [findIn, absent]
  rfl

theorem key_of_mem_insertInto (member : group ∈ insertInto key condition groups) :
    group.key = key ∨ ∃ before ∈ groups, before.key = group.key := by
  induction groups with
  | nil =>
    rw [List.mem_singleton.mp member]
    exact .inl rfl
  | cons head rest ih =>
    rw [insertInto] at member
    split at member
    · rename_i same
      rcases List.mem_cons.mp member with rfl | later
      · exact .inl same.symm
      · exact .inr ⟨group, List.mem_cons_of_mem _ later, rfl⟩
    · split at member
      · rcases List.mem_cons.mp member with rfl | before
        · exact .inl rfl
        · exact .inr ⟨group, before, rfl⟩
      · rcases List.mem_cons.mp member with rfl | later
        · exact .inr ⟨group, List.mem_cons_self, rfl⟩
        · refine (ih later).imp_right ?_
          rintro ⟨before, inside, same⟩
          exact ⟨before, List.mem_cons_of_mem _ inside, same⟩

theorem Ascending.insertInto (ascending : Ascending groups) (key : ExtentSet)
    (condition : Condition) : Ascending (insertInto key condition groups) := by
  induction groups with
  | nil => exact List.pairwise_singleton _ _
  | cons head rest ih =>
    obtain ⟨headBelow, restAscending⟩ := List.pairwise_cons.mp ascending
    rw [ConjunctTable.insertInto]
    split
    · exact List.pairwise_cons.mpr ⟨headBelow, restAscending⟩
    · rename_i different
      split
      · rename_i less
        refine List.pairwise_cons.mpr ⟨fun group member => ?_, ascending⟩
        rcases List.mem_cons.mp member with rfl | later
        · exact less
        · exact Nat.lt_trans less (headBelow group later)
      · rename_i notLess
        refine List.pairwise_cons.mpr ⟨fun group member => ?_, ih restAscending⟩
        have unequal := toNat_ne different
        rcases key_of_mem_insertInto member with same | ⟨before, inside, same⟩
        · rw [same]
          omega
        · rw [← same]
          exact headBelow before inside

/-- An insertion appends the condition to the group of its key and leaves the others alone. -/
theorem findIn_insertInto (ascending : Ascending groups) (other : ExtentSet) :
    findIn other (insertInto key condition groups) =
      if other = key then some ((findIn key groups).getD [] ++ [condition])
      else findIn other groups := by
  induction groups with
  | nil =>
    rw [insertInto, findIn_cons]
    rfl
  | cons head rest ih =>
    obtain ⟨headBelow, restAscending⟩ := List.pairwise_cons.mp ascending
    rw [insertInto]
    split
    · rename_i same
      rw [findIn_cons, findIn_cons, findIn_cons, same, if_pos rfl]
      by_cases own : other = head.key
      · rw [if_pos own, if_pos own]
        rfl
      · rw [if_neg own, if_neg own, if_neg own]
    · rename_i different
      split
      · rename_i less
        have absent : findIn key (head :: rest) = none := by
          refine findIn_of_below fun group member => ?_
          rcases List.mem_cons.mp member with rfl | later
          · exact less
          · exact Nat.lt_trans less (headBelow group later)
        rw [findIn_cons, absent]
        rfl
      · rw [findIn_cons, ih restAscending, findIn_cons head rest key, findIn_cons head rest other,
          if_neg different]
        by_cases own : other = key
        · rw [own, if_neg different, if_pos rfl, if_pos rfl]
        · rw [if_neg own, if_neg own]

theorem nonempty_insertInto (nonempty : ∀ group ∈ groups, group.conditions ≠ []) :
    ∀ group ∈ insertInto key condition groups, group.conditions ≠ [] := by
  induction groups with
  | nil => simp [insertInto]
  | cons head rest ih =>
    obtain ⟨ofHead, ofRest⟩ := List.forall_mem_cons.mp nonempty
    rw [insertInto]
    split
    · exact List.forall_mem_cons.mpr ⟨by simp, ofRest⟩
    · split
      · exact List.forall_mem_cons.mpr ⟨by simp, nonempty⟩
      · exact List.forall_mem_cons.mpr ⟨ofHead, ih ofRest⟩

theorem conditions_insertInto (key : ExtentSet) (condition : Condition)
    (groups : List ConjunctGroup) :
    ((insertInto key condition groups).flatMap (·.conditions)).Perm
      (groups.flatMap (·.conditions) ++ [condition]) := by
  induction groups with
  | nil => exact .refl _
  | cons head rest ih =>
    rw [insertInto]
    split
    · simp only [List.flatMap_cons, List.append_assoc]
      exact List.perm_append_comm.append_left _
    · split
      · exact @List.perm_append_comm _ [condition] _
      · simp only [List.flatMap_cons, List.append_assoc]
        exact ih.append_left _

/-! ## Additions -/

theorem files_empty : Files .empty [] :=
  ⟨.nil, fun _ => rfl, fun _ member => absurd member List.not_mem_nil, .refl _⟩

theorem Files.insert (files : Files table stored) (reads : condition.extentSet = .ok key) :
    Files (table.insert key condition) (stored ++ [condition]) := by
  refine ⟨files.ascending.insertInto key condition, fun other => ?_,
    nonempty_insertInto files.nonempty,
    (conditions_insertInto key condition table.groups).trans (files.conserved.append_right _)⟩
  have before : findIn key table.groups = _ := files.found key
  have elsewhere : findIn other table.groups = _ := files.found other
  have after : (table.insert key condition).find? other = _ :=
    findIn_insertInto files.ascending other
  rw [after, before, elsewhere]
  simp only [readingExactly, List.filter_append]
  by_cases own : other = key
  · subst own
    by_cases none : stored.filter (fun conjunct => conjunct.extentSet = .ok other) = [] <;>
      simp [reads, none]
  · have notOther : ¬condition.extentSet = .ok other := by
      rw [reads]
      exact fun same => own (Except.ok.inj same).symm
    simp [own, notOther]

/-- Conjuncts are filed from left to right, up to the first that does not fit. -/
private theorem Files.addConjuncts (files : Files table stored) (conjuncts : List Condition) :
    ((table.addConjuncts conjuncts).2 = .ok () ∧
        (∀ conjunct ∈ conjuncts.filter (!·.isTrueLiteral), conjunct.Fits) ∧
        Files (table.addConjuncts conjuncts).1
          (stored ++ conjuncts.filter (!·.isTrueLiteral))) ∨
      ∃ front offending back extent, conjuncts.filter (!·.isTrueLiteral) =
          front ++ offending :: back ∧ (∀ conjunct ∈ front, conjunct.Fits) ∧
        extent ∈ offending.extents ∧ maxExtents ≤ extent ∧
        (table.addConjuncts conjuncts).2 = .error (.internal (.extentOutOfRange extent)) ∧
        Files (table.addConjuncts conjuncts).1 (stored ++ front) := by
  induction conjuncts generalizing table stored with
  | nil =>
    refine .inl ⟨rfl, by simp, ?_⟩
    rwa [List.filter_nil, List.append_nil]
  | cons condition rest ih =>
    rw [ConjunctTable.addConjuncts]
    by_cases isTrue : condition.isTrueLiteral = true
    · simpa only [isTrue, if_true, List.filter_cons, Bool.not_true, Bool.false_eq_true, if_false]
        using ih files
    · have settled := condition.extentSet_succeedsIff
      have offers : (condition :: rest).filter (!·.isTrueLiteral) =
          condition :: rest.filter (!·.isTrueLiteral) := by simp [isTrue]
      rw [if_neg isTrue, offers]
      cases reads : condition.extentSet with
      | ok key =>
        have fits : condition.Fits := settled.exists_iff.mp ⟨key, reads⟩
        rcases ih (files.insert reads) with ⟨outcome, restFit, filed⟩ |
          ⟨front, offending, back, extent, split, frontFit, read, large, outcome, filed⟩
        · exact .inl ⟨outcome, List.forall_mem_cons.mpr ⟨fits, restFit⟩, by simpa using filed⟩
        · exact .inr ⟨condition :: front, offending, back, extent, congrArg (condition :: ·) split,
            List.forall_mem_cons.mpr ⟨fits, frontFit⟩, read, large, outcome, by simpa using filed⟩
      | error failure =>
        obtain ⟨extent, read, large, rfl⟩ := settled.fault reads
        exact .inr ⟨[], condition, _, extent, rfl, by simp, read, large, rfl, by simpa using files⟩

theorem Files.add (files : Files table stored) (condition : Condition) :
    Added stored condition (table.add condition) := by
  rcases files.addConjuncts condition.fold.conjuncts with ⟨outcome, fits, filed⟩ |
    ⟨front, offending, back, extent, split, fits, read, large, outcome, filed⟩
  · have ran : table.add condition = (_, .ok ()) := Prod.ext rfl outcome
    rw [ran]
    exact .whole fits filed
  · have ran : table.add condition = (_, .error _) := Prod.ext rfl outcome
    rw [ran]
    exact .cut split fits read large filed

/-- In either case the accepted conjuncts have been filed. -/
theorem Added.files_accepted (added : Added stored condition (next, outcome)) :
    Files next (stored ++ condition.accepted) := by
  cases added with
  | whole fits files =>
    have all : condition.accepted = condition.offered := by
      refine List.takeWhile_eq_self_iff.mpr fun conjunct member => ?_
      exact decide_eq_true (fits conjunct member)
    rwa [all]
  | @cut front offending back extent _ split fits read large files =>
    have unfit : ¬offending.Fits := fun all => Nat.not_lt.mpr large (all extent read)
    have some : condition.accepted = front := by
      rw [Condition.accepted, split, List.takeWhile_append_of_pos
        fun conjunct member => decide_eq_true (fits conjunct member)]
      simp [unfit]
    rwa [some]

/-- The table after conditions have been added one after the other, whether or not the additions
succeed. -/
def addEach (table : ConjunctTable) (history : List Condition) : ConjunctTable :=
  history.foldl (fun table condition => (table.add condition).1) table

theorem Files.addEach (files : Files table stored) (history : List Condition) :
    Files (table.addEach history) (stored ++ history.flatMap Condition.accepted) := by
  induction history generalizing table stored with
  | nil => simpa [ConjunctTable.addEach] using files
  | cons condition rest ih =>
    have filed := ih (files.add condition).files_accepted
    rwa [List.append_assoc, ← List.flatMap_cons] at filed

/-- After any additions the table files what they have accepted, which are conjuncts other than
TRUE; its size is their number, and one more addition files everything that it offers, or fails and
files what is left of the first conjunct that does not fit. -/
theorem additions_conserve_conjuncts (history : List Condition) :
    Files (empty.addEach history) (history.flatMap Condition.accepted) ∧
      (empty.addEach history).size = (history.flatMap Condition.accepted).length ∧
      (∀ conjunct ∈ (empty.addEach history).conditions,
        (∀ left right, conjunct ≠ .and left right) ∧ conjunct ≠ .truth .isTrue) ∧
      ∀ condition, Added (history.flatMap Condition.accepted) condition
        ((empty.addEach history).add condition) := by
  have files := files_empty.addEach history
  rw [List.nil_append] at files
  refine ⟨files, files.conserved.length_eq, fun conjunct member => ?_, files.add⟩
  obtain ⟨condition, _, accepted⟩ := List.mem_flatMap.mp (files.conserved.mem_iff.mp member)
  exact Condition.of_mem_offered ((List.takeWhile_sublist _).subset accepted)

end ConjunctTable

end ExtentPlanner
