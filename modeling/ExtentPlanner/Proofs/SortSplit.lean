import ExtentPlanner.Proofs.RowOrder
import Mathlib.Data.List.Basic
import Mathlib.Data.List.Induction
import Mathlib.Data.List.Nodup

/-! A sort specification split by extent. If its items are plain columns and those of each extent
stand together, the extents that nested loops must visit are found, and the sort keys of these
extents in turn are the whole specification. The loop that finds them is followed item by item from
the first: what has been split so far is all of the items before, and the next item goes on with the
last extent, begins a new one, or comes back to one that was left. -/
namespace ExtentPlanner

/-! ## Lists whose equal members stand together -/

/-- Between two equal members of the list stands no other. -/
def Contiguous (extents : List Nat) : Prop :=
  ∀ extent between, [extent, between, extent].Sublist extents → between = extent

private theorem snoc_sublist_snoc {first second : List Nat} :
    (first ++ [extent]).Sublist (second ++ [last]) ↔
      (first ++ [extent]).Sublist second ∨ extent = last ∧ first.Sublist second := by
  rw [← List.reverse_sublist, List.reverse_append, List.reverse_append, List.reverse_singleton,
    List.reverse_singleton, List.singleton_append, List.singleton_append, List.cons_sublist_cons',
    ← @List.reverse_sublist _ _ second, List.reverse_append, List.reverse_singleton,
    List.singleton_append, List.reverse_sublist]

theorem contiguous_nil : Contiguous [] := by
  intro extent between inside
  cases inside

/-- A further member is the last one again or is new. -/
theorem contiguous_snoc {extents : List Nat} : Contiguous (extents ++ [extent]) ↔
    Contiguous extents ∧ (extents.getLast? = some extent ∨ extent ∉ extents) := by
  constructor
  · intro together
    refine ⟨fun first between inside => together first between
      (inside.trans (List.sublist_append_left _ _)), ?_⟩
    by_contra returns
    push Not at returns
    obtain ⟨left, earlier⟩ := returns
    rcases List.eq_nil_or_concat' extents with rfl | ⟨front, last, rfl⟩
    · cases earlier
    · have other : last ≠ extent := by simpa using left
      have inFront : [extent].Sublist front := by
        simpa [other.symm] using earlier
      have pair : [extent, last].Sublist (front ++ [last]) :=
        snoc_sublist_snoc.mpr (.inr ⟨rfl, inFront⟩)
      exact other (together extent last (snoc_sublist_snoc.mpr (.inr ⟨rfl, pair⟩)))
  · rintro ⟨together, goesOn⟩ first between inside
    have inside : ([first, between] ++ [first]).Sublist (extents ++ [extent]) := inside
    rcases snoc_sublist_snoc.mp inside with before | ⟨rfl, pair⟩
    · exact together first between before
    · rcases goesOn with last | new
      · obtain ⟨front, rfl⟩ := List.getLast?_eq_some_iff.mp last
        have pair : ([first] ++ [between]).Sublist (front ++ [first]) := pair
        rcases snoc_sublist_snoc.mp pair with inFront | ⟨same, _⟩
        · exact together first between (snoc_sublist_snoc.mpr (.inr ⟨rfl, inFront⟩))
        · exact same
      · exact absurd (pair.subset List.mem_cons_self) new

namespace SortItem

/-- The item that sorts by a column of an extent. -/
def ofKeyPart (extent : Nat) (part : String × Direction) : SortItem :=
  ⟨.path extent [part.1], part.2⟩

/-- The item is a path of a single member. -/
def IsColumn (item : SortItem) : Prop := ∃ extent part, item = ofKeyPart extent part

theorem columnExtent?_eq_some_iff {item : SortItem} :
    item.columnExtent? = some extent ↔ ∃ part, item = ofKeyPart extent part := by
  rw [columnExtent?_eq_some]
  constructor
  · rintro ⟨column, read⟩
    obtain ⟨operand, direction⟩ := item
    exact ⟨(column, direction), by rw [ofKeyPart, ← read]⟩
  · rintro ⟨part, rfl⟩
    exact ⟨part.1, rfl⟩

theorem keyPart?_ofKeyPart (extent other : Nat) (part : String × Direction) :
    (ofKeyPart extent part).keyPart? other = if extent = other then some part else none := by
  rw [keyPart?, ofKeyPart, Operand.column?]
  split <;> rfl

theorem keyPart?_eq_some_iff {item : SortItem} :
    item.keyPart? extent = some part ↔ item = ofKeyPart extent part := by
  constructor
  · intro found
    obtain ⟨operand, direction⟩ := item
    obtain ⟨column, read, rfl⟩ := Option.map_eq_some_iff.mp found
    rw [ofKeyPart, ← Operand.column?_eq_some.mp read]
  · rintro rfl
    rw [keyPart?_ofKeyPart, if_pos rfl]

end SortItem

namespace SortSpec

variable {items : List SortItem} {item : SortItem} {visited order : List Nat}

/-- The extents of the items, one for each item that reads one. -/
def extents (items : List SortItem) : List Nat := items.filterMap (·.operand.extent?)

/-- The items on the extents of an order, one extent after the other. -/
def regrouped (items : List SortItem) (order : List Nat) : List SortItem :=
  order.flatMap fun extent => ((SortSpec.mk items).sortKey extent).map (SortItem.ofKeyPart extent)

/-! ## One item more -/

theorem visitOrderFrom_append (visited : List Nat) (first second : List SortItem) :
    visitOrderFrom visited (first ++ second) =
      (visitOrderFrom visited first).bind (visitOrderFrom · second) := by
  induction first generalizing visited with
  | nil => rfl
  | cons item rest ih =>
    rw [List.cons_append, visitOrderFrom, visitOrderFrom]
    split
    · rfl
    · split
      · exact ih visited
      · split
        · rfl
        · exact ih _

/-- A further item goes on with the last extent or begins a new one. -/
theorem visitOrderFrom_singleton : visitOrderFrom visited [item] = some order ↔
    ∃ extent part, item = .ofKeyPart extent part ∧
      (visited.getLast? = some extent ∧ order = visited ∨
        extent ∉ visited ∧ order = visited ++ [extent]) := by
  rw [visitOrderFrom]
  cases column : item.columnExtent? with
  | none =>
    dsimp only
    constructor
    · intro impossible
      cases impossible
    · rintro ⟨extent, part, same, _⟩
      rw [SortItem.columnExtent?_eq_some_iff.mpr ⟨part, same⟩] at column
      cases column
  | some extent =>
    obtain ⟨part, rfl⟩ := SortItem.columnExtent?_eq_some_iff.mp column
    have only : ∀ {other otherPart}, SortItem.ofKeyPart extent part = .ofKeyPart other otherPart →
        extent = other := fun same => (Operand.path.inj (SortItem.mk.inj same).1).1
    dsimp only
    constructor
    · intro ran
      refine ⟨extent, part, rfl, ?_⟩
      split at ran
      · rename_i last
        cases ran
        exact .inl ⟨last, rfl⟩
      · split at ran
        · cases ran
        · rename_i new
          cases ran
          exact .inr ⟨by simpa using new, rfl⟩
    · rintro ⟨other, otherPart, same, ⟨last, rfl⟩ | ⟨new, rfl⟩⟩
      · rw [only same, if_pos last]
        rfl
      · have notLast : visited.getLast? ≠ some other := fun last => new (List.mem_of_getLast? last)
        rw [only same, if_neg notLast, if_neg (by simpa using new)]
        rfl

theorem extents_snoc (items : List SortItem) (extent : Nat) (part : String × Direction) :
    extents (items ++ [.ofKeyPart extent part]) = extents items ++ [extent] := by
  rw [extents, List.filterMap_append]
  rfl

theorem sortKey_snoc (items : List SortItem) (extent : Nat) (part : String × Direction)
    (other : Nat) : (SortSpec.mk (items ++ [.ofKeyPart extent part])).sortKey other =
      (SortSpec.mk items).sortKey other ++ if extent = other then [part] else [] := by
  rw [sortKey, sortKey, List.filterMap_append, List.filterMap_cons, List.filterMap_nil,
    SortItem.keyPart?_ofKeyPart]
  split <;> simp_all

/-- An extent of no item has an empty sort key. -/
theorem sortKey_of_not_mem (absent : extent ∉ extents items) :
    (SortSpec.mk items).sortKey extent = [] := by
  rw [sortKey, List.filterMap_eq_nil_iff]
  intro item member
  refine Option.eq_none_iff_forall_ne_some.mpr fun part found => absent ?_
  rw [SortItem.keyPart?_eq_some_iff.mp found] at member
  exact List.mem_filterMap.mpr ⟨_, member, rfl⟩

/-- A further item is put behind the others of its extent. -/
theorem regrouped_snoc (new : extent ∉ order) (part : String × Direction) :
    regrouped (items ++ [.ofKeyPart extent part]) (order ++ [extent]) =
      regrouped items (order ++ [extent]) ++ [.ofKeyPart extent part] := by
  have others : regrouped (items ++ [.ofKeyPart extent part]) order = regrouped items order := by
    refine List.flatMap_congr fun other member => ?_
    rw [sortKey_snoc, if_neg (ne_of_mem_of_not_mem member new).symm, List.append_nil]
  rw [regrouped, List.flatMap_append, ← regrouped, others, List.flatMap_singleton, sortKey_snoc,
    if_pos rfl, List.map_append, List.map_singleton, regrouped, regrouped, List.flatMap_append,
    List.flatMap_singleton, List.append_assoc]

/-- The items are split by the order: the sort keys of its extents in turn are the items. -/
structure Splits (items : List SortItem) (order : List Nat) : Prop where
  distinct : order.Nodup
  mem_iff : ∀ extent, extent ∈ order ↔ extent ∈ extents items
  last : order.getLast? = (extents items).getLast?
  regrouped : regrouped items order = items

theorem splits_nil : Splits [] [] := ⟨List.nodup_nil, fun _ => Iff.rfl, rfl, rfl⟩

theorem Splits.goOn (splits : Splits items order) (last : order.getLast? = some extent)
    (part : String × Direction) : Splits (items ++ [.ofKeyPart extent part]) order := by
  obtain ⟨front, rfl⟩ := List.getLast?_eq_some_iff.mp last
  have left : extent ∉ front := by
    have distinct := splits.distinct
    rw [List.nodup_append_comm, List.singleton_append, List.nodup_cons] at distinct
    exact distinct.1
  refine ⟨splits.distinct, fun other => ?_, ?_, ?_⟩
  · have known : extent ∈ extents items := (splits.mem_iff extent).mp (by simp)
    rw [splits.mem_iff, extents_snoc, List.mem_append, List.mem_singleton]
    exact (or_iff_left_of_imp fun same => same ▸ known).symm
  · rw [extents_snoc, List.getLast?_concat, List.getLast?_concat]
  · rw [regrouped_snoc left, splits.regrouped]

theorem Splits.begin (splits : Splits items order) (new : extent ∉ order)
    (part : String × Direction) :
    Splits (items ++ [.ofKeyPart extent part]) (order ++ [extent]) := by
  refine ⟨?_, fun other => ?_, ?_, ?_⟩
  · rw [List.nodup_append_comm, List.singleton_append, List.nodup_cons]
    exact ⟨new, splits.distinct⟩
  · rw [extents_snoc, List.mem_append, List.mem_append, splits.mem_iff]
  · rw [extents_snoc, List.getLast?_concat, List.getLast?_concat]
  · have none := sortKey_of_not_mem (mt (splits.mem_iff extent).mpr new)
    rw [regrouped_snoc new, SortSpec.regrouped, List.flatMap_append, List.flatMap_singleton, none,
      List.map_nil, List.append_nil]
    exact congrArg (· ++ _) splits.regrouped

/-! ## The whole specification -/

theorem visitOrderFrom_snoc : visitOrderFrom [] (items ++ [item]) = some order ↔
    ∃ before, visitOrderFrom [] items = some before ∧
      visitOrderFrom before [item] = some order := by
  rw [visitOrderFrom_append, Option.bind_eq_some_iff]

theorem splits_of_visitOrderFrom (ran : visitOrderFrom [] items = some order) :
    Splits items order := by
  induction items using List.reverseRecOn generalizing order with
  | nil =>
    cases ran
    exact splits_nil
  | append_singleton items item ih =>
    obtain ⟨before, ranBefore, ranItem⟩ := visitOrderFrom_snoc.mp ran
    have splits := ih ranBefore
    obtain ⟨extent, part, rfl, ⟨last, rfl⟩ | ⟨new, rfl⟩⟩ := visitOrderFrom_singleton.mp ranItem
    · exact splits.goOn last part
    · exact splits.begin new part

theorem exists_visitOrderFrom_iff : (∃ order, visitOrderFrom [] items = some order) ↔
    (∀ item ∈ items, item.IsColumn) ∧ Contiguous (extents items) := by
  induction items using List.reverseRecOn with
  | nil => exact iff_of_true ⟨[], rfl⟩ ⟨fun _ => nofun, contiguous_nil⟩
  | append_singleton items item ih =>
    constructor
    · rintro ⟨order, ran⟩
      obtain ⟨before, ranBefore, ranItem⟩ := visitOrderFrom_snoc.mp ran
      obtain ⟨columns, together⟩ := ih.mp ⟨before, ranBefore⟩
      have splits := splits_of_visitOrderFrom ranBefore
      obtain ⟨extent, part, rfl, goesOn⟩ := visitOrderFrom_singleton.mp ranItem
      refine ⟨?_, ?_⟩
      · rintro item (member : item ∈ _ ++ _)
        rcases List.mem_append.mp member with earlier | here
        · exact columns item earlier
        · exact ⟨extent, part, List.mem_singleton.mp here⟩
      · rw [extents_snoc, contiguous_snoc, ← splits.last, ← splits.mem_iff]
        exact ⟨together, goesOn.imp And.left And.left⟩
    · rintro ⟨columns, together⟩
      obtain ⟨extent, part, rfl⟩ := columns item (by simp)
      rw [extents_snoc, contiguous_snoc] at together
      obtain ⟨before, ranBefore⟩ := ih.mpr
        ⟨fun item member => columns item (List.mem_append_left _ member), together.1⟩
      have splits := splits_of_visitOrderFrom ranBefore
      rw [← splits.last, ← splits.mem_iff] at together
      rcases together.2 with last | new
      · exact ⟨before, visitOrderFrom_snoc.mpr ⟨before, ranBefore,
          visitOrderFrom_singleton.mpr ⟨extent, part, rfl, .inl ⟨last, rfl⟩⟩⟩⟩
      · exact ⟨before ++ [extent], visitOrderFrom_snoc.mpr ⟨before, ranBefore,
          visitOrderFrom_singleton.mpr ⟨extent, part, rfl, .inr ⟨new, rfl⟩⟩⟩⟩

/-- Every extent of a split has items. -/
theorem Splits.sortKey_ne_nil (splits : Splits items order) (member : extent ∈ order) :
    (SortSpec.mk items).sortKey extent ≠ [] := by
  obtain ⟨item, listed, reads⟩ := List.mem_filterMap.mp ((splits.mem_iff extent).mp member)
  rw [← splits.regrouped] at listed
  obtain ⟨owner, _, inKey⟩ := List.mem_flatMap.mp listed
  obtain ⟨part, keyed, rfl⟩ := List.mem_map.mp inKey
  cases reads
  exact List.ne_nil_of_mem keyed

/-- The extents to be visited are found exactly if every item is a column of an extent and the items
of each extent stand together. They are then distinct, each of them has items, and the sort keys of
the extents in turn are the specification. -/
theorem sort_keys_recompose (spec : SortSpec) :
    ((∃ order, spec.requiredVisitOrder? = some order) ↔
        (∀ item ∈ spec.items, item.IsColumn) ∧ Contiguous (extents spec.items)) ∧
      ∀ order, spec.requiredVisitOrder? = some order →
        order.Nodup ∧ (∀ extent ∈ order, spec.sortKey extent ≠ []) ∧
          (order.flatMap fun extent => (spec.sortKey extent).map (SortItem.ofKeyPart extent)) =
            spec.items := by
  refine ⟨exists_visitOrderFrom_iff, fun order ran => ?_⟩
  have splits := splits_of_visitOrderFrom ran
  exact ⟨splits.distinct, fun extent member => splits.sortKey_ne_nil member, splits.regrouped⟩

/-- Persons by name and, the oldest first, by age; then their cities by name. -/
def personsThenCities : SortSpec :=
  ⟨[⟨.path 1 ["name"], .ascending⟩, ⟨.path 1 ["age"], .descending⟩,
    ⟨.path 0 ["name"], .ascending⟩]⟩

/-- The persons are visited before the cities, and the two sort keys are the whole order. -/
theorem sort_keys_recompose_personsThenCities :
    personsThenCities.requiredVisitOrder? = some [1, 0] ∧ Contiguous [1, 1, 0] ∧
      personsThenCities.sortKey 1 = [("name", .ascending), ("age", .descending)] ∧
      ([1, 0].flatMap fun extent =>
        (personsThenCities.sortKey extent).map (SortItem.ofKeyPart extent)) =
          personsThenCities.items := by
  obtain ⟨found_iff, recompose⟩ := sort_keys_recompose personsThenCities
  have found : personsThenCities.requiredVisitOrder? = some [1, 0] := by decide
  exact ⟨found, (found_iff.mp ⟨_, found⟩).2, by decide, (recompose _ found).2.2⟩

end SortSpec

end ExtentPlanner
