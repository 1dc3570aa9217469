import ExtentPlanner.Proofs.DeclaredNames
import ExtentPlanner.Proofs.RegisteredClasses
import Mathlib.Data.List.Induction
import Std.Data.HashMap.Lemmas

/-! What the searches of a catalog find. An index applies to a class if it is declared on the class
or an ancestor, and the number of parents between them is its distance. The indexes of a class are
listed by distance, those of one class as they were declared. The index for an order is the nearest
that a scan in either direction delivers the order from; on one class a forward scan is preferred,
and then the index declared first.

The same answers can be looked up in three finite maps that one pass over the indexes fills. They
treat a repeated key in different ways: `Tables.agrees` says what each of them holds. -/
namespace ExtentPlanner

deriving instance Hashable for Direction

namespace Catalog

/-! ## Declarations that succeed -/

/-- The index that a declaration adds. -/
def Declaration.added : Declaration → Index
  | .type name _ => defaultIndex name
  | .index name typeName columns => ⟨name, typeName, columns⟩

/-- The declarations of a history that succeed. -/
def accepted (catalog : Catalog) : List Declaration → List Declaration
  | [] => []
  | declaration :: rest =>
    match catalog.declare declaration with
    | .ok next => declaration :: next.accepted rest
    | .error _ => catalog.accepted rest

variable {catalog next : Catalog}

theorem declare_indexes {declaration : Declaration} (ran : catalog.declare declaration = .ok next) :
    next.indexes = catalog.indexes ++ [declaration.added] := by
  cases declaration with
  | type name parent? => exact (declareType_ok ran).2
  | index name typeName columns => rw [declareIndex_ok ran, Declaration.added]

/-- Declarations that fail leave no trace, the others each an index. -/
theorem declareAll_accepted (catalog : Catalog) (history : List Declaration) :
    catalog.declareAll (catalog.accepted history) = catalog.declareAll history ∧
      (catalog.declareAll history).indexes =
        catalog.indexes ++ (catalog.accepted history).map Declaration.added := by
  induction history generalizing catalog with
  | nil => exact ⟨rfl, (List.append_nil _).symm⟩
  | cons declaration rest ih =>
    rw [accepted, declareAll, declareAll, List.foldl_cons, attempt]
    cases ran : catalog.declare declaration with
    | error failure => exact ih catalog
    | ok next =>
      obtain ⟨same, indexes⟩ := ih next
      dsimp only
      rw [List.foldl_cons, attempt, ran]
      refine ⟨same, indexes.trans ?_⟩
      rw [declare_indexes ran, List.map_cons, List.append_assoc, List.singleton_append]

theorem Declared.registered (declared : Declared catalog) :
    Hierarchy.Registered catalog.hierarchy := by
  induction declared with
  | empty generation => exact .empty
  | type _ ran ih => exact ih.register (declareType_ok ran).1
  | index _ ran ih =>
    rw [declareIndex_ok ran]
    exact ih

/-- Two indexes of one name are declared on different classes. -/
theorem Declared.names_nodup (declared : Declared catalog) :
    (catalog.indexes.map fun index => (index.name, index.typeName)).Nodup := by
  induction declared with
  | empty generation => exact List.nodup_nil
  | type declared ran ih =>
    obtain ⟨registered, added⟩ := declareType_ok ran
    have fresh := (Hierarchy.register_ok registered).2.1
    rw [added, List.map_append, List.nodup_append_comm]
    refine List.nodup_cons.mpr ⟨fun taken => fresh ?_, ih⟩
    obtain ⟨index, member, same⟩ := List.mem_map.mp taken
    have known := Hierarchy.contains_iff.mp (declared.typeKnown member)
    rwa [(Prod.mk.inj same).2] at known
  | index declared ran ih =>
    have free := (free_of_declareIndex ran).2
    rw [declareIndex_ok ran, List.map_append, List.nodup_append_comm]
    refine List.nodup_cons.mpr ⟨fun taken => free ?_, ih⟩
    obtain ⟨index, member, same⟩ := List.mem_map.mp taken
    exact List.mem_map.mpr ⟨index, member, (Prod.mk.inj same).1⟩

theorem Declared.nodup (declared : Declared catalog) : catalog.indexes.Nodup :=
  declared.names_nodup.of_map _

/-- The first index of a registered class is its default index. -/
theorem Declared.head?_indexesOn (declared : Declared catalog)
    (known : catalog.hierarchy.contains typeName = true) :
    (catalog.indexesOn typeName).head? = some (defaultIndex typeName) := by
  induction declared with
  | empty generation => cases known
  | @type before name parent? next declared ran ih =>
    obtain ⟨registered, added⟩ := declareType_ok ran
    rw [indexesOn, added, List.filter_append, List.head?_append, ← indexesOn]
    rcases (Hierarchy.contains_register registered).mp known with rfl | older
    · have fresh := (Hierarchy.register_ok registered).2.1
      have none : before.indexesOn typeName = [] := by
        refine List.filter_eq_nil_iff.mpr fun index member same => fresh ?_
        rw [← beq_iff_eq.mp same]
        exact Hierarchy.contains_iff.mp (declared.typeKnown member)
      simp [none, defaultIndex]
    · rw [ih older, Option.some_or]
  | index _ ran ih =>
    obtain rfl := declareIndex_ok ran
    rw [indexesOn, List.filter_append, List.head?_append, ← indexesOn, ih known, Option.some_or]

end Catalog

/-! ## Distances -/

namespace Hierarchy

variable {hierarchy : Hierarchy}

/-- The ancestor is reached from the class by as many parents. -/
def Above (hierarchy : Hierarchy) (name : String) (distance : Nat) (ancestor : String) : Prop :=
  hierarchy.follow distance (hierarchy.start? name) = some ancestor

theorem Registered.above_iff (registered : Registered hierarchy) :
    hierarchy.Above name distance ancestor ↔
      (hierarchy.ancestry name)[distance]? = some ancestor := by
  rw [Above, follow_eq_getElem? registered]

theorem Registered.above_unique (registered : Registered hierarchy)
    (first : hierarchy.Above name near ancestor) (second : hierarchy.Above name far ancestor) :
    near = far := by
  rw [registered.above_iff] at first second
  obtain ⟨inside, same⟩ := List.getElem?_eq_some_iff.mp first
  exact (List.getElem?_inj inside (registered.lawful.distinct name)).mp (first.trans second.symm)

theorem Registered.isSubtype_iff_above (registered : Registered hierarchy) :
    hierarchy.isSubtype name ancestor = true ↔ ∃ distance, hierarchy.Above name distance ancestor := by
  simp only [isSubtype_iff, registered.above_iff, List.mem_iff_getElem?]

end Hierarchy

/-! ## Orders among the indexes -/

/-- The order in which a scan delivers rows. -/
def IndexUse.order (use : IndexUse) : SortKey :=
  match use.direction with
  | .ascending => use.index.sortKey
  | .descending => use.index.sortKey.reversed

theorem SortKey.reversed_reversed (key : SortKey) : key.reversed.reversed = key := by
  rw [reversed, reversed, List.map_map]
  refine List.map_id'' (fun item => ?_) key
  obtain ⟨column, direction⟩ := item
  exact congrArg (column, ·) direction.reverse_reverse

namespace Catalog

variable {catalog : Catalog} {typeName : String}

/-- The index is declared and can scan the class. -/
def Applies (catalog : Catalog) (typeName : String) (index : Index) : Prop :=
  index ∈ catalog.indexes ∧ catalog.canScan index typeName = true

/-- The first class is nearer, or both are equally near and something else decides. -/
def Nearer (catalog : Catalog) (typeName first second : String) (decides : Prop) : Prop :=
  ∃ near far, catalog.hierarchy.Above typeName near first ∧
    catalog.hierarchy.Above typeName far second ∧ (near < far ∨ near = far ∧ decides)

/-- One index is declared before another. -/
def DeclaredBefore (catalog : Catalog) (first second : Index) : Prop :=
  [first, second].Sublist catalog.indexes

/-- By distance, and then by declaration. -/
def ListedBefore (catalog : Catalog) (typeName : String) (first second : Index) : Prop :=
  catalog.Nearer typeName first.typeName second.typeName (catalog.DeclaredBefore first second)

/-- By distance, then a forward scan before a backward one, and then by declaration. -/
def PreferredTo (catalog : Catalog) (typeName : String) (use other : IndexUse) : Prop :=
  catalog.Nearer typeName use.index.typeName other.index.typeName
    (use.direction = .ascending ∧ other.direction = .descending ∨
      use.direction = other.direction ∧ catalog.DeclaredBefore use.index other.index)

/-- The scan delivers the order and is preferred to all others that do. -/
structure Preferred (catalog : Catalog) (typeName : String) (key : SortKey) (use : IndexUse) :
    Prop where
  applies : catalog.Applies typeName use.index
  delivers : use.order = key
  first : ∀ other, catalog.Applies typeName other.index → other.order = key → other ≠ use →
    catalog.PreferredTo typeName use other

/-- What is wanted of the searches for indexes of a class. -/
structure Exact (catalog : Catalog) (typeName : String) : Prop where
  /-- Every index that applies is listed as often as it is declared, and no other. -/
  listed : (catalog.indexesFor typeName).Perm
    (catalog.indexes.filter fun index => catalog.canScan index typeName)
  once : (catalog.indexesFor typeName).Nodup
  ordered : (catalog.indexesFor typeName).Pairwise (catalog.ListedBefore typeName)
  whole : catalog.scanIndex? typeName =
    if catalog.hierarchy.contains typeName then some (defaultIndex typeName) else none
  unordered : ∀ key, catalog.orderIndex? typeName key = none ↔
    key = [] ∨ ∀ index, catalog.Applies typeName index →
      index.sortKey ≠ key ∧ index.sortKey ≠ key.reversed
  preferred : ∀ key use, catalog.orderIndex? typeName key = some use ↔
    key ≠ [] ∧ catalog.Preferred typeName key use

/-! ## Listing the indexes of a class -/

theorem indexesFor_perm (distinct : (catalog.hierarchy.ancestry typeName).Nodup) :
    (catalog.indexesFor typeName).Perm
      (catalog.indexes.filter fun index => catalog.canScan index typeName) := by
  have within : ∀ index ∈ catalog.indexes.filter fun index => catalog.canScan index typeName,
      index.typeName ∈ catalog.hierarchy.ancestry typeName := fun index member =>
    Hierarchy.isSubtype_iff.mp (List.mem_filter.mp member).2
  have same : catalog.indexesFor typeName =
      (catalog.hierarchy.ancestry typeName).flatMap fun ancestor =>
        (catalog.indexes.filter fun index => catalog.canScan index typeName).filter
          fun index => index.typeName == ancestor := by
    refine List.flatMap_congr fun ancestor above => ?_
    rw [indexesOn, List.filter_filter]
    refine List.filter_congr fun index _ => ?_
    by_cases own : index.typeName = ancestor
    · have scans : catalog.canScan index typeName = true :=
        Hierarchy.isSubtype_iff.mpr (own ▸ above)
      simp [own, scans]
    · simp [own]
  rw [same]
  exact groups_perm Index.typeName distinct within

theorem Declared.indexesFor_ordered (declared : Declared catalog) (typeName : String) :
    (catalog.indexesFor typeName).Pairwise (catalog.ListedBefore typeName) := by
  have registered := declared.registered
  refine List.pairwise_flatMap.mpr ⟨fun ancestor above => ?_, ?_⟩
  · obtain ⟨distance, reached⟩ :=
      registered.isSubtype_iff_above.mp (Hierarchy.isSubtype_iff.mpr above)
    refine List.pairwise_iff_forall_sublist.mpr fun {first second} inside => ?_
    have onClass : ∀ index ∈ [first, second], index.typeName = ancestor := fun index member =>
      beq_iff_eq.mp (List.mem_filter.mp (inside.subset member)).2
    have ofFirst := onClass first List.mem_cons_self
    have ofSecond := onClass second (List.mem_cons_of_mem _ (List.mem_singleton_self _))
    exact ⟨distance, distance, ofFirst ▸ reached, ofSecond ▸ reached,
      .inr ⟨rfl, inside.trans (List.filter_sublist)⟩⟩
  · refine List.pairwise_iff_getElem.mpr fun near far insideNear insideFar nearer => ?_
    intro first ofFirst second ofSecond
    have firstClass := beq_iff_eq.mp (List.mem_filter.mp ofFirst).2
    have secondClass := beq_iff_eq.mp (List.mem_filter.mp ofSecond).2
    refine ⟨near, far, ?_, ?_, .inl nearer⟩
    · rw [registered.above_iff, firstClass, List.getElem?_eq_getElem insideNear]
    · rw [registered.above_iff, secondClass, List.getElem?_eq_getElem insideFar]

theorem Declared.scanIndex?_eq (declared : Declared catalog) (typeName : String) :
    catalog.scanIndex? typeName =
      if catalog.hierarchy.contains typeName then some (defaultIndex typeName) else none := by
  split
  · rename_i known
    rw [scanIndex?, Hierarchy.ancestry_eq declared.registered known,
      List.findSome?_cons, declared.head?_indexesOn known]
  · rename_i unknown
    rw [scanIndex?, Hierarchy.ancestry_eq_nil_iff.mpr (Bool.eq_false_iff.mpr unknown),
      List.findSome?_nil]

/-! ## The index for an order -/

theorem applies_iff : catalog.Applies typeName index ↔
    ∃ ancestor ∈ catalog.hierarchy.ancestry typeName, index ∈ catalog.indexesOn ancestor := by
  rw [Applies, ← mem_indexesFor_iff, indexesFor, List.mem_flatMap]

theorem order_eq_iff {use : IndexUse} : use.order = key ↔
    use.direction = .ascending ∧ use.index.sortKey = key ∨
      use.direction = .descending ∧ use.index.sortKey = key.reversed := by
  obtain ⟨index, direction⟩ := use
  cases direction with
  | ascending => simp [IndexUse.order]
  | descending =>
    have turned : index.sortKey.reversed = key ↔ index.sortKey = key.reversed :=
      ⟨fun same => same ▸ index.sortKey.reversed_reversed.symm,
        fun same => same ▸ key.reversed_reversed⟩
    simp [IndexUse.order, turned]

/-- What a search finds comes before everything else that it could have found. -/
private theorem find?_before {Item : Type} {wanted : Item → Bool} {items : List Item}
    {found other : Item} (first : items.find? wanted = some found) (member : other ∈ items)
    (fits : wanted other = true) (different : other ≠ found) : [found, other].Sublist items := by
  obtain ⟨_, before, after, rfl, skipped⟩ := List.find?_eq_some_iff_append.mp first
  have behind : other ∈ after := by
    rcases List.mem_append.mp member with passed | rest
    · have unfit := skipped other passed
      rw [fits] at unfit
      cases unfit
    · exact (List.mem_cons.mp rest).resolve_left different
  exact ((List.singleton_sublist.mpr behind).cons_cons found).trans
    (List.sublist_append_right _ _)

theorem indexWithKey?_none : catalog.indexWithKey? typeName key = none ↔
    ∀ index ∈ catalog.indexesOn typeName, index.sortKey ≠ key := by
  simp [indexWithKey?]

theorem ownOrderIndex?_none : catalog.ownOrderIndex? key typeName = none ↔
    ∀ index ∈ catalog.indexesOn typeName, index.sortKey ≠ key ∧ index.sortKey ≠ key.reversed := by
  rw [ownOrderIndex?, Option.or_eq_none_iff, Option.map_eq_none_iff, Option.map_eq_none_iff,
    indexWithKey?_none, indexWithKey?_none]
  exact ⟨fun none index member => ⟨none.1 index member, none.2 index member⟩,
    fun none => ⟨fun index member => (none index member).1, fun index member => (none index member).2⟩⟩

theorem indexWithKey?_some (found : catalog.indexWithKey? typeName key = some index) :
    index ∈ catalog.indexesOn typeName ∧ index.sortKey = key ∧
      ∀ other ∈ catalog.indexesOn typeName, other.sortKey = key → other ≠ index →
        catalog.DeclaredBefore index other := by
  rw [indexWithKey?] at found
  refine ⟨List.mem_of_find?_eq_some found, by simpa using List.find?_some found, ?_⟩
  intro other member same different
  exact (find?_before found member (by simpa using same) different).trans List.filter_sublist

/-- The indexes of one class: a forward scan is preferred, and then the index declared first. -/
theorem ownOrderIndex?_some (found : catalog.ownOrderIndex? key typeName = some use) :
    use.index ∈ catalog.indexesOn typeName ∧ use.order = key ∧
      ∀ other : IndexUse, other.index ∈ catalog.indexesOn typeName → other.order = key →
        other ≠ use → use.direction = .ascending ∧ other.direction = .descending ∨
          use.direction = other.direction ∧ catalog.DeclaredBefore use.index other.index := by
  rcases Option.or_eq_some_iff.mp found with forward | ⟨noForward, backward⟩
  · obtain ⟨index, own, rfl⟩ := Option.map_eq_some_iff.mp forward
    obtain ⟨member, same, first⟩ := indexWithKey?_some own
    refine ⟨member, order_eq_iff.mpr (.inl ⟨rfl, same⟩), fun other listed delivers different => ?_⟩
    rcases order_eq_iff.mp delivers with ⟨ascending, sameKey⟩ | ⟨descending, _⟩
    · refine .inr ⟨ascending.symm, first _ listed sameKey fun sameIndex => different ?_⟩
      rw [← sameIndex, ← ascending]
    · exact .inl ⟨rfl, descending⟩
  · obtain ⟨index, own, rfl⟩ := Option.map_eq_some_iff.mp backward
    obtain ⟨member, same, first⟩ := indexWithKey?_some own
    refine ⟨member, order_eq_iff.mpr (.inr ⟨rfl, same⟩), fun other listed delivers different => ?_⟩
    rcases order_eq_iff.mp delivers with ⟨_, sameKey⟩ | ⟨descending, sameKey⟩
    · exact absurd sameKey (indexWithKey?_none.mp (Option.map_eq_none_iff.mp noForward) _ listed)
    · refine .inr ⟨descending.symm, first _ listed sameKey fun sameIndex => different ?_⟩
      rw [← sameIndex, ← descending]

theorem orderIndex?_none : catalog.orderIndex? typeName key = none ↔
    key = [] ∨ ∀ index, catalog.Applies typeName index →
      index.sortKey ≠ key ∧ index.sortKey ≠ key.reversed := by
  rw [orderIndex?]
  split
  · rename_i empty
    exact iff_of_true rfl (.inl (List.isEmpty_iff.mp empty))
  · rename_i keyed
    rw [List.findSome?_eq_none_iff, or_iff_right (mt List.isEmpty_iff.mpr keyed)]
    simp only [ownOrderIndex?_none, applies_iff]
    exact ⟨fun none index ⟨ancestor, above, own⟩ => none ancestor above index own,
      fun none ancestor above index own => none index ⟨ancestor, above, own⟩⟩

theorem Declared.preferred_of_orderIndex? (declared : Declared catalog)
    (found : catalog.orderIndex? typeName key = some use) :
    key ≠ [] ∧ catalog.Preferred typeName key use := by
  have registered := declared.registered
  rw [orderIndex?] at found
  split at found
  · cases found
  rename_i keyed
  obtain ⟨nearer, ancestor, farther, ancestors, own, skipped⟩ :=
    List.findSome?_eq_some_iff.mp found
  obtain ⟨member, delivers, first⟩ := ownOrderIndex?_some own
  have above : ancestor ∈ catalog.hierarchy.ancestry typeName := by simp [ancestors]
  have useClass := beq_iff_eq.mp (List.mem_filter.mp member).2
  refine ⟨mt List.isEmpty_iff.mpr keyed, applies_iff.mpr ⟨ancestor, above, member⟩, delivers, ?_⟩
  intro other applies sameOrder different
  have reached : catalog.hierarchy.Above typeName nearer.length use.index.typeName := by
    rw [registered.above_iff, ancestors, useClass]
    simp
  obtain ⟨otherAncestor, otherAbove, otherOwn⟩ := applies_iff.mp applies
  have otherClass := beq_iff_eq.mp (List.mem_filter.mp otherOwn).2
  obtain ⟨far, otherReached⟩ :=
    registered.isSubtype_iff_above.mp (Hierarchy.isSubtype_iff.mpr otherAbove)
  refine ⟨nearer.length, far, reached, otherClass ▸ otherReached, ?_⟩
  rw [registered.above_iff, ancestors] at otherReached
  rcases Nat.lt_trichotomy nearer.length far with less | same | more
  · exact .inl less
  · subst same
    obtain rfl : ancestor = otherAncestor := by simpa using otherReached
    exact .inr ⟨rfl, first other otherOwn sameOrder different⟩
  · -- a nearer class with a match would have ended the search
    rw [List.getElem?_append_left more] at otherReached
    have none := ownOrderIndex?_none.mp (skipped otherAncestor (List.mem_of_getElem? otherReached))
    rcases order_eq_iff.mp sameOrder with ⟨_, same⟩ | ⟨_, same⟩
    · exact absurd same (none other.index otherOwn).1
    · exact absurd same (none other.index otherOwn).2

/-! ## One preferred scan -/

/-- Items that do not repeat stand in one order. -/
private theorem pair_sublist_asymm {Item : Type} {items : List Item} {first second : Item}
    (distinct : items.Nodup) (forth : [first, second].Sublist items) :
    ¬[second, first].Sublist items := by
  intro back
  induction items with
  | nil => cases forth
  | cons item rest ih =>
    obtain ⟨fresh, distinct⟩ := List.nodup_cons.mp distinct
    rcases List.sublist_cons_iff.mp forth with inRest | ⟨_, same, behind⟩ <;>
      rcases List.sublist_cons_iff.mp back with inRestToo | ⟨_, sameToo, behindToo⟩
    · exact ih distinct inRest inRestToo
    · obtain ⟨rfl, rfl⟩ := List.cons.inj sameToo
      exact fresh (inRest.subset (by simp))
    · obtain ⟨rfl, rfl⟩ := List.cons.inj same
      exact fresh (inRestToo.subset (by simp))
    · obtain ⟨rfl, rfl⟩ := List.cons.inj same
      obtain ⟨rfl, _⟩ := List.cons.inj sameToo
      exact fresh (behind.subset (by simp))

theorem Declared.preferredTo_asymm (declared : Declared catalog)
    (forth : catalog.PreferredTo typeName use other) :
    ¬catalog.PreferredTo typeName other use := by
  rintro ⟨near, far, otherReached, useReached, nearer⟩
  obtain ⟨ownNear, ownFar, reached, reachedToo, ownNearer⟩ := forth
  have registered := declared.registered
  obtain rfl := registered.above_unique reached useReached
  obtain rfl := registered.above_unique reachedToo otherReached
  rcases ownNearer with less | ⟨rfl, decides⟩
  · rcases nearer with more | ⟨same, _⟩ <;> omega
  have decidesToo := (nearer.resolve_left (Nat.lt_irrefl _)).2
  rcases decides with ⟨forward, backward⟩ | ⟨same, before⟩ <;>
    rcases decidesToo with ⟨forwardToo, backwardToo⟩ | ⟨sameToo, after⟩
  · cases backward.symm.trans forwardToo
  · cases backward.symm.trans (sameToo.trans forward)
  · cases backwardToo.symm.trans (same.trans forwardToo)
  · exact pair_sublist_asymm declared.nodup before after

theorem Declared.exact (declared : Declared catalog) (typeName : String) :
    catalog.Exact typeName := by
  have listed := indexesFor_perm (declared.registered.lawful.distinct typeName)
  refine ⟨listed, listed.nodup_iff.mpr (declared.nodup.filter _),
    declared.indexesFor_ordered typeName, declared.scanIndex?_eq typeName,
    fun key => orderIndex?_none, fun key use => ⟨declared.preferred_of_orderIndex?, ?_⟩⟩
  rintro ⟨keyed, preferred⟩
  cases found : catalog.orderIndex? typeName key with
  | none =>
    have none := (orderIndex?_none.mp found).resolve_left keyed use.index preferred.applies
    rcases order_eq_iff.mp preferred.delivers with ⟨_, same⟩ | ⟨_, same⟩
    · exact absurd same none.1
    · exact absurd same none.2
  | some other =>
    obtain ⟨_, best⟩ := declared.preferred_of_orderIndex? found
    by_contra different
    have different : other ≠ use := fun same => different (congrArg some same)
    exact declared.preferredTo_asymm
      (preferred.first other best.applies best.delivers different)
      (best.first use preferred.applies preferred.delivers different.symm)

/-! ## Tables of the indexes -/

/-- Finite maps from names, classes, and classes with sort keys. -/
structure Tables where
  byName : Std.HashMap String Index
  byType : Std.HashMap String (List Index)
  byKey : Std.HashMap (String × SortKey) Index

namespace Tables

def empty : Tables := ⟨∅, ∅, ∅⟩

def indexesOn (tables : Tables) (typeName : String) : List Index :=
  tables.byType.getD typeName []

/-- Enters an index. A name keeps the latest index, a class all of its own, and a class with a sort
key the first. -/
def enter (tables : Tables) (index : Index) : Tables where
  byName := tables.byName.insert index.name index
  byType := tables.byType.insert index.typeName (tables.indexesOn index.typeName ++ [index])
  byKey := tables.byKey.insertIfNew (index.typeName, index.sortKey) index

def ofIndexes (indexes : List Index) : Tables := indexes.foldl enter empty

/-- The indexes that can scan the class, looked up class by class. -/
def indexesFor (tables : Tables) (hierarchy : Hierarchy) (typeName : String) : List Index :=
  (hierarchy.ancestry typeName).flatMap tables.indexesOn

def scanIndex? (tables : Tables) (hierarchy : Hierarchy) (typeName : String) : Option Index :=
  (hierarchy.ancestry typeName).findSome? fun ancestor => (tables.indexesOn ancestor).head?

/-- The index for an order, looked up on each class by the key and then by the reversed key. -/
def orderIndex? (tables : Tables) (hierarchy : Hierarchy) (typeName : String) (key : SortKey) :
    Option IndexUse :=
  if key.isEmpty then none
  else (hierarchy.ancestry typeName).findSome? fun ancestor =>
    (tables.byKey[(ancestor, key)]?.map (IndexUse.mk · .ascending)).or
      (tables.byKey[(ancestor, key.reversed)]?.map (IndexUse.mk · .descending))

/-- The tables hold what searches of the indexes find. -/
structure Agrees (tables : Tables) (catalog : Catalog) : Prop where
  byName : ∀ name, tables.byName[name]? = catalog.find? name
  byType : ∀ typeName, tables.indexesOn typeName = catalog.indexesOn typeName
  byKey : ∀ typeName key, tables.byKey[(typeName, key)]? = catalog.indexWithKey? typeName key

theorem Agrees.enter {tables : Tables} (agrees : tables.Agrees catalog) (index : Index) :
    (tables.enter index).Agrees { catalog with indexes := catalog.indexes ++ [index] } where
  byName := by
    intro name
    rw [Tables.enter, Std.HashMap.getElem?_insert, find?, List.filter_append, agrees.byName]
    by_cases same : index.name = name
    · simp [same]
    · simp [same, find?]
  byType := by
    intro typeName
    rw [indexesOn, Tables.enter, Std.HashMap.getD_insert, Catalog.indexesOn, List.filter_append,
      agrees.byType]
    by_cases same : index.typeName = typeName
    · simp [same, Catalog.indexesOn]
    · simpa [same, indexesOn, Catalog.indexesOn] using agrees.byType typeName
  byKey := by
    intro typeName key
    have later : { catalog with indexes := catalog.indexes ++ [index] }.indexWithKey? typeName key =
        (catalog.indexWithKey? typeName key).or
          (if (index.typeName, index.sortKey) = (typeName, key) then some index else none) := by
      rw [indexWithKey?, Catalog.indexesOn, List.filter_append, List.find?_append, indexWithKey?,
        Catalog.indexesOn]
      by_cases ofType : index.typeName = typeName <;> by_cases ofKey : index.sortKey = key <;>
        simp [ofType, ofKey]
    have entered : (typeName, key) ∈ tables.byKey ↔
        (catalog.indexWithKey? typeName key).isSome = true := by
      rw [Std.HashMap.mem_iff_isSome_getElem?, agrees.byKey]
    rw [later, Tables.enter, Std.HashMap.getElem?_insertIfNew]
    by_cases same : (index.typeName, index.sortKey) = (typeName, key)
    · rw [if_pos same, same]
      cases found : catalog.indexWithKey? typeName key with
      | none => simp [entered, found]
      | some first =>
        have taken : (typeName, key) ∈ tables.byKey := entered.mpr (by rw [found, Option.isSome_some])
        rw [if_neg fun both => both.2 taken, agrees.byKey, found, Option.some_or]
    · rw [if_neg same, if_neg fun both => same (beq_iff_eq.mp both.1), agrees.byKey,
        Option.or_none]

/-- One pass over the indexes of a catalog fills tables that agree with its searches. -/
theorem agrees (catalog : Catalog) : (ofIndexes catalog.indexes).Agrees catalog := by
  obtain ⟨generation, hierarchy, indexes⟩ := catalog
  induction indexes using List.reverseRecOn with
  | nil =>
    refine ⟨fun _ => Std.HashMap.getElem?_empty, fun _ => Std.HashMap.getD_empty, fun _ _ => ?_⟩
    exact Std.HashMap.getElem?_empty
  | append_singleton indexes index ih =>
    rw [ofIndexes, List.foldl_append]
    exact ih.enter index

/-- Look-ups by name and along the ancestors of a class find what the searches of the catalog
find. -/
structure Finds (tables : Tables) (catalog : Catalog) : Prop where
  find? : ∀ name, tables.byName[name]? = catalog.find? name
  indexesFor : ∀ typeName,
    tables.indexesFor catalog.hierarchy typeName = catalog.indexesFor typeName
  scanIndex? : ∀ typeName,
    tables.scanIndex? catalog.hierarchy typeName = catalog.scanIndex? typeName
  orderIndex? : ∀ typeName key,
    tables.orderIndex? catalog.hierarchy typeName key = catalog.orderIndex? typeName key

theorem Agrees.finds {tables : Tables} (agrees : tables.Agrees catalog) : tables.Finds catalog := by
  have own : tables.indexesOn = catalog.indexesOn := funext agrees.byType
  refine ⟨agrees.byName, fun typeName => ?_, fun typeName => ?_, fun typeName key => ?_⟩
  · rw [Tables.indexesFor, own, Catalog.indexesFor]
  · rw [Tables.scanIndex?, own, Catalog.scanIndex?]
  · have onClass : catalog.ownOrderIndex? key = fun ancestor =>
        (tables.byKey[(ancestor, key)]?.map (IndexUse.mk · .ascending)).or
          (tables.byKey[(ancestor, key.reversed)]?.map (IndexUse.mk · .descending)) := by
      funext ancestor
      rw [agrees.byKey, agrees.byKey, ownOrderIndex?]
    rw [Tables.orderIndex?, Catalog.orderIndex?, onClass]

end Tables

/-- Whatever has been declared, and whatever attempts have failed: the indexes are those of the
declarations that succeeded, in their order; the searches for indexes of a class are exact; and so
are look-ups in the tables that one pass over the indexes fills. -/
theorem searches_exact (generation : Nat) (history : List Declaration) :
    (empty generation).declareAll ((empty generation).accepted history) =
        (empty generation).declareAll history ∧
      ((empty generation).declareAll history).indexes =
        ((empty generation).accepted history).map Declaration.added ∧
      (∀ typeName, ((empty generation).declareAll history).Exact typeName) ∧
      (Tables.ofIndexes ((empty generation).declareAll history).indexes).Finds
        ((empty generation).declareAll history) := by
  obtain ⟨same, indexes⟩ := declareAll_accepted (empty generation) history
  exact ⟨same, indexes, ((Declared.empty generation).declareAll history).exact,
    (Tables.agrees _).finds⟩

/-- An index of employees by falling age. -/
def employeesByAge : Index := ⟨"EmployeeAge", "Employee", [⟨"age", .descending, .integer⟩]⟩

/-- Persons have two indexes by rising age; three declarations fail. -/
def agesHistory : List Declaration :=
  [.type "Person" none, .index "PersonAge" "Person" [⟨"age", .ascending, .integer⟩],
    .type "Ghost" (some "Spirit"), .type "Employee" (some "Person"),
    .index "PersonAge" "Employee" [⟨"age", .ascending, .integer⟩],
    .index employeesByAge.name employeesByAge.typeName employeesByAge.columns,
    .index "AgeAgain" "Person" [⟨"age", .ascending, .unsigned⟩], .type "Person" none]

/-- Employees by rising age are read backwards from their own index, although an index of persons
has them forwards. -/
theorem searches_exact_ages :
    ((empty 7).accepted agesHistory).length = 5 ∧
      (((empty 7).declareAll agesHistory).indexesFor "Employee").map (·.name) =
        ["Employee.auto", "EmployeeAge", "Person.auto", "PersonAge", "AgeAgain"] ∧
      ((empty 7).declareAll agesHistory).Preferred "Employee" [("age", .ascending)]
        ⟨employeesByAge, .descending⟩ ∧
      (Tables.ofIndexes ((empty 7).declareAll agesHistory).indexes).orderIndex?
          ((empty 7).declareAll agesHistory).hierarchy "Employee" [("age", .ascending)] =
        some ⟨employeesByAge, .descending⟩ := by
  obtain ⟨_, _, exact, finds⟩ := searches_exact 7 agesHistory
  have found : ((empty 7).declareAll agesHistory).orderIndex? "Employee" [("age", .ascending)] =
      some ⟨employeesByAge, .descending⟩ := by decide
  refine ⟨by decide, by decide, (((exact "Employee").preferred _ _).mp found).2, ?_⟩
  rw [finds.orderIndex?, found]

end Catalog

end ExtentPlanner
