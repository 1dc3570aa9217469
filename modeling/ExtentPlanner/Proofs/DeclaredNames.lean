import ExtentPlanner.Proofs.ClassOrder
import ExtentPlanner.Proofs.Histories
import Mathlib.Data.List.Perm.Basic

/-! Index names in a catalog. An index is declared under a name that is free, but a class takes the
name of its default index even if another index has it. The searches of a catalog agree with each
other as long as this does not happen: `views_agree_iff`. Whatever happens, an index that is found
by name is one of those declared on its class. -/
namespace ExtentPlanner

/-! ## Names without repetition -/

theorem eraseDups_of_nodup {names : List String} (distinct : names.Nodup) :
    names.eraseDups = names := by
  induction names with
  | nil => rfl
  | cons name rest ih =>
    obtain ⟨fresh, distinct⟩ := List.nodup_cons.mp distinct
    have others : rest.filter (fun other => !other == name) = rest := by
      apply List.filter_eq_self.mpr
      intro other member
      simpa using ne_of_mem_of_not_mem member fresh
    rw [List.eraseDups_cons, others, ih distinct]

/-- Items sorted into groups by a key are the items, if no key has two groups. -/
theorem groups_perm {Item Key : Type} [DecidableEq Key] (key : Item → Key) {keys : List Key}
    {items : List Item} (distinct : keys.Nodup) (within : ∀ item ∈ items, key item ∈ keys) :
    (keys.flatMap fun wanted => items.filter fun item => key item == wanted).Perm items := by
  induction keys generalizing items with
  | nil =>
    have none : items = [] := List.eq_nil_iff_forall_not_mem.mpr fun item member => by
      cases within item member
    rw [none]
    exact .refl []
  | cons first rest ih =>
    obtain ⟨fresh, distinct⟩ := List.nodup_cons.mp distinct
    let others := items.filter fun item => !(key item == first)
    have inRest : ∀ item ∈ others, key item ∈ rest := by
      intro item member
      obtain ⟨listed, different⟩ := List.mem_filter.mp member
      exact (List.mem_cons.mp (within item listed)).resolve_left (by simpa using different)
    have sameGroups : (rest.flatMap fun wanted => items.filter fun item => key item == wanted) =
        rest.flatMap fun wanted => others.filter fun item => key item == wanted := by
      apply List.flatMap_congr
      intro wanted member
      rw [List.filter_filter]
      apply List.filter_congr
      intro item _
      by_cases here : key item = wanted
      · have apart : wanted ≠ first := ne_of_mem_of_not_mem member fresh
        simp [here, apart]
      · simp [here]
    rw [List.flatMap_cons, sameGroups]
    exact ((ih distinct inRest).append_left _).trans (List.filter_append_perm _ items)

namespace Catalog

variable {catalog next : Catalog}

/-! ## Histories of declarations -/

/-- What can be declared in a catalog. -/
inductive Declaration where
  | type (name : String) (parent? : Option String)
  | index (name typeName : String) (columns : List IndexColumn)

def declare (catalog : Catalog) : Declaration → Planned Catalog
  | .type name parent? => catalog.declareType name parent?
  | .index name typeName columns => catalog.declareIndex name typeName columns

/-- Attempts to make declarations from left to right. -/
def declareAll (catalog : Catalog) (history : List Declaration) : Catalog :=
  history.foldl (attempt declare) catalog

/-- A class is registered although the name of its default index is in use. -/
def Seizes (catalog : Catalog) : Declaration → Prop
  | .type name parent? => catalog.hasIndex (defaultIndex name).name = true ∧
      ∃ next, catalog.declareType name parent? = .ok next
  | .index .. => False

theorem Declared.declareAll (declared : Declared catalog) (history : List Declaration) :
    Declared (catalog.declareAll history) := by
  apply attempts_keep (fun before declaration next declared ran => ?_) declared history
  cases declaration with
  | type name parent? => exact .type declared ran
  | index name typeName columns => exact .index declared ran

theorem hasIndex_iff : catalog.hasIndex name = true ↔ name ∈ catalog.indexes.map (·.name) := by
  simp [hasIndex]

/-- An index is only declared on a registered class and under a free name. -/
theorem free_of_declareIndex (ran : catalog.declareIndex name typeName columns = .ok next) :
    catalog.hierarchy.contains typeName = true ∧ name ∉ catalog.indexes.map (·.name) := by
  unfold declareIndex at ran
  split at ran
  · cases ran
  rename_i known
  split at ran
  · cases ran
  rename_i free
  exact ⟨by simpa using known, mt hasIndex_iff.mpr free⟩

private theorem nodup_snoc {names : List String} :
    (names ++ [name]).Nodup ↔ names.Nodup ∧ name ∉ names := by
  rw [List.nodup_append_comm, List.singleton_append, List.nodup_cons, and_comm]

/-- One declaration keeps names apart unless it is that of a class which seizes one. -/
theorem names_attempt (catalog : Catalog) (declaration : Declaration) :
    ((attempt declare catalog declaration).indexes.map (·.name)).Nodup ↔
      (catalog.indexes.map (·.name)).Nodup ∧ ¬catalog.Seizes declaration := by
  rcases attempt_cases declare catalog declaration with ⟨failure, failed, same⟩ | ran
  · have seizesNothing : ¬catalog.Seizes declaration := by
      cases declaration with
      | type name parent? =>
        rintro ⟨_, next, ran⟩
        cases failed.symm.trans ran
      | index name typeName columns => exact id
    rw [same]
    exact (and_iff_left seizesNothing).symm
  · cases declaration with
    | type name parent? =>
      rw [(declareType_ok ran).2, List.map_append, List.map_singleton, nodup_snoc]
      refine and_congr_right fun _ => not_congr ?_
      rw [Seizes, hasIndex_iff]
      exact (and_iff_left ⟨_, ran⟩).symm
    | index name typeName columns =>
      rw [declareIndex_ok ran, List.map_append, List.map_singleton, nodup_snoc]
      exact and_congr_right fun _ => iff_of_true (free_of_declareIndex ran).2 id

theorem names_declareAll (catalog : Catalog) (history : List Declaration) :
    ((catalog.declareAll history).indexes.map (·.name)).Nodup ↔
      (catalog.indexes.map (·.name)).Nodup ∧
        ¬Happens (attempt declare) Seizes catalog history := by
  induction history generalizing catalog with
  | nil => exact (and_iff_left not_happens_nil).symm
  | cons declaration rest ih =>
    rw [declareAll, List.foldl_cons, ← declareAll, ih, names_attempt, happens_cons, not_or,
      and_assoc]

/-! ## Views of a catalog -/

/-- The indexes declared on the classes, class by class. -/
def ownIndexes (catalog : Catalog) : List Index :=
  catalog.hierarchy.definitions.flatMap fun definition => catalog.indexesOn definition.name

/-- Every index is declared on a registered class. -/
theorem Declared.typeKnown {index : Index} (declared : Declared catalog)
    (member : index ∈ catalog.indexes) :
    catalog.hierarchy.contains index.typeName = true := by
  induction declared with
  | empty generation => cases member
  | type _ ran ih =>
    obtain ⟨registered, added⟩ := declareType_ok ran
    apply (Hierarchy.contains_register registered).mpr
    rw [added] at member
    rcases List.mem_append.mp member with older | new
    · exact .inr (ih older)
    · rw [List.mem_singleton.mp new]
      exact .inl rfl
  | index _ ran ih =>
    have known := (free_of_declareIndex ran).1
    rw [declareIndex_ok ran] at member ⊢
    rcases List.mem_append.mp member with older | new
    · exact ih older
    · rw [List.mem_singleton.mp new]
      exact known

theorem Declared.ownIndexes_perm (declared : Declared catalog) :
    catalog.ownIndexes.Perm catalog.indexes := by
  have grouped := groups_perm Index.typeName declared.distinct
    fun index member => Hierarchy.contains_iff.mp (declared.typeKnown member)
  rwa [List.flatMap_map] at grouped

/-- The index found by a name is declared under it. -/
theorem find?_some (found : catalog.find? name = some index) :
    index ∈ catalog.indexes ∧ index.name = name := by
  obtain ⟨listed, named⟩ := List.mem_filter.mp (List.mem_of_getLast? found)
  exact ⟨listed, by simpa using named⟩

theorem find?_of_distinct (distinct : (catalog.indexes.map (·.name)).Nodup)
    (member : index ∈ catalog.indexes) : catalog.find? index.name = some index := by
  have inside : index ∈ catalog.indexes.filter fun other => other.name == index.name :=
    List.mem_filter.mpr ⟨member, beq_self_eq_true _⟩
  cases found : catalog.find? index.name with
  | none =>
    rw [find?, List.getLast?_eq_none_iff] at found
    rw [found] at inside
    cases inside
  | some other =>
    obtain ⟨listed, sameName⟩ := find?_some found
    rw [List.inj_on_of_nodup_map distinct listed member sameName]

/-- What the searches of a catalog owe to each other. -/
structure ViewsAgree (catalog : Catalog) : Prop where
  distinct : (catalog.ownIndexes.map (·.name)).Nodup
  named : ∀ typeName, ∀ index ∈ catalog.indexesOn typeName,
    catalog.find? index.name = some index
  own : ∀ name index, catalog.find? name = some index →
    index ∈ catalog.indexesOn index.typeName ∧
      catalog.hierarchy.contains index.typeName = true
  counted : catalog.size = catalog.ownIndexes.length

theorem Declared.own {index : Index} (declared : Declared catalog)
    (found : catalog.find? name = some index) :
    index ∈ catalog.indexesOn index.typeName ∧
      catalog.hierarchy.contains index.typeName = true := by
  obtain ⟨member, _⟩ := find?_some found
  exact ⟨List.mem_filter.mpr ⟨member, beq_self_eq_true _⟩, declared.typeKnown member⟩

/-- The searches of a catalog agree exactly if every index has a name of its own. -/
theorem Declared.viewsAgree_iff (declared : Declared catalog) :
    catalog.ViewsAgree ↔ (catalog.indexes.map (·.name)).Nodup := by
  have sameNames := declared.ownIndexes_perm.map (·.name)
  constructor
  · intro agree
    exact sameNames.nodup_iff.mp agree.distinct
  · intro distinct
    refine ⟨sameNames.nodup_iff.mpr distinct, ?_, fun _ _ => declared.own, ?_⟩
    · intro typeName index member
      exact find?_of_distinct distinct (List.mem_filter.mp member).1
    · rw [size, eraseDups_of_nodup distinct, List.length_map, declared.ownIndexes_perm.length_eq]

/-- The searches of a catalog agree exactly if no class was registered when the name of its default
index was in use. In any case an index that is found by name belongs to its class. -/
theorem views_agree_iff (generation : Nat) (history : List Declaration) :
    (((empty generation).declareAll history).ViewsAgree ↔
        ¬Happens (attempt declare) Seizes (empty generation) history) ∧
      ∀ name index, ((empty generation).declareAll history).find? name = some index →
        index ∈ ((empty generation).declareAll history).indexesOn index.typeName ∧
          ((empty generation).declareAll history).hierarchy.contains index.typeName = true := by
  have declared := (Declared.empty generation).declareAll history
  refine ⟨?_, fun _ _ => declared.own⟩
  rw [declared.viewsAgree_iff, names_declareAll]
  exact and_iff_right List.nodup_nil

/-- Persons and employees with an index by age; three declarations fail, as their name is in use or
their class is not registered. -/
def staffHistory : List Declaration :=
  [.index "PersonAge" "Person" [⟨"age", .ascending, .integer⟩], .type "Person" none,
    .index "Person.auto" "Person" [⟨"age", .ascending, .integer⟩],
    .index "PersonAge" "Person" [⟨"age", .ascending, .integer⟩],
    .type "Employee" (some "Person"), .index "PersonAge" "Employee" []]

/-- The searches for persons and employees agree, and the index found by its name is the one by
age. -/
theorem views_agree_on_staff :
    ((empty 3).declareAll staffHistory).ViewsAgree ∧
      ((empty 3).declareAll staffHistory).size = 3 ∧
      (⟨"PersonAge", "Person", [⟨"age", .ascending, .integer⟩]⟩ : Index) ∈
        ((empty 3).declareAll staffHistory).indexesOn "Person" := by
  obtain ⟨agree, own⟩ := views_agree_iff 3 staffHistory
  have free := ((names_declareAll (empty 3) staffHistory).mp (by decide)).2
  exact ⟨agree.mpr free, by decide, (own "PersonAge" _ rfl).1⟩

/-- Animals get an index under the name that the default index of cats is going to have. -/
def seizedHistory : List Declaration :=
  [.type "Animal" none, .index "Cat.auto" "Animal" [⟨"name", .ascending, .string⟩],
    .type "Cat" (some "Animal")]

/-- Two indexes have the seized name: a search by name misses that of the animals, and one index
less is counted than the classes have. -/
theorem views_disagree_on_seized_name :
    ¬((empty 0).declareAll seizedHistory).ViewsAgree ∧
      ((empty 0).declareAll seizedHistory).find? "Cat.auto" = some (defaultIndex "Cat") ∧
      (⟨"Cat.auto", "Animal", [⟨"name", .ascending, .string⟩]⟩ : Index) ∈
        ((empty 0).declareAll seizedHistory).indexesOn "Animal" ∧
      ((empty 0).declareAll seizedHistory).size = 2 ∧
      ((empty 0).declareAll seizedHistory).ownIndexes.length = 3 := by
  refine ⟨fun agree => ?_, by decide, by decide, by decide, by decide⟩
  exact absurd agree.distinct (by decide)

end Catalog

end ExtentPlanner
