import ExtentPlanner.Proofs.Success
import ExtentPlanner.Proofs.WrittenJson
import ExtentPlanner.Settings.Document
import ExtentPlanner.Settings.Environment

/-! Settings that are written to a document are read back from it, and whatever is read, from a
document or from the environment, allows some join order. A document cannot even hold a count of
join orders that needs more than 64 bits, so what was read from one document can be written to
another. The environment only replaces the settings whose variables are set; the rule that some join
order is allowed is checked on what comes out, wherever a zero has come from. -/
namespace ExtentPlanner.Settings

open Json (Member objectText)

/-- Settings that can be used, with a count that fits 64 bits. -/
structure Usable (settings : Settings) : Prop where
  positive : 0 < settings.maxJoinOrders
  fits : settings.maxJoinOrders < UInt64.size

theorem validate_succeeds {settings checked : Settings} :
    settings.validate = .ok checked ↔ checked = settings ∧ 0 < settings.maxJoinOrders := by
  rw [validate, Nat.pos_iff_ne_zero]
  split <;> simp [*, eq_comm]

/-! ## What is written -/

def countMember (name : String) (count : Nat) : Member :=
  ⟨name.toList, Nat.toDigits 10 count, .number (Nat.toDigits 10 count)⟩

def flagMember (name : String) (flag : Bool) : Member :=
  ⟨name.toList, (boolText flag).toList, .bool flag⟩

theorem countMember_readable {name : String}
    (plain : ∀ character ∈ name.toList, Json.Plain character) (count : Nat) :
    (countMember name count).Readable := ⟨plain, Json.writes_count count⟩

theorem flagMember_readable {name : String}
    (plain : ∀ character ∈ name.toList, Json.Plain character) (flag : Bool) :
    (flagMember name flag).Readable := by
  refine ⟨plain, ?_⟩
  have writes := Json.writes_bool flag
  cases flag <;> exact writes

theorem document_eq_objectText (settings : Settings) :
    settings.document = String.ofList
      (objectText (countMember maxJoinOrdersName settings.maxJoinOrders)
        [flagMember generatedFiltersName settings.generatedFilters,
          flagMember orderedScansName settings.orderedScans]) := by
  apply String.toList_injective
  simp [document, memberText, objectText, Json.othersText, Member.text, countMember, flagMember]

theorem names_plain :
    (∀ character ∈ maxJoinOrdersName.toList, Json.Plain character) ∧
      (∀ character ∈ generatedFiltersName.toList, Json.Plain character) ∧
      ∀ character ∈ orderedScansName.toList, Json.Plain character := by
  simp [maxJoinOrdersName, generatedFiltersName, orderedScansName, Json.Plain]

theorem read?_document (settings : Settings) :
    Json.read? settings.document =
      some (.object [(some maxJoinOrdersName, .number (Nat.toDigits 10 settings.maxJoinOrders)),
        (some generatedFiltersName, .bool settings.generatedFilters),
        (some orderedScansName, .bool settings.orderedScans)]) := by
  rw [document_eq_objectText, Json.read?_objectText]
  · simp [Member.content, countMember, flagMember]
  · obtain ⟨first, second, third⟩ := names_plain
    simp only [List.forall_mem_cons]
    exact ⟨countMember_readable first _, flagMember_readable second _,
      flagMember_readable third _, fun _ none => absurd none List.not_mem_nil⟩

theorem joinOrderCount?_toDigits {count : Nat} (fits : count < UInt64.size) :
    joinOrderCount? (.number (Nat.toDigits 10 count)) = some count := by
  rw [joinOrderCount?, Json.count?_toDigits, Option.filter_some, if_pos (decide_eq_true fits)]

theorem ofDocument_document {settings : Settings} (usable : settings.Usable) :
    ofDocument settings.document = .ok settings := by
  have given : given? (.object [(some maxJoinOrdersName,
        .number (Nat.toDigits 10 settings.maxJoinOrders)),
      (some generatedFiltersName, .bool settings.generatedFilters),
      (some orderedScansName, .bool settings.orderedScans)]) =
      some ⟨some settings.maxJoinOrders, some settings.generatedFilters,
        some settings.orderedScans⟩ := by
    have count := joinOrderCount?_toDigits usable.fits
    have apart : generatedFiltersName ≠ maxJoinOrdersName ∧ orderedScansName ≠ maxJoinOrdersName ∧
      orderedScansName ≠ generatedFiltersName := by decide
    simp [given?, readMember?, giveOnce?, count, Given.none, Json.bool?, apart]
  rw [ofDocument, read?_document, Option.bind_some, given]
  exact validate_succeeds.mpr ⟨rfl, usable.positive⟩

/-! ## What is read -/

/-- A count that was given fits 64 bits. -/
def Given.Fits (given : Given) : Prop :=
  ∀ count, given.maxJoinOrders? = some count → count < UInt64.size

theorem joinOrderCount?_fits {value : Json} {count : Nat}
    (read : joinOrderCount? value = some count) : count < UInt64.size := by
  rw [joinOrderCount?, Option.filter_eq_some_iff] at read
  exact of_decide_eq_true read.2

theorem giveOnce?_value {α : Type} {already? value? given? : Option α}
    (gave : giveOnce? already? value? = some given?) : given? = value? := by
  unfold giveOnce? at gave
  split at gave
  · cases gave
    rfl
  · cases gave

theorem readMember?_fits {given next : Given} {member : Option String × Json} (fits : given.Fits)
    (read : readMember? given member = some next) : next.Fits := by
  obtain ⟨name?, value⟩ := member
  cases name? with
  | none => cases read
  | some name =>
    rw [readMember?] at read
    -- Only the member that gives the count gives another one.
    by_cases counts : name = maxJoinOrdersName
    · rw [if_pos counts, Option.map_eq_some_iff] at read
      obtain ⟨given?, gave, rfl⟩ := read
      intro count there
      exact joinOrderCount?_fits ((giveOnce?_value gave).symm.trans there)
    · rw [if_neg counts] at read
      have same : next.maxJoinOrders? = given.maxJoinOrders? := by
        split at read
        · obtain ⟨_, _, rfl⟩ := Option.map_eq_some_iff.mp read
          rfl
        · split at read
          · obtain ⟨_, _, rfl⟩ := Option.map_eq_some_iff.mp read
            rfl
          · cases read
            rfl
      rwa [Given.Fits, same]

theorem readMembers?_fits {given next : Given} {members : List (Option String × Json)}
    (fits : given.Fits) (read : members.foldlM readMember? given = some next) : next.Fits := by
  induction members generalizing given with
  | nil =>
    cases read
    exact fits
  | cons member rest ih =>
    rw [List.foldlM_cons] at read
    obtain ⟨middle, first, others⟩ := Option.bind_eq_some_iff.mp read
    exact ih (readMember?_fits fits first) others

/-- However many elements follow, the first one is the count. -/
theorem readElements?_first {first : Json} {rest : List Json} {given : Given}
    (read : readElements? (first :: rest) = some given) :
    ∃ count, joinOrderCount? first = some count ∧ given.maxJoinOrders? = some count := by
  rcases rest with _ | ⟨second, _ | ⟨third, _ | ⟨fourth, rest⟩⟩⟩
  · obtain ⟨count, counted, ⟨⟩⟩ := Option.bind_eq_some_iff.mp read
    exact ⟨count, counted, rfl⟩
  · obtain ⟨count, counted, read⟩ := Option.bind_eq_some_iff.mp read
    obtain ⟨_, _, ⟨⟩⟩ := Option.bind_eq_some_iff.mp read
    exact ⟨count, counted, rfl⟩
  · obtain ⟨count, counted, read⟩ := Option.bind_eq_some_iff.mp read
    obtain ⟨_, _, read⟩ := Option.bind_eq_some_iff.mp read
    obtain ⟨_, _, ⟨⟩⟩ := Option.bind_eq_some_iff.mp read
    exact ⟨count, counted, rfl⟩
  · cases read

theorem readElements?_fits {elements : List Json} {given : Given}
    (read : readElements? elements = some given) : given.Fits := by
  intro count there
  cases elements with
  | nil =>
    cases read
    cases there
  | cons first rest =>
    obtain ⟨_, counted, given⟩ := readElements?_first read
    cases given.symm.trans there
    exact joinOrderCount?_fits counted

theorem given?_fits {value : Json} {given : Given} (read : given? value = some given) :
    given.Fits := by
  cases value with
  | object members =>
    have nothing : Given.none.Fits := by rintro count ⟨⟩
    exact readMembers?_fits nothing read
  | array elements => exact readElements?_fits read
  | null | bool _ | number _ | text _ => cases read

/-- Whatever a document has, the settings read from it can be used. -/
theorem ofDocument_usable {document : String} {settings : Settings}
    (read : ofDocument document = .ok settings) : settings.Usable := by
  rw [ofDocument] at read
  split at read
  · rename_i given found
    obtain ⟨json, _, found⟩ := Option.bind_eq_some_iff.mp found
    obtain ⟨rfl, positive⟩ := validate_succeeds.mp read
    have fits : given.Fits := given?_fits found
    refine ⟨positive, ?_⟩
    rw [Given.complete]
    cases there : given.maxJoinOrders? with
    | none => exact (by decide : standard.maxJoinOrders < UInt64.size)
    | some count => exact fits count there
  · cases read

/-! ## The environment -/

/-- A value is kept if its variable is not set, and else becomes what is read from the variable. -/
inductive Overrides {α : Type} (read? : String → Option α) (current : α) :
    Option String → α → Prop where
  | kept : Overrides read? current none current
  | replaced {value : String} {other : α} (read : read? value = some other) :
    Overrides read? current (some value) other

theorem override_succeeds {α : Type} {read? : String → Option α} {fault : String → PlanError}
    {current other : α} {value? : Option String} :
    override read? fault current value? = .ok other ↔ Overrides read? current value? other := by
  constructor
  · intro ran
    cases value? with
    | none =>
      cases ran
      exact .kept
    | some value =>
      rw [override] at ran
      split at ran
      · rename_i read
        cases ran
        exact .replaced read
      · cases ran
  · rintro (_ | read)
    · rfl
    · simp only [override, read]

/-- Each setting is kept or replaced as its own variable has it. -/
structure Loads (base : Settings) (environment : String → Option String) (loaded : Settings) :
    Prop where
  maxJoinOrders : Overrides countOfText? base.maxJoinOrders (environment maxJoinOrdersVariable)
    loaded.maxJoinOrders
  generatedFilters : Overrides flagOfText? base.generatedFilters
    (environment generatedFiltersVariable) loaded.generatedFilters
  orderedScans : Overrides flagOfText? base.orderedScans (environment orderedScansVariable)
    loaded.orderedScans

theorem withEnvironment_succeeds {base loaded : Settings}
    {environment : String → Option String} :
    base.withEnvironment environment = .ok loaded ↔
      base.Loads environment loaded ∧ 0 < loaded.maxJoinOrders := by
  simp only [withEnvironment, overrideCount, overrideFlag, bind_succeeds, override_succeeds,
    validate_succeeds]
  constructor
  · rintro ⟨count, counted, generated, first, ordered, second, rfl, positive⟩
    exact ⟨⟨counted, first, second⟩, positive⟩
  · rintro ⟨loads, positive⟩
    exact ⟨_, loads.maxJoinOrders, _, loads.generatedFilters, _, loads.orderedScans, rfl, positive⟩

/-- Usable settings are read back from the document that they are written to, and no others are ever
read from a document. What is loaded from the environment differs from the base exactly as the
variables that are set have it, and allows some join order. -/
theorem settings_kept :
    (∀ settings : Settings, settings.Usable → ofDocument settings.document = .ok settings) ∧
    (∀ document read, ofDocument document = .ok read → read.Usable) ∧
    ∀ (base : Settings) environment loaded, base.withEnvironment environment = .ok loaded ↔
      base.Loads environment loaded ∧ 0 < loaded.maxJoinOrders :=
  ⟨fun _ => ofDocument_document, fun _ _ => ofDocument_usable,
    fun _ _ _ => withEnvironment_succeeds⟩

/-- The largest count, one technique and not the other. -/
def widest : Settings := ⟨UInt64.size - 1, false, true⟩

/-- Settings that allow no join order. -/
def forbidding : Settings := ⟨0, false, false⟩

/-- One technique is left as it is. -/
def countAndFlag : String → Option String
  | "OBJQL_OPTIMIZER_MAX_PERMUTATIONS" => some " 24 "
  | "OBJQL_OPTIMIZER_SORT_ELIMINATION" => some "ON"
  | _ => none

theorem settings_kept_widest :
    widest.document = "\x7b\"max_permutations\":18446744073709551615," ++
      "\"use_compiled_filters\":false,\"sort_elimination\":true\x7d" ∧
    ofDocument widest.document = .ok widest ∧ widest.Usable ∧
    forbidding.withEnvironment countAndFlag = .ok ⟨24, false, true⟩ ∧
    forbidding.Loads countAndFlag ⟨24, false, true⟩ ∧
    forbidding.withEnvironment (fun _ => none) = .error (.settings .noJoinOrders) := by
  obtain ⟨written, read, loaded⟩ := settings_kept
  have back : ofDocument widest.document = .ok widest := written widest ⟨by decide, by decide⟩
  have ran : forbidding.withEnvironment countAndFlag = .ok ⟨24, false, true⟩ := rfl
  exact ⟨by decide, back, read _ _ back, ran, ((loaded _ _ _).mp ran).1, rfl⟩

end ExtentPlanner.Settings
