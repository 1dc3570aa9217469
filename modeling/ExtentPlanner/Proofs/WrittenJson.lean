import ExtentPlanner.Json
import Mathlib.Data.List.Basic

/-! Reading back what has been written. A count is written with its decimal digits, a name without
anything that would need an escape. An object of such members, without blanks between them, is read
as its members in their order. -/
namespace ExtentPlanner.Json

/-- What may stand behind the value of a member. -/
inductive EndsMember : List Char → Prop where
  | comma (rest : List Char) : EndsMember (',' :: rest)
  | brace (rest : List Char) : EndsMember ('\x7d' :: rest)

/-- Where a member may end, the text is read as the value. -/
def Writes (written : List Char) (value : Json) : Prop :=
  ∀ fuel rest, EndsMember rest → value? (fuel + 1) (written ++ rest) = some (value, rest)

theorem writes_bool (value : Bool) :
    Writes (if value then "true".toList else "false".toList) (bool value) := by
  intro fuel rest _
  cases value <;> rfl

/-! ## Counts -/

theorem isDigit_toDigits {count : Nat} :
    ∀ character ∈ Nat.toDigits 10 count, character.isDigit = true :=
  fun _ => Nat.isDigit_of_mem_toDigits (by decide) (by decide)

/-- No count but zero is written with a zero in front. -/
theorem head?_toDigits {count : Nat} (zero : (Nat.toDigits 10 count).head? = some '0') :
    count = 0 := by
  induction count using Nat.strongRecOn with
  | ind count ih =>
    by_cases small : count < 10
    · rw [Nat.toDigits_of_lt_base small, List.head?_cons] at zero
      have shift := Nat.toNat_digitChar_of_lt_ten small
      rw [Option.some.inj zero] at shift
      exact Nat.add_eq_left.mp shift.symm
    · rw [Nat.toDigits_of_base_le (by decide) (Nat.not_lt.mp small),
        List.head?_append_of_ne_nil _ Nat.toDigits_ne_nil] at zero
      have front : count / 10 = 0 := ih (count / 10) (by omega) zero
      omega

theorem count?_toDigits (count : Nat) : (number (Nat.toDigits 10 count)).count? = some count := by
  rw [count?, if_pos (List.all_eq_true.mpr isDigit_toDigits), ← Nat.ofDigitChars_eq_foldl,
    Nat.ofDigitChars_toDigits (by decide) (by decide)]

theorem toDigits_starts (count : Nat) (rest : List Char) :
    ∃ first others, Nat.toDigits 10 count ++ rest = first :: others ∧ first.isDigit = true := by
  have nonempty : Nat.toDigits 10 count ≠ [] := Nat.toDigits_ne_nil
  obtain ⟨first, others, shape⟩ := List.exists_cons_of_ne_nil nonempty
  have inside : first ∈ Nat.toDigits 10 count := shape ▸ List.mem_cons_self
  exact ⟨first, others ++ rest, congrArg (· ++ rest) shape, isDigit_toDigits first inside⟩

theorem digits?_toDigits (count : Nat) (ends : EndsMember rest) :
    digits? (Nat.toDigits 10 count ++ rest) = some (Nat.toDigits 10 count, rest) := by
  have stops : rest.takeWhile Char.isDigit = [] ∧ rest.dropWhile Char.isDigit = rest := by
    cases ends <;> exact ⟨rfl, rfl⟩
  rw [digits?, List.takeWhile_append_of_pos isDigit_toDigits,
    List.dropWhile_append_of_pos isDigit_toDigits, stops.1, stops.2, List.append_nil]
  simp [Nat.toDigits_ne_nil]

theorem wholePart?_toDigits (count : Nat) (ends : EndsMember rest) :
    wholePart? (Nat.toDigits 10 count ++ rest) = some (Nat.toDigits 10 count, rest) := by
  rw [wholePart?, digits?_toDigits count ends, Option.filter_some, if_pos]
  by_cases zero : (Nat.toDigits 10 count).head? = some '0'
  · rw [head?_toDigits zero]
    rfl
  · simp [zero]

theorem number?_toDigits (count : Nat) (ends : EndsMember rest) :
    number? (Nat.toDigits 10 count ++ rest) = some (number (Nat.toDigits 10 count), rest) := by
  have ended : fractionPart? rest = some ([], rest) ∧ exponentPart? rest = some ([], rest) := by
    cases ends <;> exact ⟨rfl, rfl⟩
  rw [number?, wholePart?_toDigits count ends]
  · simp [ended.1, ended.2]
  · intro behind minus
    obtain ⟨first, others, starts, digit⟩ := toDigits_starts count rest
    cases starts.symm.trans minus
    cases digit

theorem writes_count (count : Nat) :
    Writes (Nat.toDigits 10 count) (number (Nat.toDigits 10 count)) := by
  intro fuel rest ends
  have read := number?_toDigits count ends
  obtain ⟨first, others, starts, digit⟩ := toDigits_starts count rest
  rw [starts] at read ⊢
  have solid : skipSpace (first :: others) = first :: others := by
    rw [skipSpace, List.dropWhile_cons_of_neg]
    intro space
    simp only [isSpace, Bool.or_eq_true, beq_iff_eq] at space
    rcases space with ((rfl | rfl) | rfl) | rfl <;> cases digit
  rw [value?, solid]
  split
  case h_7 => exact read
  all_goals
    rename_i same
    cases same
    cases digit

/-! ## Objects -/

/-- A character that stands for itself in a text. -/
def Plain (character : Char) : Prop :=
  0x20 ≤ character.toNat ∧ character ≠ '"' ∧ character ≠ '\\'

theorem textParts?_plain {name : List Char} (plain : ∀ character ∈ name, Plain character)
    (rest : List Char) : textParts? (name ++ '"' :: rest) = some (name.map .character, rest) := by
  induction name with
  | nil => rfl
  | cons first others ih =>
    obtain ⟨⟨printed, notQuote, notEscape⟩, plainOthers⟩ := List.forall_mem_cons.mp plain
    rw [List.cons_append, textParts?, ih plainOthers]
    · simp [Nat.not_lt.mpr printed, notEscape]
    · exact notQuote
    · exact fun _ _ _ _ _ escape => absurd escape notEscape
    · exact fun _ _ escape => absurd escape notEscape

theorem characters?_plain (name : List Char) : characters? (name.map .character) = some name := by
  induction name with
  | nil => rfl
  | cons first others ih => rw [List.map_cons, characters?, ih, Option.map_some]

theorem textValue?_plain {name : List Char} (plain : ∀ character ∈ name, Plain character)
    (rest : List Char) :
    textValue? (name ++ '"' :: rest) = some (some (String.ofList name), rest) := by
  rw [textValue?, textParts?_plain plain rest, Option.map_some]
  dsimp only
  rw [characters?_plain, Option.map_some]

/-- A member of an object, with the text that its value is written with. -/
structure Member where
  name : List Char
  written : List Char
  value : Json

namespace Member

/-- The text of the member. -/
def text (member : Member) : List Char := '"' :: member.name ++ '"' :: ':' :: member.written

/-- What is to be read of the member. -/
def content (member : Member) : Option String × Json :=
  (some (String.ofList member.name), member.value)

structure Readable (member : Member) : Prop where
  plain : ∀ character ∈ member.name, Plain character
  writes : Writes member.written member.value

end Member

/-- The text of members behind the first one, up to the closing brace. -/
def othersText (others : List Member) : List Char :=
  others.flatMap (fun member => ',' :: member.text) ++ ['\x7d']

theorem othersText_cons (next : Member) (others : List Member) (rest : List Char) :
    othersText (next :: others) ++ rest = ',' :: (next.text ++ (othersText others ++ rest)) := by
  simp [othersText]

theorem members?_member {member : Member} (readable : member.Readable)
    (ends : EndsMember behind) (fuel : Nat) :
    members? (fuel + 2) (member.text ++ behind) =
      match skipSpace behind with
      | ',' :: rest => (members? (fuel + 1) rest).map fun (members, rest) =>
        (member.content :: members, rest)
      | '\x7d' :: rest => some ([member.content], rest)
      | _ => none := by
  have name := textValue?_plain readable.plain (':' :: (member.written ++ behind))
  have value := readable.writes fuel behind ends
  have shape : skipSpace (member.text ++ behind) =
      '"' :: (member.name ++ '"' :: (':' :: (member.written ++ behind))) := by
    simp [Member.text, skipSpace, isSpace]
  have colon : afterWord? [':'] (skipSpace (':' :: (member.written ++ behind))) =
      some (member.written ++ behind) := rfl
  rw [members?, shape]
  simp only [name, colon, value, Option.bind_eq_bind, Option.bind_some]
  rfl

theorem members?_text {first : Member} {others : List Member}
    (readable : ∀ member ∈ first :: others, member.Readable) (spare : Nat) (rest : List Char) :
    members? (others.length + 2 + spare) (first.text ++ (othersText others ++ rest)) =
      some ((first :: others).map Member.content, rest) := by
  induction others generalizing first with
  | nil =>
    have last := members?_member (readable first List.mem_cons_self) (.brace rest) spare
    rw [Nat.add_comm] at last
    exact last
  | cons next others ih =>
    have comma := members?_member (readable first List.mem_cons_self)
      (.comma (next.text ++ (othersText others ++ rest))) (others.length + 1 + spare)
    have later := ih fun member inside => readable member (List.mem_cons_of_mem _ inside)
    have more : others.length + 1 + spare + 1 = others.length + 2 + spare := by omega
    have enough : (next :: others).length + 2 + spare = others.length + 1 + spare + 2 := by
      rw [List.length_cons]
      omega
    rw [othersText_cons, enough, comma]
    change (members? (others.length + 1 + spare + 1) _).map _ = _
    rw [more, later]
    rfl

/-- The text of an object with at least one member. -/
def objectText (first : Member) (others : List Member) : List Char :=
  '\x7b' :: (first.text ++ othersText others)

theorem length_othersText (others : List Member) : others.length < (othersText others).length := by
  induction others with
  | nil => decide
  | cons next others ih =>
    have longer := congrArg List.length (othersText_cons next others [])
    simp only [List.append_nil, List.length_cons, List.length_append] at longer ⊢
    omega

theorem read?_objectText {first : Member} {others : List Member}
    (readable : ∀ member ∈ first :: others, member.Readable) :
    read? (String.ofList (objectText first others)) =
      some (object ((first :: others).map Member.content)) := by
  have long := length_othersText others
  obtain ⟨spare, enough⟩ : ∃ spare,
      2 * (objectText first others).length + 1 = others.length + 2 + spare := by
    refine ⟨2 * (objectText first others).length + 1 - (others.length + 2), ?_⟩
    simp only [objectText, List.length_cons, List.length_append]
    omega
  have members := members?_text readable spare []
  rw [List.append_nil, ← enough] at members
  have value : value? (2 * (objectText first others).length + 2) (objectText first others) =
      (members? (2 * (objectText first others).length + 1) (first.text ++ othersText others)).map
        fun (members, rest) => (object members, rest) := rfl
  rw [members] at value
  rw [read?, String.toList_ofList]
  dsimp only
  rw [value]
  rfl

end ExtentPlanner.Json
