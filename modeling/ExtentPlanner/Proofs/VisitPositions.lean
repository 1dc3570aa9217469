import ExtentPlanner.Candidate
import ExtentPlanner.Proofs.TreeShape

/-! Tables by extent number. What is entered under distinct numbers is found again at its number and
nowhere else. So a candidate whose tree visits no extent twice knows from its tables where an extent
is visited, and by which visit. With repeated extents the two tables still agree with each other, as
the last entry of a number wins in both. -/
namespace ExtentPlanner.Candidate

variable {α : Type} {table : List (Option α)} {entries : List (Nat × α)} {entry : α}
  {order : List Nat} {extent position : Nat}

/-! ## Entries -/

theorem length_enter (table : List (Option α)) (entries : List (Nat × α)) :
    (enter table entries).length = table.length := by
  induction entries generalizing table with
  | nil => rfl
  | cons head rest ih => rw [enter, ih, List.length_set]

theorem enter_of_not_mem (absent : extent ∉ entries.map Prod.fst) :
    (enter table entries)[extent]? = table[extent]? := by
  induction entries generalizing table with
  | nil => rfl
  | cons head rest ih =>
    obtain ⟨other, later⟩ := not_or.mp (mt List.mem_cons.mpr absent)
    rw [enter, ih later, List.getElem?_set_ne (Ne.symm other)]

theorem enter_of_mem (distinct : (entries.map Prod.fst).Nodup) (room : extent < table.length)
    (listed : (extent, entry) ∈ entries) :
    (enter table entries)[extent]? = some (some entry) := by
  induction entries generalizing table with
  | nil => cases listed
  | cons head rest ih =>
    obtain ⟨fresh, distinct⟩ := List.nodup_cons.mp distinct
    rw [enter]
    rcases List.mem_cons.mp listed with rfl | later
    · rw [enter_of_not_mem fresh, List.getElem?_set_self room]
    · exact ih distinct (by rwa [List.length_set]) later

/-- In a table that was blank, an entry is found at the number it was entered under and at no
other. -/
theorem enter_blank_iff {size : Nat} (distinct : (entries.map Prod.fst).Nodup)
    (room : ∀ extent ∈ entries.map Prod.fst, extent < size) :
    (enter (List.replicate size none) entries)[extent]?.join = some entry ↔
      (extent, entry) ∈ entries := by
  have found : ∀ {entry}, (extent, entry) ∈ entries →
      (enter (List.replicate size none) entries)[extent]?.join = some entry := by
    intro entry listed
    have within := room extent (List.mem_map_of_mem listed)
    rw [enter_of_mem distinct (by rwa [List.length_replicate]) listed, Option.join_some]
  refine ⟨fun here => ?_, found⟩
  by_cases numbered : extent ∈ entries.map Prod.fst
  · obtain ⟨⟨_, other⟩, listed, rfl⟩ := List.mem_map.mp numbered
    rw [found listed] at here
    cases here
    exact listed
  · rw [enter_of_not_mem numbered] at here
    by_cases inside : extent < size <;> simp [inside] at here

/-- Entries that give one another, under the same numbers, still do so when they are found: if an
entry has taken the place of an earlier one, so has the one that it gives. -/
theorem enter_gives {β : Type} {give? : α → Option β} {others : List (Nat × β)}
    {other : List (Option β)} (length : table.length = other.length)
    (same : ∀ extent : Nat, table[extent]?.join.bind give? = other[extent]?.join)
    (given : List.Forall₂ (fun own given => own.1 = given.1 ∧ give? own.2 = some given.2)
      entries others) (extent : Nat) :
    (enter table entries)[extent]?.join.bind give? = (enter other others)[extent]?.join := by
  induction given generalizing table other with
  | nil => exact same extent
  | @cons own given entries others pair _ ih =>
    obtain ⟨number, gives⟩ := pair
    rw [enter, enter]
    refine ih (by simpa using length) fun extent => ?_
    rw [List.getElem?_set, List.getElem?_set, ← number, ← length]
    split
    · split
      · exact gives
      · rfl
    · exact same extent

/-! ## Positions -/

private theorem foldl_bound (order : List Nat) (bound : Nat) :
    bound ≤ order.foldl (fun bound extent => max bound (extent + 1)) bound ∧
      ∀ member ∈ order,
        member < order.foldl (fun bound extent => max bound (extent + 1)) bound := by
  induction order generalizing bound with
  | nil => simp
  | cons head rest ih =>
    obtain ⟨above, within⟩ := ih (max bound (head + 1))
    rw [List.foldl_cons, List.forall_mem_cons]
    exact ⟨Nat.le_trans (Nat.le_max_left ..) above, Nat.le_trans (Nat.le_max_right ..) above,
      within⟩

theorem lt_extentBound (member : extent ∈ order) : extent < extentBound order :=
  (foldl_bound order 0).2 extent member

theorem length_positionsOf (order : List Nat) : (positionsOf order).length = extentBound order := by
  rw [positionsOf, length_enter, List.length_replicate]

/-- Without repeated extents, a position is noted for each extent of the order and no other. -/
theorem positionsOf_iff (distinct : order.Nodup) :
    (positionsOf order)[extent]?.join = some position ↔ order[position]? = some extent := by
  rw [positionsOf, enter_blank_iff, List.mk_mem_zipIdx_iff_getElem?]
  · rwa [List.zipIdx_map_fst]
  · rw [List.zipIdx_map_fst]
    exact fun extent => lt_extentBound

/-- The candidate knows where its tree visits an extent. -/
def Positioned (candidate : Candidate) : Prop :=
  ∀ extent position, candidate.position? extent = some position ↔
    candidate.top.visitOrder[position]? = some extent

variable {candidate : Candidate} {leaf : Visit}

/-- The visit at a position is of the extent that has this position. -/
theorem Positioned.position?_iff (positioned : candidate.Positioned)
    (there : candidate.top.visits[position]? = some leaf) :
    candidate.position? extent = some position ↔ leaf.extent = extent := by
  rw [positioned, JoinTree.visitOrder_eq_map, List.getElem?_map, there, Option.map_some,
    Option.some.injEq]

theorem Positioned.distinct (positioned : candidate.Positioned) :
    candidate.top.visitOrder.Nodup := by
  rw [List.nodup_iff_getElem?_ne_getElem?]
  intro first second less inside same
  obtain ⟨extent, there⟩ : ∃ extent, candidate.top.visitOrder[second]? = some extent :=
    ⟨_, List.getElem?_eq_getElem inside⟩
  have place := (positioned extent first).mpr (same.trans there)
  rw [(positioned extent second).mpr there] at place
  exact Nat.ne_of_gt less (Option.some.inj place)

/-! ## What is recorded -/

/-- What is noted of the order is what the tree says. -/
structure Noted (candidate : Candidate) : Prop where
  order : candidate.order = candidate.top.visitOrder
  positions : candidate.positions = positionsOf candidate.order

theorem noted_ofTree (tree : JoinTree) : (ofTree tree).Noted := ⟨rfl, rfl⟩

/-- The visit at the position of an extent is the one in the table, also when the tree visits the
extent more than once. -/
theorem Noted.visit_at (noted : candidate.Noted) (extent : Nat) :
    ((candidate.position? extent).bind fun position => candidate.top.visits[position]?) =
      candidate.visitsByNumber[extent]?.join := by
  have order : candidate.order = candidate.top.visits.map (·.extent) := by
    rw [noted.order, JoinTree.visitOrder_eq_map]
  rw [position?, visitsByNumber, noted.positions, length_positionsOf, positionsOf]
  refine enter_gives (by simp) (fun extent => ?_) ?_ extent
  · by_cases inside : extent < extentBound candidate.order <;> simp [inside]
  · exact List.forall₂_iff_get.mpr ⟨by simp [order], fun place _ _ => by simp⟩

/-- What is noted of the order is what the tree says, and no extent is visited twice. -/
structure Recorded (candidate : Candidate) : Prop extends Noted candidate where
  distinct : candidate.top.visitOrder.Nodup

theorem recorded_ofTree {tree : JoinTree} (distinct : tree.visitOrder.Nodup) :
    (ofTree tree).Recorded := ⟨noted_ofTree tree, distinct⟩

theorem Recorded.positioned (recorded : candidate.Recorded) : candidate.Positioned := by
  intro extent position
  rw [position?, recorded.positions, recorded.order]
  exact positionsOf_iff recorded.distinct

theorem Recorded.visit?_iff (recorded : candidate.Recorded) :
    candidate.visit? extent = some leaf ↔ leaf ∈ candidate.top.visits ∧ leaf.extent = extent :=
  JoinTree.visit?_eq_some_iff recorded.distinct

/-- Each visit is entered beside the extent that it is of. -/
theorem Recorded.zip_order_visits (recorded : candidate.Recorded) :
    candidate.order.zip candidate.top.visits =
      candidate.top.visits.map fun visit => (visit.extent, visit) := by
  rw [recorded.order, JoinTree.visitOrder_eq_map]
  simpa using List.zip_map' (l := candidate.top.visits) (f := Visit.extent) (g := id)

theorem Recorded.visitsByNumber_iff (recorded : candidate.Recorded) :
    candidate.visitsByNumber[extent]?.join = some leaf ↔
      leaf ∈ candidate.top.visits ∧ leaf.extent = extent := by
  have keys : (candidate.order.zip candidate.top.visits).map Prod.fst = candidate.order := by
    rw [recorded.zip_order_visits, recorded.order, JoinTree.visitOrder_eq_map, List.map_map]
    rfl
  have distinct : candidate.order.Nodup := recorded.order ▸ recorded.distinct
  rw [visitsByNumber, enter_blank_iff]
  · rw [recorded.zip_order_visits, List.mem_map]
    constructor
    · rintro ⟨visit, member, same⟩
      cases same
      exact ⟨member, rfl⟩
    · rintro ⟨member, rfl⟩
      exact ⟨leaf, member, rfl⟩
  · rwa [keys]
  · rw [keys, recorded.positions, length_positionsOf]
    exact fun extent => lt_extentBound

/-- The table has the visit that a search of the tree finds. -/
theorem Recorded.visit_numbered (recorded : candidate.Recorded) (extent : Nat) :
    candidate.visitsByNumber[extent]?.join = candidate.visit? extent :=
  Option.ext fun leaf => by rw [recorded.visitsByNumber_iff, recorded.visit?_iff]

end ExtentPlanner.Candidate
