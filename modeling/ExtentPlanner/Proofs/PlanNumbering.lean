import ExtentPlanner.JoinTree.Plan
import Mathlib.Data.List.Nodup

/-! The nodes of a plan and their numbers. Numbering walks a plan with its inputs first, so the
numbers count up along `postOrder`, and whatever else a node holds stays as it was: how many rows it
delivers, and what it does with the rows of its inputs, its `enumerator`. -/
namespace ExtentPlanner

/-- What a node of a plan does, apart from its number, its paging and where its rows come from. -/
inductive Enumerator where
  | access (path : Access)
  | join (type : JoinType) (post : Condition)
  | sort (spec : SortSpec)
  | aggregate (grouping : Grouping) (presorted : Bool)
  | replan (parameters : List Nat) (query : String)
  deriving DecidableEq

namespace PlanNode

def enumerator : PlanNode → Enumerator
  | access _ _ path => .access path
  | join _ _ type _ _ post => .join type post
  | sort _ _ spec _ => .sort spec
  | aggregate _ _ grouping presorted _ => .aggregate grouping presorted
  | replan _ _ parameters query _ => .replan parameters query

/-- Everything below a node. -/
def descendants (node : PlanNode) : List PlanNode := node.children.flatMap nodes

/-- The node and everything below it, left inputs before right ones and each node after its
inputs. -/
def postOrder : PlanNode → List PlanNode
  | access id fetch path => [access id fetch path]
  | join id fetch type left right post =>
    left.postOrder ++ right.postOrder ++ [join id fetch type left right post]
  | sort id fetch spec input => input.postOrder ++ [sort id fetch spec input]
  | aggregate id fetch grouping presorted input =>
    input.postOrder ++ [aggregate id fetch grouping presorted input]
  | replan id fetch parameters query input =>
    input.postOrder ++ [replan id fetch parameters query input]

/-- The plan without the announcement at its root that it has to be made again. -/
def body : PlanNode → PlanNode
  | replan _ _ _ _ input => input
  | node => node

theorem nodes_eq (node : PlanNode) : node.nodes = node :: node.descendants := by
  cases node <;> simp [nodes, descendants, children]

theorem postOrder_perm (node : PlanNode) : node.postOrder.Perm node.nodes := by
  induction node with
  | access id fetch path => exact .refl _
  | join id fetch type left right post lefts rights =>
    exact List.perm_append_comm.trans ((lefts.append rights).cons _)
  | sort id fetch spec input inputs | aggregate id fetch _ _ input inputs
  | replan id fetch _ _ input inputs => exact List.perm_append_comm.trans (inputs.cons _)

/-- If numbers go up with the inputs first, every node has a greater one than all below it. -/
theorem below_lt {root : PlanNode}
    (ascending : root.postOrder.Pairwise fun first second => first.id < second.id) :
    ∀ node ∈ root.nodes, ∀ below ∈ node.descendants, below.id < node.id := by
  induction root with
  | access id fetch path => simp [nodes, descendants, children]
  | join id fetch type left right post lefts rights =>
    obtain ⟨inputs, _, last⟩ := List.pairwise_append.mp ascending
    obtain ⟨ofLeft, ofRight, _⟩ := List.pairwise_append.mp inputs
    refine List.forall_mem_cons.mpr ⟨fun below member => ?_,
      List.forall_mem_append.mpr ⟨lefts ofLeft, rights ofRight⟩⟩
    refine last below (List.mem_append.mpr ?_) _ (List.mem_singleton_self _)
    rw [left.postOrder_perm.mem_iff, right.postOrder_perm.mem_iff]
    simpa [descendants, children] using member
  | sort id fetch spec input inputs | aggregate id fetch _ _ input inputs
  | replan id fetch _ _ input inputs =>
    obtain ⟨ofInput, _, last⟩ := List.pairwise_append.mp ascending
    refine List.forall_mem_cons.mpr ⟨fun below member => ?_, inputs ofInput⟩
    refine last below (input.postOrder_perm.mem_iff.mpr ?_) _ (List.mem_singleton_self _)
    simpa [descendants, children] using member

/-! ## Numbering -/

private theorem range'_snoc (next before : Nat) :
    List.range' next before ++ [next + before] = List.range' next (before + 1) := by
  rw [List.range'_concat, Nat.one_mul]

/-- The numbers handed out go up by one from each node to the next, its inputs first. -/
theorem numberedFrom_ids (node : PlanNode) (next : Nat) :
    (node.numberedFrom next).1.postOrder.map id = List.range' next node.nodes.length ∧
      (node.numberedFrom next).2 = next + node.nodes.length := by
  induction node generalizing next with
  | access _ fetch path => exact ⟨rfl, rfl⟩
  | join _ fetch type left right post lefts rights =>
    obtain ⟨ofLeft, afterLeft⟩ := lefts next
    obtain ⟨ofRight, afterRight⟩ := rights (next + left.nodes.length)
    rw [numberedFrom]
    simp only [afterLeft, afterRight, postOrder, List.map_append, ofLeft, ofRight, List.map_cons,
      List.map_nil, id, nodes, List.length_cons, List.length_append]
    refine ⟨?_, by omega⟩
    rw [List.range'_append_1, Nat.add_assoc, range'_snoc]
  | sort _ fetch spec input inputs | aggregate _ fetch _ _ input inputs
  | replan _ fetch _ _ input inputs =>
    obtain ⟨ofInput, afterInput⟩ := inputs next
    rw [numberedFrom]
    simp only [afterInput, postOrder, List.map_append, ofInput, List.map_cons, List.map_nil, id,
      nodes, List.length_cons]
    exact ⟨range'_snoc _ _, by omega⟩

/-- What a node is apart from its number and its inputs. -/
private def content (node : PlanNode) : Fetch × Enumerator := (node.fetch, node.enumerator)

private theorem numberedFrom_content (node : PlanNode) (next : Nat) :
    (node.numberedFrom next).1.nodes.map content = node.nodes.map content := by
  induction node generalizing next with
  | access id fetch path => rfl
  | join id fetch type left right post lefts rights =>
    simp only [numberedFrom, nodes, List.map_cons, List.map_append, lefts, rights]
    rfl
  | sort id fetch spec input inputs | aggregate id fetch _ _ input inputs
  | replan id fetch _ _ input inputs =>
    simp only [numberedFrom, nodes, List.map_cons, inputs]
    rfl

@[simp] theorem numbered_nodes_length (node : PlanNode) :
    node.numbered.nodes.length = node.nodes.length := by
  have same := congrArg List.length (node.numberedFrom_content 0)
  rwa [List.length_map, List.length_map] at same

@[simp] theorem numbered_fetches (node : PlanNode) :
    node.numbered.nodes.map fetch = node.nodes.map fetch := by
  have same := congrArg (List.map Prod.fst) (node.numberedFrom_content 0)
  rwa [List.map_map, List.map_map] at same

@[simp] theorem numbered_enumerators (node : PlanNode) :
    node.numbered.nodes.map enumerator = node.nodes.map enumerator := by
  have same := congrArg (List.map Prod.snd) (node.numberedFrom_content 0)
  rwa [List.map_map, List.map_map] at same

/-- A plan numbered from zero: the numbers are those below the number of nodes, and they go up with
the inputs first. -/
structure Numbered (root : PlanNode) : Prop where
  counted : root.postOrder.map id = List.range root.nodes.length
  distinct : (root.nodes.map id).Nodup
  above : ∀ node ∈ root.nodes, ∀ below ∈ node.descendants, below.id < node.id

theorem numbered_isNumbered (node : PlanNode) : node.numbered.Numbered := by
  have counted : node.numbered.postOrder.map id = List.range node.numbered.nodes.length := by
    rw [numbered_nodes_length, List.range_eq_range']
    exact (node.numberedFrom_ids 0).1
  refine ⟨counted, ?_, below_lt ?_⟩
  · rw [← (node.numbered.postOrder_perm.map id).nodup_iff, counted]
    exact List.nodup_range
  · rw [← List.pairwise_map, counted]
    exact List.pairwise_lt_range

/-- The numbers of fewer than 2^32 nodes fit 32 bits, and so does the one that would come next. -/
theorem Numbered.fits {root : PlanNode} (numbered : root.Numbered)
    (few : root.nodes.length < UInt32.size) : ∀ node ∈ root.nodes, node.id + 1 < UInt32.size := by
  intro node member
  have listed : node.id ∈ root.postOrder.map id :=
    List.mem_map_of_mem (root.postOrder_perm.mem_iff.mpr member)
  rw [numbered.counted, List.mem_range] at listed
  omega

end PlanNode

end ExtentPlanner
