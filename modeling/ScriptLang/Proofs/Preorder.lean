import ScriptLang.Node

/-! The loop that lists a node and everything below it has a stack of nodes that are still to be listed.
It ends after one round for each node of the tree, and its list is the one that is defined by
recursion on the tree: a node, then what is at and below its children, one child after another. So
every place of the tree is listed once, in the lexicographic order of places. -/

namespace ScriptLang.Node

theorem count_le_countAll {c : Node} {ns : List Node} (member : c ∈ ns) : c.count ≤ countAll ns := by
  obtain ⟨before, after, rfl⟩ := List.append_of_mem member
  rw [countAll_append, countAll]
  omega

theorem count_lt_of_mem_children {c n : Node} (member : c ∈ n.children) : c.count < n.count := by
  have := count_le_countAll member
  have := countAll_children n
  omega

/-- What holds of a node if it holds of its children holds of every node. -/
theorem childrenInduction {P : Node → Prop} (step : ∀ n : Node, (∀ c ∈ n.children, P c) → P n)
    (n : Node) : P n :=
  step n fun c member =>
    have := count_lt_of_mem_children member
    childrenInduction step c
  termination_by n.count

def preorder (n : Node) : List Node := n :: n.children.attach.flatMap fun c => preorder c.1
  termination_by n.count
  decreasing_by exact count_lt_of_mem_children c.2

theorem preorder_eq (n : Node) : preorder n = n :: n.children.flatMap preorder := by
  rw [preorder, ← List.flatMap_map, List.attach_map_subtype_val]

theorem length_flatMap_preorder {ns : List Node} (each : ∀ n ∈ ns, n.preorder.length = n.count) :
    (ns.flatMap preorder).length = countAll ns := by
  induction ns with
  | nil => rfl
  | cons n ns ih =>
    obtain ⟨first, rest⟩ := List.forall_mem_cons.1 each
    rw [List.flatMap_cons, List.length_append, first, ih rest, countAll]

theorem length_preorder (n : Node) : n.preorder.length = n.count := by
  induction n using childrenInduction with
  | step n ih =>
    rw [preorder_eq, List.length_cons, length_flatMap_preorder ih, countAll_children]

theorem walk_eq_flatMap (pending : List Node) : walk pending = pending.flatMap preorder := by
  fun_induction walk pending with
  | case1 => rfl
  | case2 n pending ih =>
    rw [ih, List.flatMap_append, List.flatMap_cons, preorder_eq]
    rfl

theorem descendants_eq (n : Node) : n.descendants = n.preorder := by
  rw [descendants, walk_eq_flatMap, List.flatMap_singleton]

/-- The nodes that have been listed so far, and those on the stack. The last one is on top. -/
structure Listing where
  listed : List Node
  stack : List Node

namespace Listing

def start (n : Node) : Listing := ⟨[], [n]⟩

/-- The node on top of the stack is listed, and its children take its place, the first one on top.
With an empty stack the loop is over. -/
def round? (t : Listing) : Option Listing :=
  t.stack.getLast?.map fun n => ⟨t.listed ++ [n], t.stack.dropLast ++ n.children.reverse⟩

/-- The list at the end of the loop, or nothing if the loop is not over after so many rounds. -/
def finish? (rounds : Nat) (t : Listing) : Option (List Node) :=
  match t.round? with
  | none => some t.listed
  | some t' =>
    match rounds with
    | 0 => none
    | rounds + 1 => t'.finish? rounds

/-- The nodes on the stack, those that are listed first in front. -/
def pending (t : Listing) : List Node := t.stack.reverse

theorem round?_of_nil {t : Listing} (empty : t.pending = []) : t.round? = none := by
  rw [round?, List.reverse_eq_nil_iff.1 empty]
  rfl

/-- In one round the loop lists a node and goes on with its children and the rest. -/
theorem round?_of_cons {t : Listing} {n : Node} {rest : List Node} (top : t.pending = n :: rest) :
    ∃ t', t.round? = some t' ∧ t'.listed = t.listed ++ [n] ∧ t'.pending = n.children ++ rest := by
  have stack : t.stack = rest.reverse ++ [n] := by
    rw [← List.reverse_cons, ← top, pending, List.reverse_reverse]
  refine ⟨⟨t.listed ++ [n], rest.reverse ++ n.children.reverse⟩, ?_, rfl, ?_⟩
  · simp [round?, stack]
  · simp [pending]

/-- The loop takes a round for each node at and below those on the stack, and lists them. -/
theorem finish?_eq (rounds : Nat) (t : Listing) :
    t.finish? rounds =
      if countAll t.pending ≤ rounds then some (t.listed ++ walk t.pending) else none := by
  -- What is listed, and then what `walk` makes of the stack, is the same after each round.
  induction rounds generalizing t with
  | zero =>
    cases top : t.pending with
    | nil => simp [finish?, round?_of_nil top, walk, countAll]
    | cons n rest =>
      obtain ⟨t', next, _, _⟩ := round?_of_cons top
      have := countAll_children n
      rw [finish?, next, if_neg (by rw [countAll]; omega)]
  | succ rounds ih =>
    cases top : t.pending with
    | nil => simp [finish?, round?_of_nil top, walk, countAll]
    | cons n rest =>
      obtain ⟨t', next, listed, pending⟩ := round?_of_cons top
      have one : countAll (n :: rest) = countAll (n.children ++ rest) + 1 := by
        have := countAll_children n
        rw [countAll_append, countAll]
        omega
      rw [finish?, next, one, walk]
      simp only [Nat.add_le_add_iff_right, ih, listed, pending, List.append_assoc,
        List.singleton_append]

end Listing

/-- The node at a place: each number tells which child to go to. -/
def at? (n : Node) : List Nat → Option Node
  | [] => some n
  | i :: place => n.children[i]?.bind fun c => c.at? place

def placesFrom (i : Nat) : List (List (List Nat)) → List (List Nat)
  | [] => []
  | places :: rest => places.map (i :: ·) ++ placesFrom (i + 1) rest

/-- The places at and below a node, each in front of the ones below it. -/
def places (n : Node) : List (List Nat) :=
  [] :: placesFrom 0 (n.children.attach.map fun c => places c.1)
  termination_by n.count
  decreasing_by exact count_lt_of_mem_children c.2

theorem places_eq (n : Node) : n.places = [] :: placesFrom 0 (n.children.map places) := by
  rw [places, ← Function.comp_def places, ← List.map_map, List.attach_map_subtype_val]

theorem mem_placesFrom {i : Nat} {rows : List (List (List Nat))} {place : List Nat} :
    place ∈ placesFrom i rows ↔
      ∃ j row below, rows[j]? = some row ∧ below ∈ row ∧ place = (i + j) :: below := by
  induction rows generalizing i with
  | nil => simp [placesFrom]
  | cons row rows ih =>
    rw [placesFrom, List.mem_append, List.mem_map, ih]
    constructor
    · rintro (⟨below, member, rfl⟩ | ⟨j, row', below, get, member, rfl⟩)
      · exact ⟨0, row, below, rfl, member, rfl⟩
      · exact ⟨j + 1, row', below, get, member, by rw [Nat.add_right_comm, Nat.add_assoc]⟩
    · rintro ⟨j, row', below, get, member, rfl⟩
      cases j with
      | zero =>
        obtain rfl : row = row' := Option.some.inj get
        exact .inl ⟨below, member, rfl⟩
      | succ j => exact .inr ⟨j, row', below, get, member, by rw [Nat.add_right_comm, Nat.add_assoc]⟩

theorem cons_mem_placesFrom {i : Nat} {rows : List (List (List Nat))} {below : List Nat} :
    i :: below ∈ placesFrom 0 rows ↔ ∃ row, rows[i]? = some row ∧ below ∈ row := by
  rw [mem_placesFrom]
  constructor
  · rintro ⟨j, row, below', get, member, same⟩
    obtain ⟨rfl, rfl⟩ := List.cons.inj same
    exact ⟨row, by rwa [Nat.zero_add], member⟩
  · rintro ⟨row, get, member⟩
    exact ⟨i, row, below, get, member, by rw [Nat.zero_add]⟩

/-- The places are those at which there is a node. -/
theorem mem_places_iff (n : Node) (place : List Nat) : place ∈ n.places ↔ (n.at? place).isSome := by
  induction n using childrenInduction generalizing place with
  | step n ih =>
    rw [places_eq, List.mem_cons]
    cases place with
    | nil => simp [at?]
    | cons i below =>
      rw [cons_mem_placesFrom, List.getElem?_map, at?]
      cases get : n.children[i]? with
      | none => simp
      | some c => simp [ih c (List.mem_of_getElem? get)]

theorem placesFrom_pairwise {rows : List (List (List Nat))}
    (sorted : ∀ row ∈ rows, row.Pairwise (· < ·)) (i : Nat) :
    (placesFrom i rows).Pairwise (· < ·) := by
  induction rows generalizing i with
  | nil => exact .nil
  | cons row rows ih =>
    obtain ⟨first, rest⟩ := List.forall_mem_cons.1 sorted
    refine List.pairwise_append.2 ⟨?_, ih rest (i + 1), ?_⟩
    · exact first.map _ fun a b lt => List.cons_lt_cons_iff.2 (.inr ⟨rfl, lt⟩)
    · intro a left b right
      obtain ⟨below, _, rfl⟩ := List.mem_map.1 left
      obtain ⟨j, _, below', _, _, rfl⟩ := mem_placesFrom.1 right
      exact List.cons_lt_cons_iff.2 (.inl (by omega))

/-- A place stands in front of the places below it and of those to its right. -/
theorem places_pairwise (n : Node) : n.places.Pairwise (· < ·) := by
  induction n using childrenInduction with
  | step n ih =>
    rw [places_eq]
    refine List.pairwise_cons.2 ⟨fun place member => ?_, placesFrom_pairwise (fun row member => ?_) 0⟩
    · obtain ⟨j, _, below, _, _, rfl⟩ := mem_placesFrom.1 member
      exact List.nil_lt_cons _ _
    · obtain ⟨c, child, rfl⟩ := List.mem_map.1 member
      exact ih c child

theorem placesFrom_at? {n : Node} {i : Nat} {cs : List Node}
    (children : ∀ j, n.children[i + j]? = cs[j]?)
    (below : ∀ c ∈ cs, c.places.map c.at? = c.preorder.map some) :
    (placesFrom i (cs.map places)).map n.at? = (cs.flatMap preorder).map some := by
  induction cs generalizing i with
  | nil => rfl
  | cons c cs ih =>
    obtain ⟨first, rest⟩ := List.forall_mem_cons.1 below
    have here : n.children[i]? = some c := children 0
    have there (j : Nat) : n.children[i + 1 + j]? = cs[j]? := by
      rw [Nat.add_right_comm]
      exact children (j + 1)
    have inside (place : List Nat) : n.at? (i :: place) = c.at? place := by rw [at?, here]; rfl
    rw [List.map_cons, placesFrom, List.map_append, ih there rest, List.map_map, List.flatMap_cons,
      List.map_append, ← first]
    congr 1
    exact List.map_congr_left fun place _ => inside place

theorem places_at? (n : Node) : n.places.map n.at? = n.preorder.map some := by
  induction n using childrenInduction with
  | step n ih =>
    have children (j : Nat) : n.children[0 + j]? = n.children[j]? := by rw [Nat.zero_add]
    have nodes := placesFrom_at? children ih
    rw [places_eq, preorder_eq, List.map_cons, nodes]
    rfl

/-- The descendants of a node are the node and then, one child after another, the descendants of its
children. The loop ends after one round for each of them. They stand at the places of the tree, each of
which has its turn once, in front of those below it and of those to its right. -/
theorem descendants_preorder (n : Node) :
    n.descendants = n.preorder ∧
      n.preorder = n :: n.children.flatMap preorder ∧
      (∀ rounds, (Listing.start n).finish? rounds =
        if n.preorder.length ≤ rounds then some n.descendants else none) ∧
      ∃ places : List (List Nat), places.Pairwise (· < ·) ∧
        (∀ place, place ∈ places ↔ (n.at? place).isSome) ∧
        places.map n.at? = n.descendants.map some := by
  refine ⟨n.descendants_eq, n.preorder_eq, fun rounds => ?_, n.places, n.places_pairwise,
    n.mem_places_iff, ?_⟩
  · have whole : countAll (Listing.start n).pending = n.preorder.length := n.length_preorder.symm
    rw [Listing.finish?_eq, whole]
    rfl
  · rw [n.places_at?, n.descendants_eq]

end ScriptLang.Node
