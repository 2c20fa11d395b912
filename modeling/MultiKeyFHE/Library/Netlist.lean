import Mathlib.Data.List.Forall2
import Mathlib.Data.List.GetD

/-!
# Straight-line programs of operations of any arity

A node reads earlier wires by index and writes the next one. `evalM` runs the nodes with fallible operations, which
see every value with its wire, since a value may be told apart by where it is stored; `eval` is the same program on
what the values stand for. `evalM_simulates` carries a relation between the two through a whole run.
-/

namespace Netlist
variable {Op α β ε : Type*}

structure Node (Op : Type*) where
  op : Op
  reads : List ℕ

/-- Every node reads wires that exist, `wires` being the number of wires before the first. -/
def Scoped : ℕ → List (Node Op) → Prop
  | _, [] => True
  | wires, node :: rest => (∀ i ∈ node.reads, i < wires) ∧ Scoped (wires + 1) rest

instance : (wires : ℕ) → (nodes : List (Node Op)) → Decidable (Scoped wires nodes)
  | _, [] => .isTrue trivial
  | wires, _ :: rest =>
    have := instDecidableScoped (wires + 1) rest
    inferInstanceAs (Decidable (_ ∧ _))

/-- The values of some wires, each with its index. -/
def fetch (wires : List α) : List ℕ → Option (List (ℕ × α))
  | [] => some []
  | i :: rest =>
    match wires[i]?, fetch wires rest with
    | some x, some xs => some ((i, x) :: xs)
    | _, _ => none

variable (bad : ε) (apply : Op → List (ℕ × α) → Except ε α)

/-- One node on the wires so far; `bad` is the failure of a read past the end. -/
def stepM (wires : List α) (node : Node Op) : Except ε (List α) :=
  match fetch wires node.reads with
  | none => .error bad
  | some xs => (apply node.op xs).map fun z => wires ++ [z]

def evalM (wires : List α) (nodes : List (Node Op)) : Except ε (List α) := nodes.foldlM (stepM bad apply) wires

/-- What every wire stands for, `f` being the meaning of the operations. -/
def eval [Inhabited β] (f : Op → List β → β) (wires : List β) (nodes : List (Node Op)) : List β :=
  nodes.foldl (fun wires node => wires ++ [f node.op (node.reads.map fun i => wires.getD i default)]) wires

section Simulation
variable [Inhabited β] {R : α → β → Prop}

/-- The values that a node reads stand for what the program on meanings reads. -/
theorem fetch_related {wires : List α} {means : List β} (related : List.Forall₂ R wires means) {reads : List ℕ}
    (inside : ∀ i ∈ reads, i < means.length) :
    ∃ xs, fetch wires reads = some xs ∧ xs.map Prod.fst = reads ∧
      List.Forall₂ (fun x m => R x.2 m) xs (reads.map fun i => means.getD i default) := by
  induction reads with
  | nil => exact ⟨[], rfl, rfl, .nil⟩
  | cons i rest ih =>
    obtain ⟨xs, found, indices, all⟩ := ih fun j hj => inside j (List.mem_cons_of_mem _ hj)
    have hi : i < means.length := inside i List.mem_cons_self
    have hlen : i < wires.length := by
      rw [related.length_eq]
      exact hi
    have read : wires[i]? = some wires[i] := List.getElem?_eq_getElem hlen
    refine ⟨(i, wires[i]) :: xs, ?_, ?_, ?_⟩
    · simp only [fetch, read, found]
    · rw [List.map_cons, indices]
    · rw [List.map_cons, List.getD_eq_getElem _ _ hi]
      exact .cons (related.get hlen hi) all

variable {apply} {f : Op → List β → β}

theorem stepM_simulates {wires : List α} {means : List β} (related : List.Forall₂ R wires means) {node : Node Op}
    (inside : ∀ i ∈ node.reads, i < means.length)
    (respects : ∀ xs, xs.map Prod.fst = node.reads → List.Forall₂ (fun x m => R x.2 m) xs (node.reads.map fun i => means.getD i default) →
      ∃ z, apply node.op xs = .ok z ∧ R z (f node.op (node.reads.map fun i => means.getD i default))) :
    ∃ next, stepM bad apply wires node = .ok next ∧
      List.Forall₂ R next (means ++ [f node.op (node.reads.map fun i => means.getD i default)]) := by
  obtain ⟨xs, found, indices, all⟩ := fetch_related related inside
  obtain ⟨z, applied, last⟩ := respects xs indices all
  refine ⟨wires ++ [z], ?_, List.rel_append related (.cons last .nil)⟩
  simp only [stepM, found, applied, Except.map]

/-- Every node of the program reads meanings that satisfy a condition. -/
def Along (f : Op → List β → β) (condition : Node Op → List β → Prop) : List β → List (Node Op) → Prop
  | _, [] => True
  | wires, node :: rest =>
    condition node (node.reads.map fun i => wires.getD i default) ∧
      Along f condition (wires ++ [f node.op (node.reads.map fun i => wires.getD i default)]) rest

theorem along_of_forall {condition : Node Op → List β → Prop} {nodes : List (Node Op)} (wires : List β)
    (every : ∀ node ∈ nodes, ∀ ms, condition node ms) : Along f condition wires nodes := by
  induction nodes generalizing wires with
  | nil => trivial
  | cons node rest ih =>
    exact ⟨every node List.mem_cons_self _, ih _ fun node' member => every node' (List.mem_cons_of_mem _ member)⟩

/-- Operations that respect the relation where the condition holds make every wire stand for its meaning. -/
theorem evalM_simulates_along {condition : Node Op → List β → Prop} {nodes : List (Node Op)} {wires : List α} {means : List β}
    (related : List.Forall₂ R wires means) (order : Scoped means.length nodes) (along : Along f condition means nodes)
    (respects : ∀ node xs ms, condition node ms → xs.map Prod.fst = node.reads → List.Forall₂ (fun x m => R x.2 m) xs ms →
      ∃ z, apply node.op xs = .ok z ∧ R z (f node.op ms)) :
    ∃ final, evalM bad apply wires nodes = .ok final ∧ List.Forall₂ R final (eval f means nodes) := by
  induction nodes generalizing wires means with
  | nil => exact ⟨wires, rfl, related⟩
  | cons node rest ih =>
    obtain ⟨inside, order⟩ := order
    obtain ⟨satisfied, along⟩ := along
    obtain ⟨next, once, related⟩ := stepM_simulates bad related inside fun xs => respects node xs _ satisfied
    obtain ⟨final, run, all⟩ := ih related (by simpa using order) along
    refine ⟨final, ?_, all⟩
    rw [evalM, List.foldlM_cons, once]
    exact run

/-- Operations that respect the relation make every wire of every program stand for its meaning. -/
theorem evalM_simulates {nodes : List (Node Op)} {wires : List α} {means : List β}
    (related : List.Forall₂ R wires means) (order : Scoped means.length nodes)
    (respects : ∀ node ∈ nodes, ∀ xs ms, xs.map Prod.fst = node.reads → List.Forall₂ (fun x m => R x.2 m) xs ms →
      ∃ z, apply node.op xs = .ok z ∧ R z (f node.op ms)) :
    ∃ final, evalM bad apply wires nodes = .ok final ∧ List.Forall₂ R final (eval f means nodes) :=
  evalM_simulates_along bad related order (along_of_forall means fun _ member _ => member)
    fun node xs ms member => respects node member xs ms

section Maps
variable {γ : Type*} [Inhabited γ] {g : β → γ} {f' : Op → List γ → γ}

theorem map_reads (empty : g default = default) (means : List β) (reads : List ℕ) :
    (reads.map fun i => means.getD i default).map g = reads.map fun i => (means.map g).getD i default := by
  rw [List.map_map]
  refine List.map_congr_left fun i _ => ?_
  rw [← empty, List.getD_map]
  rfl

variable (commutes : ∀ op ms, g (f op ms) = f' op (ms.map g)) (empty : g default = default)
include commutes empty

theorem map_next (means : List β) (node : Node Op) :
    (means ++ [f node.op (node.reads.map fun i => means.getD i default)]).map g =
      means.map g ++ [f' node.op (node.reads.map fun i => (means.map g).getD i default)] := by
  rw [List.map_append, List.map_singleton, commutes, map_reads empty]

/-- A map between meanings that commutes with the operations commutes with programs. -/
theorem map_eval (means : List β) (nodes : List (Node Op)) : (eval f means nodes).map g = eval f' (means.map g) nodes := by
  induction nodes generalizing means with
  | nil => rfl
  | cons node rest ih =>
    rw [eval, List.foldl_cons, ← eval, ih, map_next commutes empty]
    rfl

/-- A condition on what the map keeps. -/
theorem along_of_map (condition : Node Op → List γ → Prop) {means : List β} {nodes : List (Node Op)}
    (along : Along f' condition (means.map g) nodes) : Along f (fun node ms => condition node (ms.map g)) means nodes := by
  induction nodes generalizing means with
  | nil => trivial
  | cons node rest ih =>
    obtain ⟨satisfied, along⟩ := along
    rw [← map_next commutes empty] at along
    rw [← map_reads empty] at satisfied
    exact ⟨satisfied, ih along⟩

end Maps

end Simulation

variable {bad apply}

theorem stepM_ok {wires next : List α} {node : Node Op} (h : stepM bad apply wires node = .ok next) :
    ∃ xs z, apply node.op xs = .ok z ∧ next = wires ++ [z] := by
  unfold stepM at h
  cases found : fetch wires node.reads with
  | none =>
    rw [found] at h
    cases h
  | some xs =>
    rw [found] at h
    dsimp only at h
    cases applied : apply node.op xs with
    | error e =>
      rw [applied] at h
      cases h
    | ok z =>
      rw [applied] at h
      cases h
      exact ⟨xs, z, applied, rfl⟩

theorem evalM_last {nodes : List (Node Op)} {wires final : List α} (run : evalM bad apply wires nodes = .ok final)
    (some_node : nodes ≠ []) :
    ∃ node ∈ nodes, ∃ xs z before, apply node.op xs = .ok z ∧ final = before ++ [z] := by
  induction nodes generalizing wires with
  | nil => exact absurd rfl some_node
  | cons node rest ih =>
    rw [evalM, List.foldlM_cons] at run
    cases once : stepM bad apply wires node with
    | error e =>
      rw [once] at run
      cases run
    | ok next =>
      rw [once] at run
      by_cases more : rest = []
      · subst more
        cases run
        obtain ⟨xs, z, applied, rfl⟩ := stepM_ok once
        exact ⟨node, List.mem_cons_self, xs, z, wires, applied, rfl⟩
      · obtain ⟨node', member, last⟩ := ih run more
        exact ⟨node', List.mem_cons_of_mem _ member, last⟩

end Netlist
