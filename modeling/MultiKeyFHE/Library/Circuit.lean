import Mathlib.Data.List.Forall2
import Mathlib.Data.List.GetD

/-!
# Straight-line circuits of one binary gate

A circuit is a list of gates that read earlier wires by index. `evalM` runs it with a fallible gate on
values of any type; the gate also sees the two indices, since a value may be told apart by where it is
stored. `evalM_simulates` carries a relation with the boolean values through a whole run.
-/

namespace Circuit
variable {α ε : Type*}

/-- Gates in the order of evaluation, each with the wires it reads. -/
abbrev Gates := List (ℕ × ℕ)

/-- Every gate reads wires that exist, `wires` being the number of wires before the first gate. -/
def Scoped : ℕ → Gates → Prop
  | _, [] => True
  | wires, g :: rest => g.1 < wires ∧ g.2 < wires ∧ Scoped (wires + 1) rest

/-- No gate reads one wire twice. -/
def Distinct (gates : Gates) : Prop := ∀ g ∈ gates, g.1 ≠ g.2

instance : (wires : ℕ) → (gates : Gates) → Decidable (Scoped wires gates)
  | _, [] => .isTrue trivial
  | wires, _ :: rest =>
    have := instDecidableScoped (wires + 1) rest
    inferInstanceAs (Decidable (_ ∧ _ ∧ _))

instance (gates : Gates) : Decidable (Distinct gates) := inferInstanceAs (Decidable (∀ g ∈ gates, _))

/-- One gate on the wires so far; `bad` is the failure of a read past the end. -/
def stepM (bad : ε) (gate : ℕ → ℕ → α → α → Except ε α) (wires : List α) (g : ℕ × ℕ) :
    Except ε (List α) := do
  let some x := wires[g.1]? | throw bad
  let some y := wires[g.2]? | throw bad
  let z ← gate g.1 g.2 x y
  return wires ++ [z]

/-- All wires after the circuit. -/
def evalM (bad : ε) (gate : ℕ → ℕ → α → α → Except ε α) (wires : List α) (gates : Gates) :
    Except ε (List α) := gates.foldlM (stepM bad gate) wires

/-- The boolean value of every wire, `f` being the gate. -/
def eval (f : Bool → Bool → Bool) (wires : List Bool) (gates : Gates) : List Bool :=
  gates.foldl (fun wires g => wires ++ [f (wires.getD g.1 false) (wires.getD g.2 false)]) wires

theorem stepM_eq {bad : ε} {gate : ℕ → ℕ → α → α → Except ε α} {wires : List α} {g : ℕ × ℕ} {x y : α}
    (hx : wires[g.1]? = some x) (hy : wires[g.2]? = some y) :
    stepM bad gate wires g = (gate g.1 g.2 x y >>= fun z => return wires ++ [z]) := by
  simp only [stepM, hx, hy]

section Simulation
variable {R : α → Bool → Prop} (bad : ε) {gate : ℕ → ℕ → α → α → Except ε α} {f : Bool → Bool → Bool}

theorem related_get {wires : List α} {bits : List Bool} (related : List.Forall₂ R wires bits) {i : ℕ}
    (hi : i < bits.length) : ∃ x, wires[i]? = some x ∧ R x (bits.getD i false) := by
  have hlen : i < wires.length := by rw [related.length_eq]; exact hi
  refine ⟨wires[i], List.getElem?_eq_getElem hlen, ?_⟩
  rw [List.getD_eq_getElem _ _ hi]
  exact related.get hlen hi

theorem stepM_simulates {wires : List α} {bits : List Bool} (related : List.Forall₂ R wires bits)
    {g : ℕ × ℕ} (h1 : g.1 < bits.length) (h2 : g.2 < bits.length)
    (respects : ∀ x y a b, R x a → R y b → ∃ z, gate g.1 g.2 x y = .ok z ∧ R z (f a b)) :
    ∃ next, stepM bad gate wires g = .ok next ∧
      List.Forall₂ R next (bits ++ [f (bits.getD g.1 false) (bits.getD g.2 false)]) := by
  obtain ⟨x, hx, rx⟩ := related_get related h1
  obtain ⟨y, hy, ry⟩ := related_get related h2
  obtain ⟨z, hz, rz⟩ := respects x y _ _ rx ry
  refine ⟨wires ++ [z], ?_, List.rel_append related (.cons rz .nil)⟩
  rw [stepM_eq hx hy, hz]
  rfl

/-- A gate that respects the relation makes every wire of every circuit related to its boolean value. -/
theorem evalM_simulates {gates : Gates} {wires : List α} {bits : List Bool}
    (related : List.Forall₂ R wires bits) (reads : Scoped bits.length gates)
    (respects : ∀ g ∈ gates, ∀ x y a b, R x a → R y b → ∃ z, gate g.1 g.2 x y = .ok z ∧ R z (f a b)) :
    ∃ final, evalM bad gate wires gates = .ok final ∧ List.Forall₂ R final (eval f bits gates) := by
  induction gates generalizing wires bits with
  | nil => exact ⟨wires, rfl, related⟩
  | cons g rest ih =>
    obtain ⟨h1, h2, reads⟩ := reads
    obtain ⟨next, once, related⟩ := stepM_simulates bad related h1 h2 (respects g List.mem_cons_self)
    obtain ⟨final, run, last⟩ := ih related (by simpa using reads)
      fun g hg => respects g (List.mem_cons_of_mem _ hg)
    refine ⟨final, ?_, last⟩
    rw [evalM, List.foldlM_cons, once]
    exact run

variable {bad}

theorem stepM_ok {wires next : List α} {g : ℕ × ℕ} (h : stepM bad gate wires g = .ok next) :
    ∃ x y z, wires[g.1]? = some x ∧ wires[g.2]? = some y ∧ gate g.1 g.2 x y = .ok z ∧
      next = wires ++ [z] := by
  cases hx : wires[g.1]? with
  | none =>
    simp only [stepM, hx] at h
    cases h
  | some x =>
    cases hy : wires[g.2]? with
    | none =>
      simp only [stepM, hx, hy] at h
      cases h
    | some y =>
      rw [stepM_eq hx hy] at h
      cases hz : gate g.1 g.2 x y with
      | error e =>
        rw [hz] at h
        cases h
      | ok z =>
        rw [hz] at h
        cases h
        exact ⟨x, y, z, rfl, rfl, hz, rfl⟩

theorem evalM_extends {gates : Gates} {wires final : List α} (run : evalM bad gate wires gates = .ok final) :
    wires <+: final := by
  induction gates generalizing wires with
  | nil =>
    cases run
    exact List.prefix_rfl
  | cons g rest ih =>
    rw [evalM, List.foldlM_cons] at run
    cases once : stepM bad gate wires g with
    | error e =>
      rw [once] at run
      cases run
    | ok next =>
      rw [once] at run
      obtain ⟨x, y, z, -, -, -, rfl⟩ := stepM_ok once
      exact (List.prefix_append _ _).trans (ih run)

theorem eval_extends (f : Bool → Bool → Bool) (gates : Gates) (bits : List Bool) : bits <+: eval f bits gates := by
  induction gates generalizing bits with
  | nil => exact List.prefix_rfl
  | cons g rest ih => exact (List.prefix_append _ _).trans (ih _)

theorem evalM_first {g : ℕ × ℕ} {rest : Gates} {wires final : List α} {bits : List Bool}
    (run : evalM bad gate wires (g :: rest) = .ok final) (related : List.Forall₂ R final (eval f bits (g :: rest)))
    (start : wires.length = bits.length) :
    ∃ z, (∀ x y, wires[g.1]? = some x → wires[g.2]? = some y → gate g.1 g.2 x y = .ok z) ∧
      R z (f (bits.getD g.1 false) (bits.getD g.2 false)) := by
  rw [evalM, List.foldlM_cons] at run
  cases once : stepM bad gate wires g with
  | error e =>
    rw [once] at run
    cases run
  | ok next =>
    rw [once] at run
    obtain ⟨x, y, z, hx, hy, hz, rfl⟩ := stepM_ok once
    refine ⟨z, fun x' y' hx' hy' => ?_, ?_⟩
    · cases hx.symm.trans hx'
      cases hy.symm.trans hy'
      exact hz
    · obtain ⟨more, rfl⟩ := evalM_extends run
      obtain ⟨moreBits, same⟩ := eval_extends f rest (bits ++ [f (bits.getD g.1 false) (bits.getD g.2 false)])
      have split : eval f bits (g :: rest) = bits ++ (f (bits.getD g.1 false) (bits.getD g.2 false) :: moreBits) := by
        rw [List.append_cons, same]
        rfl
      rw [split, ← List.append_cons] at related
      have later := List.forall₂_drop_append _ _ _ related
      rw [← start, List.drop_left] at later
      cases later with
      | cons last _ => exact last

end Simulation
end Circuit
