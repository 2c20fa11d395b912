import Mathlib.Data.Finite.Defs
import Mathlib.Data.Fintype.EquivFin
import Mathlib.Data.List.Basic

/-!
# Loops that permute

A loop over `j < n` that writes `f j` at place `π j` of a list of `n` cells. When `π` permutes the places, every
cell holds just one of the values in the end.
-/

namespace Scatter
variable {α : Type*} {π : ℕ → ℕ} {f : ℕ → α} {n i : ℕ} {cells : List α}

/-- `π` permutes the numbers below `n`. -/
structure Permutes (π : ℕ → ℕ) (n : ℕ) : Prop where
  inside : ∀ j < n, π j < n
  injective : ∀ i < n, ∀ j < n, π i = π j → i = j

theorem Permutes.surjective (permutes : Permutes π n) {i : ℕ} (hi : i < n) : ∃ j < n, π j = i := by
  have injective : Function.Injective fun j : Fin n => (⟨π j, permutes.inside j j.2⟩ : Fin n) := by
    intro a b same
    exact Fin.ext (permutes.injective a a.2 b b.2 (congrArg Fin.val same))
  obtain ⟨j, hit⟩ := Finite.injective_iff_surjective.mp injective ⟨i, hi⟩
  exact ⟨j, j.2, congrArg Fin.val hit⟩

/-- What the first `i` passes have written. -/
structure Written (π : ℕ → ℕ) (f : ℕ → α) (n i : ℕ) (cells : List α) : Prop where
  length : cells.length = n
  value : ∀ j < i, cells[π j]? = some (f j)

theorem Written.start (length : cells.length = n) : Written π f n 0 cells :=
  ⟨length, fun _ h => absurd h (Nat.not_lt_zero _)⟩

theorem Written.store (permutes : Permutes π n) (now : Written π f n i cells) (hi : i < n) :
    Written π f n (i + 1) (cells.set (π i) (f i)) := by
  have inside : π i < cells.length := by rw [now.length]; exact permutes.inside i hi
  refine ⟨by rw [List.length_set, now.length], fun j hj => ?_⟩
  rcases Nat.lt_succ_iff_lt_or_eq.mp hj with before | rfl
  · rw [List.getElem?_set_ne, now.value j before]
    intro same
    have := permutes.injective i hi j (before.trans hi) same
    omega
  · exact List.getElem?_set_self inside

/-- The loop leaves just one list. -/
theorem Written.unique (permutes : Permutes π n) {cells' : List α} (last : Written π f n n cells)
    (last' : Written π f n n cells') : cells = cells' := by
  refine List.ext_getElem? fun i => ?_
  rcases Nat.lt_or_ge i n with inside | outside
  · obtain ⟨j, hj, rfl⟩ := permutes.surjective inside
    rw [last.value j hj, last'.value j hj]
  · rw [List.getElem?_eq_none (by rw [last.length]; exact outside),
      List.getElem?_eq_none (by rw [last'.length]; exact outside)]

theorem Written.forall_mem (permutes : Permutes π n) (last : Written π f n n cells) {P : α → Prop} :
    (∀ x ∈ cells, P x) ↔ ∀ j < n, P (f j) := by
  constructor
  · intro all j hj
    exact all _ (List.mem_of_getElem? (last.value j hj))
  · intro all x member
    obtain ⟨i, hi, rfl⟩ := List.getElem_of_mem member
    obtain ⟨j, hj, hit⟩ := permutes.surjective (hi.trans_eq last.length)
    have value := last.value j hj
    rw [hit, List.getElem?_eq_getElem hi] at value
    rw [Option.some.inj value]
    exact all j hj

end Scatter
