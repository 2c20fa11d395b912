import MultiKeyFHE.Native.Vector
import MultiKeyFHE.Library.InPlace
import Mathlib.Data.List.GetD

/-!
# The class of a look-up table

`checkInputFunction`, by which `EvalFunc` chooses how to evaluate a table: one bootstrapping for a table that changes its
sign after half of its length, two for one that repeats, and a larger modulus for the rest.
-/

namespace MultiKeyFHE.BinFHEScheme
open NativeInteger InPlace

/-- The loop over the pairs after the first. It stops where two entries do not agree. -/
def comparePairs (agree : ℕ → ℕ → Prop) [DecidableRel agree] (lut : List ℕ) (mid kind : ℕ) : List ℕ → Except Fault ℕ
  | [] => .ok kind
  | i :: rest => do
    let low ← load .outOfRange lut i
    let high ← load .outOfRange lut (mid + i)
    if agree low high then comparePairs agree lut mid kind rest else return 2

variable (w : NativeSize)

def checkInputFunction (lut : List ℕ) (mod : ℕ) : Except Fault ℕ := do
  let mid := lut.length / 2
  let low ← load .outOfRange lut 0
  let high ← load .outOfRange lut mid
  if low = sub w mod high then comparePairs (fun low high => low = sub w mod high) lut mid 0 (List.range' 1 (mid - 1))
  else if low = high then comparePairs (fun low high => low = high) lut mid 1 (List.range' 1 (mid - 1))
  else return 2

/-! ### What the classes are meant to be -/

/-- Entries half of the length apart add up to zero. -/
def ChangesSign (lut : List ℕ) (mod : ℕ) : Prop :=
  ∀ i < lut.length / 2, (lut.getD i 0 + lut.getD (lut.length / 2 + i) 0) % mod = 0

/-- They are equal. -/
def Repeats (lut : List ℕ) : Prop := ∀ i < lut.length / 2, lut.getD i 0 = lut.getD (lut.length / 2 + i) 0

/-- The answer of `checkInputFunction` is the class of the table. -/
def Classifies (lut : List ℕ) (mod : ℕ) : Prop :=
  ∃ kind, checkInputFunction w lut mod = .ok kind ∧ (kind = 0 ↔ ChangesSign lut mod) ∧
    (¬ ChangesSign lut mod → (kind = 1 ↔ Repeats lut)) ∧ (¬ ChangesSign lut mod → ¬ Repeats lut → kind = 2)

instance (lut : List ℕ) (mod : ℕ) : Decidable (ChangesSign lut mod) := inferInstanceAs (Decidable (∀ i < _, _ = _))

instance (lut : List ℕ) : Decidable (Repeats lut) := inferInstanceAs (Decidable (∀ i < _, _ = _))

variable {w} {lut : List ℕ} {mod : ℕ}

theorem load_getD {i : ℕ} (inside : i < lut.length) : load Fault.outOfRange lut i = .ok (lut.getD i 0) := by
  rw [load_ok _ inside, List.getD_eq_getElem _ _ inside]

theorem comparePairs_eq (agree : ℕ → ℕ → Prop) [DecidableRel agree] {mid kind : ℕ} {indices : List ℕ}
    (inside : ∀ i ∈ indices, mid + i < lut.length) :
    comparePairs agree lut mid kind indices =
      .ok (if ∀ i ∈ indices, agree (lut.getD i 0) (lut.getD (mid + i) 0) then kind else 2) := by
  induction indices with
  | nil => simp [comparePairs]
  | cons i rest ih =>
    have first := inside i (List.mem_cons_self ..)
    rw [comparePairs, load_getD (show i < lut.length by omega), load_getD first]
    dsimp only [bind, Except.bind]
    by_cases here : agree (lut.getD i 0) (lut.getD (mid + i) 0)
    · rw [if_pos here, ih fun i member => inside i (List.mem_cons_of_mem _ member)]
      exact congrArg Except.ok (if_congr (by rw [List.forall_mem_cons]; exact (and_iff_right here).symm) rfl rfl)
    · rw [if_neg here, if_neg fun all => here (all i (List.mem_cons_self ..))]
      rfl

/-- The other pairs and the first are all the pairs. -/
theorem forall_pairs_iff {mid : ℕ} (pos : 0 < mid) {P : ℕ → Prop} :
    (P 0 ∧ ∀ i ∈ List.range' 1 (mid - 1), P i) ↔ ∀ i < mid, P i := by
  simp only [List.mem_range'_1]
  constructor
  · rintro ⟨first, others⟩ i inside
    rcases Nat.eq_zero_or_pos i with rfl | later
    · exact first
    · exact others i ⟨later, by omega⟩
  · intro all
    exact ⟨all 0 pos, fun i inside => all i (by omega)⟩

theorem checkInputFunction_eq (long : 2 ≤ lut.length) :
    checkInputFunction w lut mod = .ok
      (if ∀ i < lut.length / 2, lut.getD i 0 = sub w mod (lut.getD (lut.length / 2 + i) 0) then 0
      else if lut.getD 0 0 = sub w mod (lut.getD (lut.length / 2) 0) then 2
      else if Repeats lut then 1 else 2) := by
  have pos : 0 < lut.length / 2 := by omega
  have inside : ∀ i ∈ List.range' 1 (lut.length / 2 - 1), lut.length / 2 + i < lut.length := by
    intro i member
    have := List.mem_range'_1.mp member
    omega
  rw [checkInputFunction, load_getD (show 0 < lut.length by omega), load_getD (show lut.length / 2 < lut.length by omega)]
  dsimp only [bind, Except.bind]
  by_cases opposite : lut.getD 0 0 = sub w mod (lut.getD (lut.length / 2) 0)
  · rw [if_pos opposite, comparePairs_eq _ inside, if_pos opposite]
    have all := forall_pairs_iff pos (P := fun i => lut.getD i 0 = sub w mod (lut.getD (lut.length / 2 + i) 0))
    exact congrArg Except.ok (if_congr (by rw [← all]; exact (and_iff_right opposite).symm) rfl rfl)
  · rw [if_neg opposite, if_neg opposite, if_neg (fun all => opposite (all 0 pos) :
      ¬ ∀ i < lut.length / 2, lut.getD i 0 = sub w mod (lut.getD (lut.length / 2 + i) 0))]
    by_cases same : lut.getD 0 0 = lut.getD (lut.length / 2) 0
    · rw [if_pos same, comparePairs_eq _ inside]
      have all := forall_pairs_iff pos (P := fun i => lut.getD i 0 = lut.getD (lut.length / 2 + i) 0)
      exact congrArg Except.ok (if_congr (by rw [Repeats, ← all]; exact (and_iff_right same).symm) rfl rfl)
    · rw [if_neg same, if_neg fun all : Repeats lut => same (all 0 pos)]
      rfl

/-- The difference that is not reduced misses the pair of two zeros. -/
theorem eq_sub_iff {a b : ℕ} (ha : a < mod) (hb : b < mod) (word : mod < 2 ^ w.bits) :
    a = sub w mod b ↔ (a + b) % mod = 0 ∧ a ≠ 0 := by
  have difference : sub w mod b = mod - b := by
    rw [sub, show mod + 2 ^ w.bits - b = mod - b + 2 ^ w.bits by omega, wrap, Nat.add_mod_right,
      Nat.mod_eq_of_lt (by omega)]
  rw [difference]
  constructor
  · intro same
    refine ⟨?_, by omega⟩
    rw [show a + b = mod by omega, Nat.mod_self]
  · rintro ⟨zero, nonzero⟩
    have whole := Nat.eq_of_dvd_of_lt_two_mul (show a + b ≠ 0 by omega) (Nat.dvd_of_mod_eq_zero zero) (by omega)
    omega

section Table
variable (below : ∀ a ∈ lut, a < mod) (word : mod < 2 ^ w.bits)
include below

theorem getD_lt {i : ℕ} (inside : i < lut.length) : lut.getD i 0 < mod := by
  rw [List.getD_eq_getElem _ _ inside]
  exact below _ (List.getElem_mem _)

include word

theorem all_opposite_iff : (∀ i < lut.length / 2, lut.getD i 0 = sub w mod (lut.getD (lut.length / 2 + i) 0)) ↔
    ChangesSign lut mod ∧ ∀ i < lut.length / 2, lut.getD i 0 ≠ 0 := by
  have pair : ∀ i < lut.length / 2, (lut.getD i 0 = sub w mod (lut.getD (lut.length / 2 + i) 0) ↔
      (lut.getD i 0 + lut.getD (lut.length / 2 + i) 0) % mod = 0 ∧ lut.getD i 0 ≠ 0) := fun i inside =>
    eq_sub_iff (getD_lt below (by omega)) (getD_lt below (by omega)) word
  rw [ChangesSign]
  constructor
  · intro all
    exact ⟨fun i inside => ((pair i inside).mp (all i inside)).1, fun i inside => ((pair i inside).mp (all i inside)).2⟩
  · rintro ⟨sums, nonzero⟩ i inside
    exact (pair i inside).mpr ⟨sums i inside, nonzero i inside⟩

/-- The class is right unless a table that changes its sign has a zero, or one that repeats begins with half of the
modulus. -/
theorem classifies_iff (long : 2 ≤ lut.length) : Classifies w lut mod ↔
    (ChangesSign lut mod → ∀ i < lut.length / 2, lut.getD i 0 ≠ 0) ∧
      (¬ ChangesSign lut mod → Repeats lut → 2 * lut.getD 0 0 ≠ mod) := by
  have pos : 0 < lut.length / 2 := by omega
  have first : lut.getD 0 0 < mod := getD_lt below (by omega)
  have opposite := eq_sub_iff (w := w) first (getD_lt below (show lut.length / 2 < lut.length by omega)) word
  rw [Classifies, checkInputFunction_eq long]
  simp only [Except.ok.injEq, exists_eq_left', all_opposite_iff below word]
  by_cases changes : ChangesSign lut mod
  · by_cases nonzero : ∀ i < lut.length / 2, lut.getD i 0 ≠ 0
    · rw [if_pos ⟨changes, nonzero⟩]
      exact iff_of_true ⟨iff_of_true rfl changes, fun h => absurd changes h, fun h => absurd changes h⟩
        ⟨fun _ => nonzero, fun h => absurd changes h⟩
    · rw [if_neg fun both => nonzero both.2]
      constructor
      · rintro ⟨zero, -⟩
        have impossible := zero.mpr changes
        split at impossible
        · cases impossible
        · split at impossible <;> cases impossible
      · rintro ⟨all, -⟩
        exact absurd (all changes) nonzero
  · rw [if_neg fun both => changes both.1]
    by_cases repeats : Repeats lut
    · have half : lut.getD 0 0 = sub w mod (lut.getD (lut.length / 2) 0) ↔ 2 * lut.getD 0 0 = mod := by
        have same := repeats 0 pos
        rw [add_zero] at same
        rw [opposite, ← same, ← two_mul]
        constructor
        · rintro ⟨zero, nonzero⟩
          exact Nat.eq_of_dvd_of_lt_two_mul (by omega) (Nat.dvd_of_mod_eq_zero zero) (by omega)
        · intro whole
          exact ⟨by rw [whole, Nat.mod_self], by omega⟩
      by_cases whole : 2 * lut.getD 0 0 = mod
      · rw [if_pos (half.mpr whole)]
        refine iff_of_false ?_ fun both => both.2 changes repeats whole
        rintro ⟨-, one, -⟩
        cases (one changes).mpr repeats
      · rw [if_neg fun h => whole (half.mp h), if_pos repeats]
        exact iff_of_true ⟨iff_of_false one_ne_zero changes, fun _ => iff_of_true rfl repeats, fun _ h => absurd repeats h⟩
          ⟨fun h => absurd h changes, fun _ _ => whole⟩
    · rw [if_neg repeats, ite_self]
      exact iff_of_true ⟨iff_of_false two_ne_zero changes, fun _ => iff_of_false (by decide) repeats, fun _ _ => rfl⟩
        ⟨fun h => absurd h changes, fun _ h => absurd h repeats⟩

end Table

theorem cube_classified : Classifies .w64 [1, 3, 15, 13] 16 :=
  (classifies_iff (by decide) (by decide) (by decide)).mpr ⟨by decide, by decide⟩

/-- A table that changes its sign and starts with zero is taken for an arbitrary one, and so is one that repeats half of
the modulus and another entry. -/
theorem zero_and_half_misclassified :
    ChangesSign [0, 1, 0, 15] 16 ∧ checkInputFunction .w64 [0, 1, 0, 15] 16 = .ok 2 ∧
      ¬ ChangesSign [8, 1, 8, 1] 16 ∧ Repeats [8, 1, 8, 1] ∧ checkInputFunction .w64 [8, 1, 8, 1] 16 = .ok 2 ∧
      ¬ Classifies .w64 [0, 1, 0, 15] 16 ∧ ¬ Classifies .w64 [8, 1, 8, 1] 16 := by
  refine ⟨by decide, rfl, by decide, by decide, rfl, ?_, ?_⟩
  · rintro ⟨kind, answer, zero, -⟩
    cases (answer.symm.trans (rfl : checkInputFunction .w64 [0, 1, 0, 15] 16 = .ok 2))
    exact absurd (zero.mpr (by decide)) (by decide)
  · rintro ⟨kind, answer, -, one, -⟩
    cases (answer.symm.trans (rfl : checkInputFunction .w64 [8, 1, 8, 1] 16 = .ok 2))
    exact absurd ((one (by decide)).mpr (by decide)) (by decide)

end MultiKeyFHE.BinFHEScheme
