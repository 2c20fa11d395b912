import MultiKeyFHE.Accumulator.Schedule

/-!
# The cost of an LMKCDEY rotation

How many products and automorphisms `EvalAcc` asks for. A rotation that is due is made when the next bucket needs it,
when the window of `numAutoKeys` steps is full, or at the end of a loop.
-/

namespace MultiKeyFHE
open NativeInteger PowersOfFive

namespace RingGSW
variable {p : RingGSWCryptoParams} {n : ℕ}

def Call.isAutomorphism : Call n → Bool
  | addToAcc _ => false
  | automorphism _ _ => true

namespace Walk

def turns (walk : Walk n) : ℕ := walk.calls.countP Call.isAutomorphism

section Steps
variable {w : NativeSize} {M numAutoKeys : ℕ} (walk : Walk n)

theorem rotate_turns : (walk.rotate w M).turns = walk.turns + 1 := by
  simp [turns, rotate, Call.isAutomorphism]

theorem add_turns (indexVec : List (Fin n)) : (walk.add indexVec).turns = walk.turns := by
  have none : (indexVec.map Call.addToAcc).countP Call.isAutomorphism = 0 := by
    induction indexVec with
    | nil => rfl
    | cons i rest ih => simp [Call.isAutomorphism]
  rw [turns, turns, add, List.countP_append, none, Nat.add_zero]

theorem addFound_turns (found : Option (List (Fin n))) : (walk.addFound found).turns = walk.turns := by
  cases found with
  | none => rfl
  | some indexVec => exact add_turns walk indexVec

theorem addFound_skips (found : Option (List (Fin n))) : (walk.addFound found).nSkips = walk.nSkips := by
  cases found <;> rfl

/-- A window pays for its rotation step by step; a bucket and the last step of a loop pay at once. -/
theorem visit_turns (keys : 1 ≤ numAutoKeys) (found : Option (List (Fin n))) (i : ℕ) :
    numAutoKeys * (walk.visit w M numAutoKeys found i).turns + (walk.visit w M numAutoKeys found i).nSkips ≤
      numAutoKeys * walk.turns + walk.nSkips + 1 + numAutoKeys * (if found.isSome then 1 else 0) +
        numAutoKeys * (if i = 1 then 1 else 0) := by
  have last : ∀ s : Walk n, numAutoKeys * (if s.nSkips = numAutoKeys ∨ i = 1 then s.rotate w M else s).turns +
      (if s.nSkips = numAutoKeys ∨ i = 1 then s.rotate w M else s).nSkips ≤
        numAutoKeys * s.turns + s.nSkips + numAutoKeys * (if i = 1 then 1 else 0) := by
    intro s
    by_cases finished : i = 1
    · rw [if_pos (.inr finished), if_pos finished, rotate_turns, Nat.mul_succ]
      simp only [rotate]
      omega
    · by_cases full : s.nSkips = numAutoKeys
      · rw [if_pos (.inl full), if_neg finished, rotate_turns, Nat.mul_succ, full]
        simp [rotate]
      · rw [if_neg (by simp [full, finished]), if_neg finished]
        omega
  have flush : ∀ indexVec : List (Fin n),
      numAutoKeys * ((if walk.nSkips ≠ 0 then walk.rotate w M else walk).add indexVec).turns +
        ((if walk.nSkips ≠ 0 then walk.rotate w M else walk).add indexVec).nSkips ≤
          numAutoKeys * walk.turns + walk.nSkips + numAutoKeys := by
    intro indexVec
    rw [add_turns]
    by_cases due : walk.nSkips ≠ 0
    · rw [if_pos due, rotate_turns, Nat.mul_succ]
      simp [add, rotate]
    · rw [if_neg due]
      simp only [add]
      omega
  unfold visit
  cases found with
  | none =>
    refine (last _).trans ?_
    simp only [turns, Option.isSome_none, Bool.false_eq_true, if_false]
    omega
  | some indexVec =>
    refine (last _).trans ?_
    have made := flush indexVec
    simp only [Option.isSome_some, if_true]
    simp only [turns] at made ⊢
    omega

theorem descend_turns (keys : 1 ≤ numAutoKeys) (bucket : ℕ → Option (List (Fin n))) (m : ℕ) :
    numAutoKeys * (walk.descend w M numAutoKeys bucket m).turns + (walk.descend w M numAutoKeys bucket m).nSkips ≤
      numAutoKeys * walk.turns + walk.nSkips + m +
        numAutoKeys * (∑ l ∈ Finset.range m, if (bucket (l + 1)).isSome then 1 else 0) + numAutoKeys := by
  have steps : ∀ (m : ℕ) (walk : Walk n),
      numAutoKeys * (walk.descend w M numAutoKeys bucket m).turns + (walk.descend w M numAutoKeys bucket m).nSkips ≤
        numAutoKeys * walk.turns + walk.nSkips + m +
          numAutoKeys * (∑ l ∈ Finset.range m, if (bucket (l + 1)).isSome then 1 else 0) +
          numAutoKeys * (if m = 0 then 0 else 1) := by
    intro m
    induction m with
    | zero => simp [descend]
    | succ m ih =>
      intro walk
      refine (ih _).trans ?_
      have once := visit_turns (w := w) (M := M) walk keys (bucket (m + 1)) (m + 1)
      rw [Finset.sum_range_succ, mul_add]
      rcases Nat.eq_zero_or_pos m with rfl | more
      · simp only [Nat.zero_add, if_true] at once ⊢
        simp only [Finset.range_zero, Finset.sum_empty, one_ne_zero, if_false] at once ⊢
        omega
      · rw [if_neg more.ne', if_neg (Nat.succ_ne_zero m)]
        rw [if_neg (by omega : ¬ m + 1 = 1)] at once
        omega
  refine (steps m walk).trans ?_
  split <;> omega

end Steps
end Walk

/-! ### Buckets -/

/-- An entry is made only for an index that is appended to it. -/
theorem permuteMap_ne_nil (w : NativeSize) (M : ℕ) (logGen : ℕ → ℤ) (a : Fin n → ℕ) {key : ℤ}
    (there : (permuteMap w M logGen a key).isSome) : (permuteMap w M logGen a key).getD [] ≠ [] := by
  rw [permuteMap_eq]
  have fold : ∀ (indices : List (Fin n)) (map : ℤ → Option (List (Fin n))),
      (indices.foldl (fun permuteMap i =>
        let index := logOf w M logGen (a i)
        let permuteMap := if permuteMap index = none then Function.update permuteMap index (some []) else permuteMap
        Function.update permuteMap index ((permuteMap index).map (· ++ [i]))) map key).isSome →
      (map key).isSome ∨ ∃ i ∈ indices, logOf w M logGen (a i) = key := by
    intro indices
    induction indices with
    | nil => exact fun _ found => .inl found
    | cons i indices ih =>
      intro map found
      by_cases here : logOf w M logGen (a i) = key
      · exact .inr ⟨i, List.mem_cons_self, here⟩
      · rcases ih _ found with before | ⟨j, member, same⟩
        · left
          have elsewhere : key ≠ logOf w M logGen (a i) := Ne.symm here
          dsimp only at before
          rw [Function.update_of_ne elsewhere] at before
          split at before
          · rwa [Function.update_of_ne elsewhere] at before
          · exact before
        · exact .inr ⟨j, List.mem_cons_of_mem i member, same⟩
  rcases fold _ _ there with absent | ⟨i, member, same⟩
  · cases absent
  · exact List.ne_nil_of_mem (List.mem_filter.mpr ⟨member, by simpa using same⟩)

section Ring
variable {w : NativeSize} {e : ℕ} {a : Fin n → ℕ} (ring : p.N = 2 ^ (e + 1)) (more : 1 ≤ e) (narrow : modulus e < 2 ^ 32)
include more narrow

/-- Every index is in one bucket. -/
theorem sum_lengths (small : ∀ j, a j < modulus e) :
    ∑ i ∈ Finset.range (2 ^ e), (bucketOf w e a true i).length + ∑ i ∈ Finset.range (2 ^ e), (bucketOf w e a false i).length =
      n := by
  have length : ∀ l : List (Fin n), l.length = ∑ j, l.count j := by
    intro l
    have all := Multiset.sum_count_eq_card (s := Finset.univ) (m := (l : Multiset (Fin n))) fun _ _ => Finset.mem_univ _
    simpa using all.symm
  simp only [length]
  rw [Finset.sum_comm, Finset.sum_comm (s := Finset.range (2 ^ e)), ← Finset.sum_add_distrib,
    Finset.sum_congr rfl fun j _ => sum_count_buckets (w := w) more narrow small j]
  simp

include ring

theorem sum_found (small : ∀ j, a j < modulus e) :
    (∑ l ∈ Finset.range (p.N / 2 - 1),
        if (permuteMap w (2 * p.N % 2 ^ 32) (logGen p.N) a (int32 (-(l + 1 : ℕ)))).isSome then 1 else 0) +
      (∑ l ∈ Finset.range (p.N / 2 - 1),
        if (permuteMap w (2 * p.N % 2 ^ 32) (logGen p.N) a (int32 (l + 1 : ℕ))).isSome then 1 else 0) ≤ n := by
  have single : ∀ key, (if (permuteMap w (2 * p.N % 2 ^ 32) (logGen p.N) a key).isSome then 1 else 0) ≤
      ((permuteMap w (2 * p.N % 2 ^ 32) (logGen p.N) a key).getD []).length := by
    intro key
    split
    · rename_i there
      exact List.length_pos_iff.mpr (permuteMap_ne_nil w _ _ a there)
    · exact Nat.zero_le _
  have negatives := Finset.sum_le_sum fun l (_ : l ∈ Finset.range (p.N / 2 - 1)) => single (int32 (-(l + 1 : ℕ)))
  have positives := Finset.sum_le_sum fun l (_ : l ∈ Finset.range (p.N / 2 - 1)) => single (int32 (l + 1 : ℕ))
  simp only [found_true ring narrow (Nat.add_one_ne_zero _), found_false ring narrow] at negatives positives
  have all := sum_lengths more narrow (w := w) small
  rw [← sum_with_zero ring fun i => (bucketOf w e a true i).length,
    ← sum_with_zero ring fun i => (bucketOf w e a false i).length] at all
  omega

theorem schedule_turns (keys : 1 ≤ p.numAutoKeys) (small : ∀ j, a j < modulus e) :
    p.numAutoKeys * (schedule w p a).countP Call.isAutomorphism ≤ p.N - 2 + p.numAutoKeys * (n + 3) := by
  have found := Nat.mul_le_mul_left p.numAutoKeys (sum_found ring more narrow (w := w) small)
  have first := Walk.descend_turns (w := w) (M := 2 * p.N % 2 ^ 32) (⟨0, []⟩ : Walk n) keys
    (fun i => permuteMap w (2 * p.N % 2 ^ 32) (logGen p.N) a (int32 (-i))) (p.N / 2 - 1)
  have second := fun walk : Walk n => Walk.descend_turns (w := w) (M := 2 * p.N % 2 ^ 32) walk keys
    (fun i => permuteMap w (2 * p.N % 2 ^ 32) (logGen p.N) a (int32 i)) (p.N / 2 - 1)
  have turned : ∀ walk : Walk n, Walk.turns { walk with calls := walk.calls ++ [.automorphism (2 * p.N % 2 ^ 32 - 5) 0] } =
      walk.turns + 1 := by
    intro walk
    simp [Walk.turns, Call.isAutomorphism]
  change p.numAutoKeys * Walk.turns (Walk.addFound _ _) ≤ _
  rw [Walk.addFound_turns]
  refine (Nat.le_of_add_right_le (second _)).trans ?_
  rw [turned, Walk.addFound_turns]
  dsimp only
  rw [Walk.addFound_skips]
  have start : Walk.turns (⟨0, []⟩ : Walk n) = 0 := rfl
  have settled : (⟨0, []⟩ : Walk n).nSkips = 0 := rfl
  rw [start, settled] at first
  rw [mul_add] at found
  rw [mul_add, mul_one, mul_add]
  omega

end Ring
end RingGSW
end MultiKeyFHE
