import MultiKeyFHE.Accumulator.LMKCDEY

/-!
# The LMKCDEY rotation is exact

What the walk of `EvalAcc` keeps: the rotations that are due have a key, and making them later does not change the
phase that they lead to. Both loops together rotate by one, so the accumulator ends at the test polynomial times the
monomial of the odd entries (`evalAccLMKCDEY_exact`).
-/

namespace MultiKeyFHE
open Negacyclic NegPoly NativeInteger Draws Sampler PowersOfFive

namespace RingGSW
variable {p : RingGSWCryptoParams} {n : ℕ}

/-! ### What the walk does -/

/-- The key that a call reads was generated for its automorphism. -/
def Call.Keyed (w : NativeSize) (p : RingGSWCryptoParams) : Call n → Prop
  | .addToAcc _ => True
  | .automorphism a index => index ≤ p.numAutoKeys ∧ a = autoExponent w p index

/-- What a call does to the phase, for exponents `c * s i`. -/
def Call.apply [NeZero p.N] (c : ℤ) (s : Fin n → ℤ) (P : Poly p) : Call n → Poly p
  | .addToAcc index => P * xpow (c * s index)
  | .automorphism a _ => substPow a P

namespace Walk

/-- There are keys for the rotations that are due, and for those that were made. -/
structure Sound (w : NativeSize) (p : RingGSWCryptoParams) (walk : Walk n) : Prop where
  due : walk.nSkips < p.numAutoKeys
  keyed : ∀ call ∈ walk.calls, call.Keyed w p

def uses (walk : Walk n) (i : Fin n) : ℕ := walk.calls.count (.addToAcc i)

/-- The phase when the rotations that are due have been made. -/
def phase [NeZero p.N] (c : ℤ) (s : Fin n → ℤ) (P : Poly p) (walk : Walk n) : Poly p :=
  substPow (5 ^ walk.nSkips) (walk.calls.foldl (Call.apply c s) P)

section Steps
variable {w : NativeSize} {M : ℕ} {walk : Walk n}

theorem rotate_keyed (cyclotomic : M = 2 * p.N % 2 ^ 32) (due : walk.nSkips ≠ 0) (keys : walk.nSkips ≤ p.numAutoKeys)
    (keyed : ∀ call ∈ walk.calls, call.Keyed w p) : ∀ call ∈ (walk.rotate w M).calls, call.Keyed w p := by
  intro call member
  rcases List.mem_append.mp member with before | last
  · exact keyed call before
  · obtain rfl := List.mem_singleton.mp last
    exact ⟨keys, by rw [autoExponent, if_neg due, cyclotomic]⟩

theorem add_keyed (indexVec : List (Fin n)) (keyed : ∀ call ∈ walk.calls, call.Keyed w p) :
    ∀ call ∈ (walk.add indexVec).calls, call.Keyed w p := by
  intro call member
  rcases List.mem_append.mp member with before | added
  · exact keyed call before
  · obtain ⟨i, -, rfl⟩ := List.mem_map.mp added
    trivial

theorem visit_sound (cyclotomic : M = 2 * p.N % 2 ^ 32) (sound : walk.Sound w p) (found : Option (List (Fin n))) (i : ℕ) :
    (walk.visit w M p.numAutoKeys found i).Sound w p := by
  obtain ⟨due, keyed⟩ := sound
  have bucket : ∃ next : Walk n, (next.nSkips < p.numAutoKeys ∧ ∀ call ∈ next.calls, call.Keyed w p) ∧
      walk.visit w M p.numAutoKeys found i =
        (let s : Walk n := { next with nSkips := next.nSkips + 1 }
         if s.nSkips = p.numAutoKeys ∨ i = 1 then s.rotate w M else s) := by
    cases found with
    | none => exact ⟨walk, ⟨due, keyed⟩, rfl⟩
    | some indexVec =>
      refine ⟨_, ?_, rfl⟩
      by_cases skipped : walk.nSkips ≠ 0
      · rw [if_pos skipped]
        exact ⟨by unfold add rotate; dsimp only; omega, add_keyed indexVec (rotate_keyed cyclotomic skipped due.le keyed)⟩
      · rw [if_neg skipped]
        exact ⟨due, add_keyed indexVec keyed⟩
  obtain ⟨next, ⟨due', keyed'⟩, visited⟩ := bucket
  rw [visited]
  dsimp only
  split
  · exact ⟨by unfold rotate; dsimp only; omega, rotate_keyed cyclotomic (Nat.succ_ne_zero _) due' keyed'⟩
  · exact ⟨by dsimp only; omega, keyed'⟩

theorem descend_sound (cyclotomic : M = 2 * p.N % 2 ^ 32) (sound : walk.Sound w p) (bucket : ℕ → Option (List (Fin n)))
    (m : ℕ) : (walk.descend w M p.numAutoKeys bucket m).Sound w p := by
  induction m generalizing walk with
  | zero => exact sound
  | succ m ih => exact ih (visit_sound cyclotomic sound _ _)

/-! #### How often a key is used -/

theorem rotate_uses (i : Fin n) : (walk.rotate w M).uses i = walk.uses i := by
  unfold uses rotate
  rw [List.count_append, List.count_singleton]
  simp

theorem add_uses (indexVec : List (Fin n)) (i : Fin n) : (walk.add indexVec).uses i = walk.uses i + indexVec.count i := by
  unfold uses add
  rw [List.count_append, List.count_map_of_injective _ _ (fun _ _ => Call.addToAcc.inj)]

theorem visit_uses (numAutoKeys : ℕ) (found : Option (List (Fin n))) (at' : ℕ) (i : Fin n) :
    (walk.visit w M numAutoKeys found at').uses i = walk.uses i + (found.getD []).count i := by
  have rotated : ∀ (later : Prop) [Decidable later] (s : Walk n),
      (if later then s.rotate w M else s).uses i = s.uses i := by
    intro later _ s
    split
    · exact rotate_uses i
    · rfl
  unfold visit
  rw [rotated]
  cases found with
  | none => rfl
  | some indexVec =>
    change Walk.uses (Walk.add _ _) i = _
    rw [add_uses, rotated]
    rfl

theorem descend_uses (numAutoKeys : ℕ) (bucket : ℕ → Option (List (Fin n))) (m : ℕ) (i : Fin n) :
    (walk.descend w M numAutoKeys bucket m).uses i =
      walk.uses i + ∑ l ∈ Finset.range m, ((bucket (l + 1)).getD []).count i := by
  induction m generalizing walk with
  | zero => rfl
  | succ m ih =>
    rw [descend, ih, visit_uses, Finset.sum_range_succ]
    omega

/-! #### The phase -/

section Phase
variable [NeZero p.N] {c : ℤ} {s : Fin n → ℤ} {P : Poly p}

theorem rotate_phase (cyclotomic : M = 2 * p.N) (word : 2 * p.N ≤ 2 ^ w.bits) :
    (walk.rotate w M).phase c s P = walk.phase c s P := by
  have pos := NeZero.pos p.N
  have five : 5 < 2 ^ w.bits := by cases w <;> decide
  unfold phase rotate
  dsimp only
  rw [pow_zero, substPow_one, List.foldl_append, List.foldl_cons, List.foldl_nil, Call.apply, cyclotomic,
    modExp_eq (by omega) word five, substPow_mod]

theorem add_phase (indexVec : List (Fin n)) (done : walk.nSkips = 0) :
    (walk.add indexVec).phase c s P = walk.phase c s P * xpow (c * (indexVec.map s).sum) := by
  have fold : ∀ (indices : List (Fin n)) (Q : Poly p),
      (indices.map Call.addToAcc).foldl (Call.apply c s) Q = Q * xpow (c * (indices.map s).sum) := by
    intro indices
    induction indices with
    | nil => simp
    | cons i indices ih =>
      intro Q
      rw [List.map_cons, List.foldl_cons, ih, Call.apply, List.map_cons, List.sum_cons, mul_add, xpow_add, mul_assoc]
  unfold phase add
  dsimp only
  rw [done, pow_zero, substPow_one, substPow_one, List.foldl_append, fold]

/-- One step multiplies by the monomials of its bucket and makes one more rotation due. -/
theorem visit_phase (cyclotomic : M = 2 * p.N) (word : 2 * p.N ≤ 2 ^ w.bits) (numAutoKeys : ℕ)
    (found : Option (List (Fin n))) (i : ℕ) :
    (walk.visit w M numAutoKeys found i).phase c s P =
      substPow 5 (walk.phase c s P * xpow (c * ((found.getD []).map s).sum)) := by
  have rotated : ∀ (later : Prop) [Decidable later] (walk : Walk n),
      (if later then walk.rotate w M else walk).phase c s P = walk.phase c s P := by
    intro later _ walk
    split
    · exact rotate_phase cyclotomic word
    · rfl
  have next : ∀ walk : Walk n, phase c s P { walk with nSkips := walk.nSkips + 1 } = substPow 5 (walk.phase c s P) := by
    intro walk
    unfold phase
    dsimp only
    rw [substPow_substPow (by norm_num), pow_succ']
  unfold visit
  rw [rotated]
  cases found with
  | none =>
    rw [next]
    simp
  | some indexVec =>
    rw [next]
    dsimp only
    rw [add_phase, rotated]
    · rfl
    · split
      · rfl
      · rename_i done
        exact not_not.mp done

theorem descend_phase (cyclotomic : M = 2 * p.N) (word : 2 * p.N ≤ 2 ^ w.bits) (numAutoKeys : ℕ)
    (bucket : ℕ → Option (List (Fin n))) (m : ℕ) :
    (walk.descend w M numAutoKeys bucket m).phase c s P = substPow (5 ^ m) (walk.phase c s P) *
      xpow (c * ∑ l ∈ Finset.range m, 5 ^ (l + 1) * (((bucket (l + 1)).getD []).map s).sum) := by
  induction m generalizing walk with
  | zero => simp [descend, substPow_one]
  | succ m ih =>
    have odd : 5 ^ m % 2 = 1 := by rw [Nat.pow_mod]; norm_num
    rw [descend, ih, visit_phase cyclotomic word, substPow_substPow odd, ← pow_succ,
      substPow_mul (by rw [Nat.pow_mod]; norm_num), substPow_xpow (by rw [Nat.pow_mod]; norm_num), mul_assoc, ← xpow_add,
      Finset.sum_range_succ]
    congr 2
    push_cast
    ring

/-- The last step of a loop leaves no rotation due. -/
theorem descend_done (numAutoKeys : ℕ) (bucket : ℕ → Option (List (Fin n))) {m : ℕ} (hm : 0 < m) :
    (walk.descend w M numAutoKeys bucket m).nSkips = 0 := by
  induction m generalizing walk with
  | zero => exact absurd hm (lt_irrefl 0)
  | succ m ih =>
    rcases Nat.eq_zero_or_pos m with rfl | more
    · simp only [descend, visit, zero_add, or_true, if_true]
      rfl
    · exact ih more

end Phase
end Steps
end Walk

/-! ### The whole schedule -/

section Schedule
variable {w : NativeSize} {e : ℕ} {a : Fin n → ℕ}

/-- The bucket of a signed power. -/
def bucketOf (w : NativeSize) (e : ℕ) (a : Fin n → ℕ) (negative : Bool) (i : ℕ) : List (Fin n) :=
  (List.finRange n).filter fun j => logOf w (modulus e) (logGen (2 ^ (e + 1))) (a j) = code e negative i

theorem filter_map_sum (s : Fin n → ℤ) (P : Fin n → Prop) [DecidablePred P] :
    (((List.finRange n).filter P).map s).sum = ∑ j, if P j then s j else 0 := by
  rw [Fin.sum_univ_def]
  induction List.finRange n with
  | nil => rfl
  | cons j l ih =>
    rw [List.filter_cons, List.map_cons, List.sum_cons, ← ih]
    by_cases h : P j <;> simp [h]

theorem filter_count (P : Fin n → Prop) [DecidablePred P] (j : Fin n) :
    ((List.finRange n).filter P).count j = if P j then 1 else 0 := by
  by_cases h : P j
  · rw [if_pos h, List.count_filter (by simpa using h), List.count_eq_one_of_mem (List.nodup_finRange n) (List.mem_finRange j)]
  · rw [if_neg h, List.count_eq_zero]
    intro member
    simp [h] at member

theorem exists_bucket (more : 1 ≤ e) (narrow : modulus e < 2 ^ 32) (small : ∀ j, a j < modulus e) (j : Fin n) :
    ∃ negative i, i < 2 ^ e ∧ oddNegative (2 ^ (e + 1)) (a j) = residue e negative i ∧
      ∀ negative' i', i' < 2 ^ e →
        (logOf w (modulus e) (logGen (2 ^ (e + 1))) (a j) = code e negative' i' ↔ negative = negative' ∧ i = i') := by
  have below : oddNegative (2 ^ (e + 1)) (a j) < modulus e := by
    have := oddNegative_lt (Nat.two_pow_pos (e + 1)) (a j)
    rwa [← pow_succ'] at this
  obtain ⟨negative, i, hi, same⟩ := exists_residue below (oddNegative_odd _ _)
  refine ⟨negative, i, hi, same, fun negative' i' hi' => ?_⟩
  rw [logOf_eq more narrow (small j) hi same]
  constructor
  · exact code_injective narrow hi hi'
  · rintro ⟨rfl, rfl⟩
    rfl

theorem sum_count_buckets (more : 1 ≤ e) (narrow : modulus e < 2 ^ 32) (small : ∀ j, a j < modulus e) (j : Fin n) :
    ∑ i ∈ Finset.range (2 ^ e), (bucketOf w e a true i).count j +
      ∑ i ∈ Finset.range (2 ^ e), (bucketOf w e a false i).count j = 1 := by
  obtain ⟨negative, i, hi, -, place⟩ := exists_bucket (w := w) more narrow small j
  have sums : ∀ negative', ∑ i' ∈ Finset.range (2 ^ e), (bucketOf w e a negative' i').count j =
      if negative = negative' then 1 else 0 := by
    intro negative'
    have counts : ∀ i' ∈ Finset.range (2 ^ e), (bucketOf w e a negative' i').count j =
        if i = i' then (if negative = negative' then 1 else 0) else 0 := by
      intro i' member
      rw [bucketOf, filter_count, if_congr (place negative' i' (Finset.mem_range.mp member)) rfl rfl]
      split_ifs <;> simp_all
    rw [Finset.sum_congr rfl counts, Finset.sum_ite_eq, if_pos (Finset.mem_range.mpr hi)]
  rw [sums, sums]
  cases negative <;> rfl

/-- The signed powers of the buckets, weighted with the secret, are the odd entries weighted with it. -/
theorem sum_buckets (more : 1 ≤ e) (narrow : modulus e < 2 ^ 32) (small : ∀ j, a j < modulus e) (s : Fin n → ℤ) :
    ∑ i ∈ Finset.range (2 ^ e), 5 ^ i * ((bucketOf w e a false i).map s).sum -
      ∑ i ∈ Finset.range (2 ^ e), 5 ^ i * ((bucketOf w e a true i).map s).sum ≡
      ∑ j, oddNegative (2 ^ (e + 1)) (a j) * s j [ZMOD modulus e] := by
  have swap : ∀ negative, ∑ i ∈ Finset.range (2 ^ e), 5 ^ i * ((bucketOf w e a negative i).map s).sum =
      ∑ j, ∑ i ∈ Finset.range (2 ^ e),
        if logOf w (modulus e) (logGen (2 ^ (e + 1))) (a j) = code e negative i then 5 ^ i * s j else 0 := by
    intro negative
    rw [Finset.sum_comm]
    refine Finset.sum_congr rfl fun i _ => ?_
    rw [bucketOf, filter_map_sum, Finset.mul_sum]
    exact Finset.sum_congr rfl fun j _ => by split_ifs <;> simp
  rw [swap, swap, ← Finset.sum_sub_distrib]
  refine Int.ModEq.sum fun j _ => ?_
  obtain ⟨negative, i, hi, same, place⟩ := exists_bucket (w := w) more narrow small j
  have sums : ∀ negative', (∑ i' ∈ Finset.range (2 ^ e),
      if logOf w (modulus e) (logGen (2 ^ (e + 1))) (a j) = code e negative' i' then 5 ^ i' * s j else 0) =
      if negative = negative' then 5 ^ i * s j else 0 := by
    intro negative'
    have terms : ∀ i' ∈ Finset.range (2 ^ e),
        (if logOf w (modulus e) (logGen (2 ^ (e + 1))) (a j) = code e negative' i' then 5 ^ i' * s j else 0) =
          if i = i' then (if negative = negative' then 5 ^ i * s j else 0) else 0 := by
      intro i' member
      rw [if_congr (place negative' i' (Finset.mem_range.mp member)) rfl rfl]
      split_ifs <;> simp_all
    rw [Finset.sum_congr rfl terms, Finset.sum_ite_eq, if_pos (Finset.mem_range.mpr hi)]
  rw [sums, sums, same]
  have signed := (residue_modEq (e := e) negative i).symm.mul_right (s j)
  cases negative
  · simpa using signed
  · simpa using signed

theorem addFound_uses (found : Option (List (Fin n))) (walk : Walk n) (j : Fin n) :
    (walk.addFound found).uses j = walk.uses j + (found.getD []).count j := by
  cases found with
  | none => rfl
  | some indexVec => exact Walk.add_uses indexVec j

theorem addFound_sound {p : RingGSWCryptoParams} (found : Option (List (Fin n))) {walk : Walk n} (sound : walk.Sound w p) :
    (walk.addFound found).Sound w p := by
  cases found with
  | none => exact sound
  | some indexVec => exact ⟨sound.due, Walk.add_keyed indexVec sound.keyed⟩

theorem addFound_phase {p : RingGSWCryptoParams} [NeZero p.N] {c : ℤ} {s : Fin n → ℤ} {P : Poly p}
    (found : Option (List (Fin n))) {walk : Walk n} (done : walk.nSkips = 0) :
    (walk.addFound found).phase c s P = walk.phase c s P * xpow (c * ((found.getD []).map s).sum) := by
  cases found with
  | none => simp [Walk.addFound]
  | some indexVec => exact Walk.add_phase indexVec done

theorem addFound_done (found : Option (List (Fin n))) {walk : Walk n} (done : walk.nSkips = 0) :
    (walk.addFound found).nSkips = 0 := by
  cases found with
  | none => exact done
  | some indexVec => exact done

theorem phase_of_done {p : RingGSWCryptoParams} [NeZero p.N] {c : ℤ} {s : Fin n → ℤ} {P : Poly p} {walk : Walk n}
    (done : walk.nSkips = 0) : walk.phase c s P = walk.calls.foldl (Call.apply c s) P := by
  rw [Walk.phase, done, pow_zero, substPow_one]

theorem turn_phase {p : RingGSWCryptoParams} [NeZero p.N] {c : ℤ} {s : Fin n → ℤ} {P : Poly p} (k index : ℕ)
    {walk : Walk n} (done : walk.nSkips = 0) :
    Walk.phase c s P { walk with calls := walk.calls ++ [.automorphism k index] } = substPow k (walk.phase c s P) := by
  rw [phase_of_done done, phase_of_done (by exact done), List.foldl_append]
  rfl

section Ring
variable {p : RingGSWCryptoParams} (ring : p.N = 2 ^ (e + 1)) (more : 1 ≤ e) (narrow : modulus e < 2 ^ 32)
include ring narrow

theorem cyclotomic_eq : 2 * p.N % 2 ^ 32 = modulus e := by
  rw [ring, ← pow_succ']
  exact Nat.mod_eq_of_lt narrow

omit narrow in
/-- A loop ends at one; the entry at zero is looked up after it. -/
theorem sum_with_zero {β : Type} [AddCommMonoid β] (f : ℕ → β) :
    ∑ l ∈ Finset.range (p.N / 2 - 1), f (l + 1) + f 0 = ∑ i ∈ Finset.range (2 ^ e), f i := by
  have half : p.N / 2 - 1 + 1 = 2 ^ e := by
    rw [ring, pow_succ, Nat.mul_div_cancel _ two_pos]
    exact Nat.sub_add_cancel Nat.one_le_two_pow
  rw [← Finset.sum_range_succ', half]

theorem found_true {i : ℕ} (positive : i ≠ 0) :
    (permuteMap w (2 * p.N % 2 ^ 32) (logGen p.N) a (int32 (-i))).getD [] = bucketOf w e a true i := by
  rw [permuteMap_eq, cyclotomic_eq ring narrow, ring, bucketOf, code_true positive]

theorem found_one :
    (permuteMap w (2 * p.N % 2 ^ 32) (logGen p.N) a (int32 (2 * p.N % 2 ^ 32 : ℕ))).getD [] = bucketOf w e a true 0 := by
  rw [permuteMap_eq, cyclotomic_eq ring narrow, ring, bucketOf, code_one]

theorem found_false (i : ℕ) :
    (permuteMap w (2 * p.N % 2 ^ 32) (logGen p.N) a (int32 i)).getD [] = bucketOf w e a false i := by
  rw [permuteMap_eq, cyclotomic_eq ring narrow, ring, bucketOf, code_false]

omit ring narrow in
theorem schedule_keyed (keys : 1 ≤ p.numAutoKeys) : ∀ call ∈ schedule w p a, call.Keyed w p := by
  have start : Walk.Sound w p (⟨0, []⟩ : Walk n) := ⟨keys, fun _ member => absurd member List.not_mem_nil⟩
  have turned : ∀ {walk : Walk n}, walk.Sound w p →
      Walk.Sound w p { walk with calls := walk.calls ++ [.automorphism (2 * p.N % 2 ^ 32 - 5) 0] } := by
    intro walk sound
    refine ⟨sound.due, fun call member => ?_⟩
    rcases List.mem_append.mp member with before | last
    · exact sound.keyed call before
    · obtain rfl := List.mem_singleton.mp last
      exact ⟨Nat.zero_le _, (if_pos rfl).symm⟩
  exact (addFound_sound _ (Walk.descend_sound rfl (turned (addFound_sound _ (Walk.descend_sound rfl start _ _))) _ _)).keyed

include more

theorem schedule_uses (small : ∀ j, a j < modulus e) (j : Fin n) : (schedule w p a).count (.addToAcc j) = 1 := by
  have turned : ∀ walk : Walk n,
      Walk.uses { walk with calls := walk.calls ++ [.automorphism (2 * p.N % 2 ^ 32 - 5) 0] } j = walk.uses j := by
    intro walk
    unfold Walk.uses
    rw [List.count_append, List.count_singleton]
    simp
  change Walk.uses (Walk.addFound _ _) j = 1
  rw [addFound_uses, Walk.descend_uses, turned, addFound_uses, Walk.descend_uses, found_one ring narrow,
    show (0 : ℤ) = int32 (0 : ℕ) by decide, found_false ring narrow]
  simp only [found_true ring narrow (Nat.add_one_ne_zero _), found_false ring narrow]
  rw [show Walk.uses (⟨0, []⟩ : Walk n) j = 0 from rfl, zero_add, add_assoc,
    sum_with_zero ring fun i => (bucketOf w e a true i).count j, sum_with_zero ring fun i => (bucketOf w e a false i).count j]
  exact sum_count_buckets more narrow small j

theorem schedule_phase [NeZero p.N] (word : 2 * p.N ≤ 2 ^ w.bits) (small : ∀ j, a j < modulus e) (c : ℤ) (s : Fin n → ℤ)
    (T : Poly p) :
    (schedule w p a).foldl (Call.apply c s) (substPow (2 * p.N % 2 ^ 32 - 5) T) =
      T * xpow (c * ∑ j, oddNegative p.N (a j) * s j) := by
  have cyclotomic := cyclotomic_eq ring narrow
  have whole : 2 * p.N % 2 ^ 32 = 2 * p.N := by rw [cyclotomic, ring, modulus, ← pow_succ']
  have five := five_lt_modulus more
  have loops : 0 < p.N / 2 - 1 := by
    have : 2 ^ 1 ≤ 2 ^ e := Nat.pow_le_pow_right two_pos more
    rw [ring, pow_succ, Nat.mul_div_cancel _ two_pos]
    omega
  -- Each loop rotates by `κ`, which is `-1`, so that both together rotate by one.
  obtain ⟨κ, rotation⟩ : ∃ κ, 5 ^ (p.N / 2 - 1) * (2 * p.N % 2 ^ 32 - 5) = κ := ⟨_, rfl⟩
  have period : p.N / 2 - 1 + 1 = 2 ^ e := by
    rw [ring, pow_succ, Nat.mul_div_cancel _ two_pos]
    exact Nat.sub_add_cancel Nat.one_le_two_pow
  have κ_modEq : (κ : ℤ) ≡ -1 [ZMOD 2 * p.N] := by
    have power := Int.natCast_modEq_iff.mpr (pow_period e)
    rw [← period, pow_succ, ← cyclotomic, whole] at power
    push_cast at power
    calc (κ : ℤ) = 2 * p.N * 5 ^ (p.N / 2 - 1) - 5 ^ (p.N / 2 - 1) * 5 := by
          rw [← rotation, cyclotomic]
          push_cast [five.le]
          rw [← cyclotomic, whole]
          push_cast
          ring
      _ ≡ 0 - 1 [ZMOD 2 * p.N] := (Int.modEq_zero_iff_dvd.mpr (dvd_mul_right ..)).sub power
  have κ_odd : κ % 2 = 1 := by
    obtain ⟨t, ht⟩ := (Int.modEq_iff_dvd.mp κ_modEq)
    have : (κ : ℤ) = 2 * (-(p.N * t)) - 1 := by linear_combination -ht
    omega
  have again : κ * κ % (2 * p.N) = 1 := by
    have square : ((κ * κ : ℕ) : ℤ) ≡ (1 : ℕ) [ZMOD (2 * p.N : ℕ)] := by
      push_cast
      exact κ_modEq.mul κ_modEq
    rw [Int.natCast_modEq_iff.mp square, Nat.mod_eq_of_lt (by rw [← whole, cyclotomic]; omega)]
  change List.foldl _ _ (Walk.addFound _ _).calls = _
  rw [← phase_of_done (addFound_done _ (Walk.descend_done _ _ loops)), addFound_phase _ (Walk.descend_done _ _ loops),
    Walk.descend_phase whole word, turn_phase _ _ (addFound_done _ (Walk.descend_done _ _ loops)),
    addFound_phase _ (Walk.descend_done _ _ loops), Walk.descend_phase whole word, found_one ring narrow,
    show (0 : ℤ) = int32 (0 : ℕ) by decide, found_false ring narrow]
  simp only [found_true ring narrow (Nat.add_one_ne_zero _), found_false ring narrow]
  have start : Walk.phase c s (substPow (2 * p.N % 2 ^ 32 - 5) T) (⟨0, []⟩ : Walk n) = substPow (2 * p.N % 2 ^ 32 - 5) T :=
    phase_of_done rfl
  have step : 5 ^ (p.N / 2 - 1) % 2 = 1 := by
    rw [Nat.pow_mod]
    norm_num
  have turned : ∀ x y : ℤ, substPow κ (substPow κ T * xpow x * xpow y) = T * xpow (κ * (x + y)) := by
    intro x y
    rw [mul_assoc, ← xpow_add, substPow_mul κ_odd, substPow_substPow κ_odd, ← substPow_mod (κ * κ), again, substPow_one,
      substPow_xpow κ_odd]
  rw [start, substPow_substPow step, substPow_substPow step, rotation, turned, mul_assoc, mul_assoc, ← xpow_add, ← xpow_add]
  refine congrArg (T * ·) (xpow_congr ?_)
  have lower : ∀ negative, ∑ l ∈ Finset.range (p.N / 2 - 1), 5 ^ (l + 1) * ((bucketOf w e a negative (l + 1)).map s).sum +
      ((bucketOf w e a negative 0).map s).sum =
      ∑ i ∈ Finset.range (2 ^ e), 5 ^ i * ((bucketOf w e a negative i).map s).sum := by
    intro negative
    rw [← sum_with_zero ring fun i => 5 ^ i * ((bucketOf w e a negative i).map s).sum, pow_zero, one_mul]
  have entries := sum_buckets (w := w) more narrow small s
  rw [← cyclotomic, whole, ← lower, ← lower, ← ring] at entries
  push_cast at entries
  refine Int.ModEq.trans ?_ (entries.mul_left c)
  rw [← mul_add, ← mul_add]
  exact ((κ_modEq.mul_right _).add_right _).trans (by
    refine Int.modEq_of_dvd ⟨0, ?_⟩
    ring)

theorem autoExponent_odd (index : ℕ) : autoExponent w p index % 2 = 1 := by
  have five := five_lt_modulus more
  have whole := modulus_eq e
  rw [autoExponent, cyclotomic_eq ring narrow]
  split
  · omega
  · have word := w.two_pow_32_le
    have quarter := pow_mod_four e index
    rw [modExp_eq (by omega) (by omega) (by omega)]
    omega

omit ring more narrow in
theorem perform_calls [NeZero p.N] {product : Product p} {automorphism : Automorphism p} {z : Poly p} {c : ℤ} {s : Fin n → ℤ}
    {ek : KeyLMKCDEY p n} (multiplies : ∀ i, Multiplies product z (ek.secret i) (xpow (c * s i)))
    (substitutes : ∀ index, index ≤ p.numAutoKeys → ∃ inside : index < n, ∃ ak, ek.auto ⟨index, inside⟩ = some ak ∧
      ∀ acc, RingGSW.phase z (automorphism (autoExponent w p index) ak acc) =
        substPow (autoExponent w p index) (RingGSW.phase z acc))
    {calls : List (Call n)} (keyed : ∀ call ∈ calls, call.Keyed w p) (acc : Acc p) :
    ∃ last, calls.foldlM (perform product automorphism ek) acc = .ok last ∧
      RingGSW.phase z last = calls.foldl (Call.apply c s) (RingGSW.phase z acc) := by
  induction calls generalizing acc with
  | nil => exact ⟨acc, rfl, rfl⟩
  | cons call calls ih =>
    have rest : ∀ call ∈ calls, call.Keyed w p := fun call member => keyed call (List.mem_cons_of_mem _ member)
    have here : ∃ next, perform product automorphism ek acc call = .ok next ∧
        RingGSW.phase z next = Call.apply c s (RingGSW.phase z acc) call := by
      cases call with
      | addToAcc i => exact ⟨_, rfl, multiplies i acc⟩
      | automorphism a index =>
        obtain ⟨key, rfl⟩ := keyed _ List.mem_cons_self
        obtain ⟨inside, ak, stored, maps⟩ := substitutes index key
        refine ⟨_, ?_, maps acc⟩
        rw [perform, dif_pos inside, stored]
    obtain ⟨next, run, value⟩ := here
    obtain ⟨last, runs, values⟩ := ih rest next
    refine ⟨last, ?_, ?_⟩
    · rw [List.foldlM_cons, run]
      exact runs
    · rw [values, value, List.foldl_cons]

end Ring

end Schedule

theorem keyGenAccLMKCDEY_ok (w : NativeSize) {p : RingGSWCryptoParams} [NeZero p.N] {n : ℕ} (room : p.numAutoKeys < n)
    (z : Poly p) (qKS : ℕ) (sv : Fin n → ℕ) (draw : Fin n → KeyDraw p) (drawAuto : Fin n → AutoDraw p) :
    ∃ ek, keyGenAccLMKCDEY w z qKS sv draw drawAuto = .ok ek ∧
      (∀ i, ek.secret i = value (keyGenLMKCDEY p z (draw i).errors (secretDM qKS (sv i))) (draw i).masks) ∧
      ∀ i, i.val ≤ p.numAutoKeys → ek.auto i =
        some (value (keyGenAuto p z (drawAuto i).errors (autoExponent w p i)) (drawAuto i).masks) :=
  ⟨_, if_pos room, fun _ => rfl, fun _ key => if_pos key⟩

/-- LMKCDEY blind rotation: each key is used once, each automorphism has the key that was made for it, and the phase is
rotated by the odd entries weighted with the secret. -/
theorem evalAccLMKCDEY_exact (w : NativeSize) {p : RingGSWCryptoParams} [NeZero p.N] (power : ∃ k, p.N = 2 ^ k)
    (four : 4 ≤ p.N) (narrow : 2 * p.N < 2 ^ 32) (keys : 1 ≤ p.numAutoKeys) {n : ℕ} (room : p.numAutoKeys < n)
    (product : Product p) (automorphism : Automorphism p) (z : Poly p) (qKS : ℕ) (sv : Fin n → ℕ) (draw : Fin n → KeyDraw p)
    (drawAuto : Fin n → AutoDraw p)
    (multiplies : ∀ i, Multiplies product z
      (value (keyGenLMKCDEY p z (draw i).errors (secretDM qKS (sv i))) (draw i).masks)
      (xpow ((2 * p.N / p.q : ℕ) * secretDM qKS (sv i))))
    (substitutes : ∀ t, t % 2 = 1 → ∀ (drawn : AutoDraw p) (acc : Acc p),
      phase z (automorphism t (value (keyGenAuto p z drawn.errors t) drawn.masks) acc) = substPow t (phase z acc))
    (a : Fin n → ℕ) (small : ∀ i, a i < 2 * p.N) (T : Poly p) :
    (∀ i, (schedule w p a).count (.addToAcc i) = 1) ∧
      ∃ ek acc, keyGenAccLMKCDEY w z qKS sv draw drawAuto = .ok ek ∧
        (∀ t index, Call.automorphism t index ∈ schedule w p a → index ≤ p.numAutoKeys ∧ ∃ inside : index < n,
          ek.auto ⟨index, inside⟩ =
            some (value (keyGenAuto p z (drawAuto ⟨index, inside⟩).errors t) (drawAuto ⟨index, inside⟩).masks)) ∧
        evalAccLMKCDEY w product automorphism ek ⟨0, T⟩ a = .ok acc ∧
        phase z acc = T * xpow ((2 * p.N / p.q : ℕ) *
          ∑ i, ((-(a i : ℤ) % (2 * p.N : ℕ)).toNat ||| 1 : ℕ) * secretDM qKS (sv i)) := by
  obtain ⟨k, hk⟩ := power
  obtain ⟨e, rfl⟩ : ∃ e, k = e + 1 := by
    cases k with
    | zero => omega
    | succ e => exact ⟨e, rfl⟩
  have more : 1 ≤ e := by
    by_contra zero
    obtain rfl : e = 0 := by omega
    omega
  have cyclotomic : 2 * p.N = modulus e := by rw [hk, modulus, ← pow_succ']
  have word : 2 * p.N ≤ 2 ^ w.bits :=
    narrow.le.trans (Nat.pow_le_pow_right two_pos (by cases w <;> decide))
  rw [cyclotomic] at narrow
  have below : ∀ i, a i < modulus e := fun i => cyclotomic ▸ small i
  have keyed := schedule_keyed (a := a) (w := w) keys
  obtain ⟨ek, made, secret, auto⟩ := keyGenAccLMKCDEY_ok w room z qKS sv draw drawAuto
  obtain ⟨last, run, rotated⟩ := perform_calls (fun i => secret i ▸ multiplies i)
    (fun index key => ⟨by omega, _, auto ⟨index, by omega⟩ key, substitutes _ (autoExponent_odd hk more narrow index) _⟩)
    keyed ⟨0, substPow (2 * p.N % 2 ^ 32 - 5) T⟩
  refine ⟨schedule_uses hk more narrow below, ek, last, made, ?_, run, ?_⟩
  · intro t index member
    obtain ⟨key, rfl⟩ := keyed _ member
    exact ⟨key, by omega, auto ⟨index, by omega⟩ key⟩
  · have first : phase z (⟨0, substPow (2 * p.N % 2 ^ 32 - 5) T⟩ : Acc p) = substPow (2 * p.N % 2 ^ 32 - 5) T := by
      simp [RLWECiphertext.phase]
    rw [rotated, first, schedule_phase hk more narrow word below]
    rfl

theorem reading_multipliesLMKCDEY {w : NativeSize} {p : RingGSWCryptoParams} [NeZero p.N] (ok : Admissible w p) {z : Poly p}
    {row : Fin (digitsG2 p)} {u : ZMod p.Q} (odd : row.val % 2 ≠ 0) (unit : u * gpow p (row / 2 + 1) = 1)
    (masks : ℕ → UniformDraw p) (m : ℤ) :
    Multiplies (readingProduct z row u) z (value (keyGenLMKCDEY p z (fun _ => 0) m) masks)
      (xpow ((2 * p.N / p.q : ℕ) * m)) := by
  have reads := readingProduct_multiplies (z := z) odd unit (ofExponent_within (ok.dyadic.exponentLMKCDEY_lt m)) masks
  rwa [Marker.poly_ofExponent, ← xpow_natCast (exponentLMKCDEY p m), xpow_congr (ok.dyadic.exponentLMKCDEY_modEq m)] at reads

/-- `N = 4` with all exponents below eight, and one key for the powers of five. -/
def windowParams : RingGSWCryptoParams := { halfTurnParams with q := 8, numAutoKeys := 1, method := .LMKCDEY }

instance : NeZero windowParams.N := ⟨by decide⟩

/-- Substitutes in the phase, whatever key it is given. -/
def phaseAutomorphism (z : Poly windowParams) : Automorphism windowParams := fun t _ acc => ⟨0, substPow t (phase z acc)⟩

theorem windowParams_admissible : Admissible .w64 windowParams where
  power := ⟨2, rfl⟩
  narrow := by decide
  divides := by decide
  large := by decide
  fits := by decide
  baseR := by decide

theorem evalAccLMKCDEY_window :
    ∃ ek acc, keyGenAccLMKCDEY .w64 (mono 1) 16 ![1, 15, 3] (fun _ => noNoise windowParams fun _ _ => ⟨0, by decide⟩)
        (fun _ => ⟨fun _ => 0, fun _ => 0⟩) = .ok ek ∧
      evalAccLMKCDEY .w64 (readingProduct (mono 1) ⟨1, by decide⟩ 13) (phaseAutomorphism (mono 1)) ek ⟨0, 1⟩ ![1, 5, 2] =
        .ok acc ∧
      phase (mono 1) acc = xpow 25 := by
  have multiplies : ∀ i : Fin 3, Multiplies (readingProduct (mono 1) ⟨1, by decide⟩ 13) (mono 1)
      (value (keyGenLMKCDEY windowParams (mono 1) (fun _ => 0) (secretDM 16 (![1, 15, 3] i))) fun _ _ => ⟨0, by decide⟩)
      (xpow ((2 * windowParams.N / windowParams.q : ℕ) * secretDM 16 (![1, 15, 3] i))) := by
    intro i
    exact reading_multipliesLMKCDEY windowParams_admissible (by decide) (by decide) _ _
  obtain ⟨-, ek, acc, made, -, run, rotated⟩ := evalAccLMKCDEY_exact .w64 (p := windowParams) ⟨2, rfl⟩ (by decide) (by decide)
    (by decide) (by decide) (readingProduct (mono 1) ⟨1, by decide⟩ 13) (phaseAutomorphism (mono 1)) (mono 1) 16 ![1, 15, 3]
    (fun _ => noNoise windowParams fun _ _ => ⟨0, by decide⟩) (fun _ => ⟨fun _ => 0, fun _ => 0⟩) multiplies
    (fun t _ drawn acc => by simp [phaseAutomorphism, RLWECiphertext.phase]) ![1, 5, 2] (by decide) 1
  refine ⟨ek, acc, made, run, ?_⟩
  rw [rotated, one_mul]
  exact congrArg xpow (by decide)

end RingGSW
end MultiKeyFHE
