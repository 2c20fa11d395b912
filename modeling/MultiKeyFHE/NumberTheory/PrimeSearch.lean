import MultiKeyFHE.Library.Fuel
import MultiKeyFHE.NumberTheory.IntType
import Mathlib.NumberTheory.Bertrand
import Mathlib.NumberTheory.PrimesCongruentOne

/-!
# Searches for primes

`FirstPrime`, `NextPrime` and `PreviousPrime` step a candidate through a residue class until the test accepts it. They
notice that they ran off the end by comparing the candidate with an earlier one. The test is a parameter, which is assumed
to decide primality.
-/

namespace MultiKeyFHE.NbTheory
open Fuel
variable {α : Type} (I : IntType α) (isPrime : α → Bool)

/-- The passes of `FirstPrime` and `NextPrime`. The new candidate is compared with `before` of the last. -/
def climbPass (M : α) (before : α → α) (msg : String) (qNew : α) : Attempt Fault (α ⊕ α) :=
  if isPrime qNew then return .inr qNew
  else do
    let next := I.add qNew M
    if ← I.lt next (before qNew) then throw (.mathError msg)
    else return .inl next

/-- What `FirstPrime` tries. -/
def firstPrimeFrom (fuel nBits m : ℕ) : Attempt Fault α := do
  let mi := I.ofUint64 m
  let qNew ← I.lShift (I.ofUint64 1) nBits
  let r ← I.mod qNew mi
  let qNew2 := I.add qNew (I.ofUint64 1)
  let qNew2 ← if ← I.gt r (I.ofUint64 0) then I.add qNew2 <$> I.sub mi r else pure qNew2
  if ← I.lt qNew2 qNew then throw (.mathError "FirstPrime parameters overflow this integer implementation")
  else loop (climbPass I isPrime mi id "FirstPrime overflow growing candidate") fuel qNew2

/-- Every exception is replaced by one. -/
def firstPrime (fuel nBits m : ℕ) : Attempt Fault α := do
  I.requestedBits nBits
  tryCatch (firstPrimeFrom I isPrime fuel nBits m) fun fault =>
    throw (if fault.isException then .mathError "FirstPrime math exception" else fault)

def nextPrime (fuel : ℕ) (q : α) (m : ℕ) : Attempt Fault α :=
  let M := I.ofUint64 m
  loop (climbPass I isPrime M (fun _ => q) "NextPrime overflow growing candidate") fuel (I.add q M)

def descendPass (M q qNew : α) : Attempt Fault (α ⊕ α) :=
  if isPrime qNew then return .inr qNew
  else do
    let next ← I.sub qNew M
    if ← I.gt next q then throw (.configError "Moduli size is not sufficient! Must be increased.")
    else return .inl next

def previousPrime (fuel : ℕ) (q : α) (m : ℕ) : Attempt Fault α := do
  let M := I.ofUint64 m
  let qNew ← I.sub q M
  loop (descendPass I isPrime M q) fuel qNew

/-! ### Residue classes -/

/-- The primes above `q` that are `r` modulo `m`. -/
def primesAbove (q r m : ℕ) : Set ℕ := {p | p.Prime ∧ q < p ∧ p ≡ r [MOD m]}

def primesBelow (q m : ℕ) : Set ℕ := {p | p.Prime ∧ p < q ∧ p ≡ q [MOD m]}

/-- `start` is the first number above `q` of its class. -/
structure Starts (q r m start : ℕ) : Prop where
  above : q < start
  near : start ≤ q + m
  residue : start ≡ r [MOD m]

section Classes
variable {q r m start p : ℕ}

theorem Starts.mem_iff (starts : Starts q r m start) : p ∈ primesAbove q r m ↔ p.Prime ∧ ∃ i, p = start + i * m := by
  constructor
  · rintro ⟨prime, above, residue⟩
    have same : p ≡ start [MOD m] := residue.trans starts.residue.symm
    have le : start ≤ p := by
      by_contra less
      have divides : m ∣ start - p := (Nat.modEq_iff_dvd' (by omega)).mp same
      have := Nat.le_of_dvd (by omega) divides
      have := starts.near
      omega
    obtain ⟨i, hi⟩ := (Nat.modEq_iff_dvd' le).mp same.symm
    exact ⟨prime, i, by rw [Nat.mul_comm]; omega⟩
  · rintro ⟨prime, i, rfl⟩
    refine ⟨prime, starts.above.trans_le (Nat.le_add_right ..), ?_⟩
    rw [Nat.ModEq, Nat.add_mul_mod_self_right]
    exact starts.residue

theorem Starts.least (starts : Starts q r m start) (pos : 0 < m) (least : IsLeast (primesAbove q r m) p) :
    ∃ n, p = start + n * m ∧ p.Prime ∧ ∀ i < n, ¬ (start + i * m).Prime := by
  obtain ⟨prime, n, rfl⟩ := starts.mem_iff.mp least.1
  refine ⟨n, rfl, prime, fun i less found => ?_⟩
  have le := least.2 (starts.mem_iff.mpr ⟨found, i, rfl⟩)
  have : i * m < n * m := Nat.mul_lt_mul_of_pos_right less pos
  omega

theorem mem_primesBelow {i : ℕ} (pos : 0 < m) (le : (i + 1) * m ≤ q) (prime : (q - (i + 1) * m).Prime) :
    q - (i + 1) * m ∈ primesBelow q m := by
  have step : m ≤ (i + 1) * m := Nat.le_mul_of_pos_left m (by omega)
  refine ⟨prime, by omega, (Nat.modEq_iff_dvd' (Nat.sub_le ..)).mpr ?_⟩
  rw [Nat.sub_sub_self le]
  exact Nat.dvd_mul_left m (i + 1)

theorem starts_next (q : ℕ) (pos : 0 < m) : Starts q q m (q + m) := ⟨by omega, le_rfl, Nat.add_modEq_right⟩

theorem starts_first (q : ℕ) (pos : 0 < m) : Starts q 1 m (q + 1 + if 0 < q % m then m - q % m else 0) := by
  have below := Nat.mod_lt q pos
  have split := Nat.div_add_mod q m
  split
  · rename_i apart
    refine ⟨by omega, by omega, ?_⟩
    have value : q + 1 + (m - q % m) = 1 + m * (q / m + 1) := by
      rw [mul_add]
      omega
    rw [value, Nat.ModEq, Nat.add_mul_mod_self_left]
  · rename_i none
    refine ⟨by omega, by omega, ?_⟩
    have value : q + 1 + 0 = 1 + m * (q / m) := by omega
    rw [value, Nat.ModEq, Nat.add_mul_mod_self_left]

end Classes

/-! ### The loops -/

section Loops
variable {I isPrime} {rep : ℕ → α} {fits : ℕ → Prop} (laws : I.Lawful rep fits)
  (decides : ∀ n, fits n → (isPrime (rep n) = true ↔ n.Prime)) {q m n b c start : ℕ} {before : α → α} {msg : String}
include laws decides

omit laws in
theorem climbPass_prime (hc : fits c) (prime : c.Prime) (M : α) :
    climbPass I isPrime M before msg (rep c) = ended (.ok (.inr (rep c))) := by
  unfold climbPass
  rw [if_pos ((decides c hc).mpr prime)]
  rfl

theorem climbPass_step (next : fits (c + m)) (composite : ¬ c.Prime) (compared : before (rep c) = rep b) (le : b ≤ c + m) :
    climbPass I isPrime (rep m) before msg (rep c) = ended (.ok (.inl (rep (c + m)))) := by
  have hc : fits c := laws.below (Nat.le_add_right ..) next
  unfold climbPass
  rw [if_neg (mt (decides c hc).mp composite), laws.add next, compared]
  dsimp only
  rw [laws.lt next (laws.below le next), decide_eq_false (not_lt.mpr le)]
  rfl

variable (before msg) in
theorem climb_found (prime : (start + n * m).Prime) (fitsN : fits (start + n * m)) (first : ∀ i < n, ¬ (start + i * m).Prime)
    (compared : ∀ i, ∃ b ≤ start + i * m, before (rep (start + i * m)) = rep b) :
    Settles (fun fuel => loop (climbPass I isPrime (rep m) before msg) fuel (rep start)) (.ok (rep (start + n * m))) := by
  have steps := loop_steps (climbPass I isPrime (rep m) before msg) (fun i => rep (start + i * m)) (n := n)
    (r := .ok (rep (start + n * m))) ?_ (climbPass_prime decides fitsN prime (rep m))
  · rwa [Nat.zero_mul, Nat.add_zero] at steps
  · intro i less
    obtain ⟨b, le, same⟩ := compared i
    have value : start + (i + 1) * m = start + i * m + m := by ring
    have le' : start + (i + 1) * m ≤ start + n * m := Nat.add_le_add_left (Nat.mul_le_mul_right m less) _
    rw [value] at le' ⊢
    exact climbPass_step laws decides (laws.below le' fitsN) (first i less) same (by omega)

theorem descendPass_step (hq : fits q) (le : m ≤ c) (less : c ≤ q) (composite : ¬ c.Prime) :
    descendPass I isPrime (rep m) (rep q) (rep c) = ended (.ok (.inl (rep (c - m)))) := by
  have hc : fits c := laws.below less hq
  have next : fits (c - m) := laws.below (Nat.sub_le ..) hc
  unfold descendPass
  rw [if_neg (mt (decides c hc).mp composite), laws.sub le hc]
  simp only [lift_eq, ok_bind]
  rw [laws.gt next hq, decide_eq_false (by omega)]
  rfl

theorem descend_found (hq : fits q) (le : (n + 1) * m ≤ q) (prime : (q - (n + 1) * m).Prime)
    (first : ∀ i < n, ¬ (q - (i + 1) * m).Prime) :
    Settles (fun fuel => loop (descendPass I isPrime (rep m) (rep q)) fuel (rep (q - m))) (.ok (rep (q - (n + 1) * m))) := by
  have last : descendPass I isPrime (rep m) (rep q) (rep (q - (n + 1) * m)) = ended (.ok (.inr (rep (q - (n + 1) * m)))) := by
    unfold descendPass
    rw [if_pos ((decides _ (laws.below (Nat.sub_le ..) hq)).mpr prime)]
    rfl
  have steps := loop_steps (descendPass I isPrime (rep m) (rep q)) (fun i => rep (q - (i + 1) * m)) (n := n)
    (r := .ok (rep (q - (n + 1) * m))) ?_ last
  · rwa [Nat.zero_add, Nat.one_mul] at steps
  · intro i less
    have room : (i + 1 + 1) * m ≤ (n + 1) * m := Nat.mul_le_mul_right m (by omega)
    have split : (i + 1 + 1) * m = (i + 1) * m + m := by ring
    rw [split, ← Nat.sub_sub]
    exact descendPass_step laws decides hq (by omega) (Nat.sub_le ..) (first i less)

end Loops

/-! ### Off the end of a word -/

section Words
variable {w : NativeSize} {isPrime : ℕ → Bool} (decides : ∀ n < 2 ^ w.bits, (isPrime n = true ↔ n.Prime))
  {q m n start : ℕ} {before : ℕ → ℕ} {msg : String}
include decides

theorem climbPass_wraps (word : n < 2 ^ w.bits) (composite : ¬ n.Prime) (beyond : 2 ^ w.bits ≤ n + m)
    (caught : n + m < 2 ^ w.bits + before n) (small : before n ≤ n) :
    climbPass (.native w) isPrime m before msg n = ended (.error (.mathError msg)) := by
  have wrapped : (IntType.native w).add n m = n + m - 2 ^ w.bits := by
    change NativeInteger.wrap w (n + m) = _
    rw [NativeInteger.wrap, Nat.mod_eq_sub_mod beyond, Nat.mod_eq_of_lt (by omega)]
  have compared := (IntType.native_lawful w).lt (x := n + m - 2 ^ w.bits) (y := before n) (by omega) (by omega)
  unfold climbPass
  rw [if_neg (mt (decides n word).mp composite), wrapped]
  dsimp only [id] at compared ⊢
  rw [compared, decide_eq_true (by omega)]
  rfl

variable (before msg) in
theorem climb_overflows (pos : 0 < m) (word : start < 2 ^ w.bits)
    (none : ∀ i, start + i * m < 2 ^ w.bits → ¬ (start + i * m).Prime) (small : ∀ i, before (start + i * m) ≤ start + i * m)
    (caught : ∀ i, start + i * m < 2 ^ w.bits → 2 ^ w.bits ≤ start + i * m + m →
      start + i * m + m < 2 ^ w.bits + before (start + i * m)) :
    Settles (fun fuel => loop (climbPass (.native w) isPrime m before msg) fuel start) (.error (.mathError msg)) := by
  have split := Nat.div_add_mod (2 ^ w.bits - 1 - start) m
  have below := Nat.mod_lt (2 ^ w.bits - 1 - start) pos
  rw [Nat.mul_comm] at split
  set n := (2 ^ w.bits - 1 - start) / m
  have last : start + n * m < 2 ^ w.bits := by omega
  have steps := loop_steps (climbPass (.native w) isPrime m before msg) (fun i => start + i * m) (n := n)
    (r := .error (.mathError msg)) ?_ ?_
  · rwa [Nat.zero_mul, Nat.add_zero] at steps
  · intro i less
    have value : start + (i + 1) * m = start + i * m + m := by ring
    have le : (i + 1) * m ≤ n * m := Nat.mul_le_mul_right m less
    have le' := small i
    rw [value]
    exact climbPass_step (IntType.native_lawful w) decides (by omega) (none i (by omega)) (b := before (start + i * m)) rfl
      (by omega)
  · exact climbPass_wraps decides last (none n last) (by omega) (caught n last (by omega)) (small n)

theorem descendPass_wraps (word : q < 2 ^ w.bits) (less : n < m) (le : n ≤ q) (composite : ¬ n.Prime)
    (caught : q + m < 2 ^ w.bits + n) : descendPass (.native w) isPrime m q n =
      ended (.error (.configError "Moduli size is not sufficient! Must be increased.")) := by
  have wrapped : (IntType.native w).sub n m = .ok (2 ^ w.bits + n - m) := by
    change Except.ok (NativeInteger.sub w n m) = _
    rw [NativeInteger.sub, NativeInteger.wrap, Nat.mod_eq_of_lt (by omega), Nat.add_comm n]
  have compared := (IntType.native_lawful w).gt (x := 2 ^ w.bits + n - m) (y := q) (by omega) word
  unfold descendPass
  rw [if_neg (mt (decides n (by omega)).mp composite), wrapped]
  simp only [lift_eq, ok_bind]
  dsimp only [id] at compared
  rw [compared, decide_eq_true (by omega)]
  rfl

theorem descend_runs_out (pos : 0 < m) (word : q < 2 ^ w.bits) (le : m ≤ q)
    (none : ∀ i, (i + 1) * m ≤ q → ¬ (q - (i + 1) * m).Prime) (caught : m * (q / m + 1) < 2 ^ w.bits) :
    Settles (fun fuel => loop (descendPass (.native w) isPrime m q) fuel (q - m))
      (.error (.configError "Moduli size is not sufficient! Must be increased.")) := by
  have split := Nat.div_add_mod q m
  have below := Nat.mod_lt q pos
  have some := Nat.div_pos le pos
  rw [mul_add, mul_one] at caught
  rw [Nat.mul_comm] at split caught
  obtain ⟨n, hn⟩ : ∃ n, q / m = n + 1 := ⟨q / m - 1, by omega⟩
  rw [hn] at split caught
  have steps := loop_steps (descendPass (.native w) isPrime m q) (fun i => q - (i + 1) * m) (n := n)
    (r := .error (.configError "Moduli size is not sufficient! Must be increased.")) ?_ ?_
  · rwa [Nat.zero_add, Nat.one_mul] at steps
  · intro i less
    have room : (i + 1 + 1) * m ≤ (n + 1) * m := Nat.mul_le_mul_right m (by omega)
    have step : (i + 1 + 1) * m = (i + 1) * m + m := by ring
    rw [step, ← Nat.sub_sub]
    exact descendPass_step (IntType.native_lawful w) decides word (by omega) (Nat.sub_le ..) (none i (by omega))
  · exact descendPass_wraps decides word (by omega) (by omega) (none n (by omega)) (by omega)

end Words

/-! ### The first step of `FirstPrime` -/

def firstCandidate (nBits m : ℕ) : ℕ := 2 ^ nBits + 1 + if 0 < 2 ^ nBits % m then m - 2 ^ nBits % m else 0

section First
variable {I isPrime} {rep : ℕ → α} {fits : ℕ → Prop} (laws : I.Lawful rep fits) {nBits m : ℕ} (small : nBits < 2 ^ 16)
  (pos : 0 < m) (word : m < 2 ^ 64) (hm : fits m) (next : fits (2 ^ nBits + 1))
include laws small pos word hm next

/-- Up to the comparison that looks for an overflow. -/
theorem firstPrimeFrom_eq (fuel : ℕ) : firstPrimeFrom I isPrime fuel nBits m = (do
    let qNew2 := if 0 < 2 ^ nBits % m then I.add (rep (2 ^ nBits + 1)) (rep (m - 2 ^ nBits % m)) else rep (2 ^ nBits + 1)
    if ← I.lt qNew2 (rep (2 ^ nBits)) then throw (.mathError "FirstPrime parameters overflow this integer implementation")
    else loop (climbPass I isPrime (rep m) id "FirstPrime overflow growing candidate") fuel qNew2) := by
  have power : fits (2 ^ nBits) := laws.below (Nat.le_succ _) next
  have low := Nat.mod_lt (2 ^ nBits) pos
  have residue : fits (2 ^ nBits % m) := laws.below low.le hm
  unfold firstPrimeFrom
  simp only [laws.ofOne, laws.ofZero, laws.ofUint64 word hm,
    laws.lShift small power, laws.mod pos power hm, laws.add next, laws.gt residue laws.zero, laws.sub low.le hm, lift_eq, ok_bind]
  by_cases apart : 0 < 2 ^ nBits % m
  · simp only [apart, decide_true, if_true]
    rfl
  · simp only [apart, decide_false, if_false, Bool.false_eq_true]
    rfl

theorem firstPrimeFrom_loop (start : fits (firstCandidate nBits m)) (fuel : ℕ) : firstPrimeFrom I isPrime fuel nBits m =
    loop (climbPass I isPrime (rep m) id "FirstPrime overflow growing candidate") fuel (rep (firstCandidate nBits m)) := by
  have power : fits (2 ^ nBits) := laws.below (Nat.le_succ _) next
  have first : (if 0 < 2 ^ nBits % m then I.add (rep (2 ^ nBits + 1)) (rep (m - 2 ^ nBits % m)) else rep (2 ^ nBits + 1)) =
      rep (firstCandidate nBits m) := by
    unfold firstCandidate at start ⊢
    split
    · rename_i apart
      rw [if_pos apart] at start
      exact laws.add start
    · rfl
  have above : 2 ^ nBits ≤ firstCandidate nBits m := by
    unfold firstCandidate
    omega
  rw [firstPrimeFrom_eq laws small pos word hm next, first]
  simp only [laws.lt start power, decide_eq_false (not_lt.mpr above), lift_eq, ok_bind, Bool.false_eq_true, if_false]

end First

theorem firstPrimeFrom_overflows {w : NativeSize} {isPrime : ℕ → Bool} {nBits m : ℕ} (short : nBits ≤ w.maxModulusSize)
    (pos : 0 < m) (word : m < 2 ^ w.bits) (beyond : 2 ^ w.bits ≤ firstCandidate nBits m) (fuel : ℕ) :
    firstPrimeFrom (.native w) isPrime fuel nBits m =
      ended (.error (.mathError "FirstPrime parameters overflow this integer implementation")) := by
  have bits := w.bits_eq
  have small : nBits < 2 ^ 16 := short.trans_lt (by cases w <;> decide)
  have long : m < 2 ^ 64 := word.trans_le (Nat.pow_le_pow_right two_pos (by cases w <;> decide))
  have power : 2 ^ nBits * 2 ≤ 2 ^ w.bits := by
    rw [← pow_succ]
    exact Nat.pow_le_pow_right two_pos (by omega)
  have positive : 0 < 2 ^ nBits := by positivity
  have more : 2 < 2 ^ w.bits := by cases w <;> decide
  have room : 2 ^ nBits + 1 < 2 ^ w.bits := by omega
  have low := Nat.mod_lt (2 ^ nBits) pos
  have apart : 0 < 2 ^ nBits % m := by
    by_contra none
    rw [firstCandidate, if_neg none] at beyond
    omega
  rw [firstCandidate, if_pos apart] at beyond
  have wrapped : (IntType.native w).add (id (2 ^ nBits + 1)) (id (m - 2 ^ nBits % m)) =
      2 ^ nBits + 1 + (m - 2 ^ nBits % m) - 2 ^ w.bits := by
    change NativeInteger.wrap w (2 ^ nBits + 1 + (m - 2 ^ nBits % m)) = _
    rw [NativeInteger.wrap, Nat.mod_eq_sub_mod beyond, Nat.mod_eq_of_lt (by omega)]
  have compared := (IntType.native_lawful w).lt (x := 2 ^ nBits + 1 + (m - 2 ^ nBits % m) - 2 ^ w.bits) (y := 2 ^ nBits)
    (by omega) (by omega)
  rw [firstPrimeFrom_eq (IntType.native_lawful w) small pos long word room, if_pos apart, wrapped]
  dsimp only [id] at compared ⊢
  rw [compared, decide_eq_true (by omega)]
  rfl

theorem starts_firstCandidate (nBits : ℕ) {m : ℕ} (pos : 0 < m) : Starts (2 ^ nBits) 1 m (firstCandidate nBits m) :=
  starts_first (2 ^ nBits) pos

theorem exists_first (q : ℕ) {m : ℕ} (pos : 0 < m) : ∃ p, IsLeast (primesAbove q 1 m) p := by
  have some : (primesAbove q 1 m).Nonempty := by
    obtain ⟨p, prime, above, residue⟩ := Nat.exists_prime_gt_modEq_one q pos.ne'
    exact ⟨p, prime, above, residue⟩
  exact ⟨sInf (primesAbove q 1 m), Nat.sInf_mem some, fun _ member => Nat.sInf_le member⟩

/-! ### Prime or error -/

section Found
variable {I isPrime} {rep : ℕ → α} {fits : ℕ → Prop} (laws : I.Lawful rep fits)
  (decides : ∀ n, fits n → (isPrime (rep n) = true ↔ n.Prime)) {q m p nBits : ℕ}
include laws decides

theorem firstPrime_found (admitted : I.requestedBits nBits = .ok ()) (small : nBits < 2 ^ 16) (pos : 0 < m) (word : m < 2 ^ 64)
    (hm : fits m) (least : IsLeast (primesAbove (2 ^ nBits) 1 m) p) (hp : fits p) :
    Ends (fun fuel => firstPrime I isPrime fuel nBits m) (.ok (rep p)) := by
  have starts := starts_firstCandidate nBits pos
  obtain ⟨n, rfl, prime, first⟩ := starts.least pos least
  have start : fits (firstCandidate nBits m) := laws.below (Nat.le_add_right ..) hp
  have next : fits (2 ^ nBits + 1) := laws.below starts.above start
  have found := climb_found laws decides id "FirstPrime overflow growing candidate" prime hp first
    fun i => ⟨_, le_rfl, rfl⟩
  simp only [← firstPrimeFrom_loop laws small pos word hm next start] at found
  unfold firstPrime
  simp only [admitted, lift_eq, ok_bind]
  exact found.ends.ok_tryCatch _

theorem nextPrime_found (pos : 0 < m) (word : m < 2 ^ 64) (least : IsLeast (primesAbove q q m) p) (hp : fits p) :
    Ends (fun fuel => nextPrime I isPrime fuel (rep q) m) (.ok (rep p)) := by
  obtain ⟨n, rfl, prime, first⟩ := (starts_next q pos).least pos least
  have start : fits (q + m) := laws.below (Nat.le_add_right ..) hp
  unfold nextPrime
  simp only [laws.ofUint64 word (laws.below (Nat.le_add_left ..) start), laws.add start]
  exact (climb_found laws decides _ _ prime hp first fun i => ⟨q, by omega, rfl⟩).ends

theorem previousPrime_found (pos : 0 < m) (word : m < 2 ^ 64) (le : m ≤ q) (hq : fits q)
    (greatest : IsGreatest (primesBelow q m) p) : Ends (fun fuel => previousPrime I isPrime fuel (rep q) m) (.ok (rep p)) := by
  obtain ⟨⟨prime, less, residue⟩, last⟩ := greatest
  obtain ⟨k, hk⟩ := (Nat.modEq_iff_dvd' less.le).mp residue
  obtain ⟨n, rfl⟩ : ∃ n, k = n + 1 := ⟨k - 1, by
    rcases Nat.eq_zero_or_pos k with rfl | some
    · omega
    · omega⟩
  rw [Nat.mul_comm] at hk
  obtain rfl : p = q - (n + 1) * m := by omega
  have first : ∀ i < n, ¬ (q - (i + 1) * m).Prime := by
    intro i before found
    have smaller : (i + 1) * m < (n + 1) * m := Nat.mul_lt_mul_of_pos_right (by omega) pos
    have bound := last (mem_primesBelow pos (by omega) found)
    omega
  unfold previousPrime
  simp only [laws.ofUint64 word (laws.below le hq), laws.sub le hq, lift_eq, ok_bind]
  exact (descend_found laws decides hq (by omega) prime first).ends

end Found

/-- The searches on native integers, by a test `isPrime`. An overflow ends a search with an error unless a step that wraps
lands on the wrong side of `q`. -/
structure NativeSearch (w : NativeSize) (isPrime : ℕ → Bool) : Prop where
  first : ∀ nBits m, 0 < m → m < 2 ^ w.bits → nBits ≤ w.maxModulusSize → ∃ p, IsLeast (primesAbove (2 ^ nBits) 1 m) p ∧
    (p < 2 ^ w.bits → Ends (fun fuel => firstPrime (.native w) isPrime fuel nBits m) (.ok p)) ∧
    (2 ^ w.bits ≤ p → ∃ msg, Ends (fun fuel => firstPrime (.native w) isPrime fuel nBits m) (.error (.mathError msg)))
  refused : ∀ nBits m, w.maxModulusSize < nBits →
    ∃ msg, Ends (fun fuel => firstPrime (.native w) isPrime fuel nBits m) (.error (.mathError msg))
  next : ∀ q m p, 0 < m → q + m < 2 ^ w.bits → IsLeast (primesAbove q q m) p → p < 2 ^ w.bits →
    Ends (fun fuel => nextPrime (.native w) isPrime fuel q m) (.ok p)
  nextOverflows : ∀ q m, 0 < m → q + m < 2 ^ w.bits → (∀ p ∈ primesAbove q q m, 2 ^ w.bits ≤ p) →
    m * ((2 ^ w.bits - 1 - q) / m + 1) < 2 ^ w.bits →
    ∃ msg, Ends (fun fuel => nextPrime (.native w) isPrime fuel q m) (.error (.mathError msg))
  previous : ∀ q m p, 0 < m → m ≤ q → q < 2 ^ w.bits → IsGreatest (primesBelow q m) p →
    Ends (fun fuel => previousPrime (.native w) isPrime fuel q m) (.ok p)
  previousRunsOut : ∀ q m, 0 < m → m ≤ q → q < 2 ^ w.bits → primesBelow q m = ∅ → m * (q / m + 1) < 2 ^ w.bits →
    ∃ msg, Ends (fun fuel => previousPrime (.native w) isPrime fuel q m) (.error (.configError msg))

/-- The searches on dynamic integers, where the prime exists. Shifts reach below `2 ^ 16`. -/
structure DynamicSearch (l : LimbT) (isPrime : Ubint → Bool) : Prop where
  first : ∀ nBits m, 0 < m → m < 2 ^ 64 → nBits < 2 ^ 16 → ∃ p, IsLeast (primesAbove (2 ^ nBits) 1 m) p ∧
    (p.size < 2 ^ 32 → Ends (fun fuel => firstPrime (.dynamic l) isPrime fuel nBits m) (.ok (Ubint.stored l p)))
  next : ∀ q m p, 0 < m → m < 2 ^ 64 → IsLeast (primesAbove q q m) p → p.size < 2 ^ 32 →
    Ends (fun fuel => nextPrime (.dynamic l) isPrime fuel (Ubint.stored l q) m) (.ok (Ubint.stored l p))
  previous : ∀ q m p, 0 < m → m < 2 ^ 64 → m ≤ q → q.size < 2 ^ 32 → IsGreatest (primesBelow q m) p →
    Ends (fun fuel => previousPrime (.dynamic l) isPrime fuel (Ubint.stored l q) m) (.ok (Ubint.stored l p))

section Native
variable {w : NativeSize} {isPrime : ℕ → Bool} (decides : ∀ n < 2 ^ w.bits, (isPrime n = true ↔ n.Prime)) {q m nBits : ℕ}

theorem word_le (w : NativeSize) : 2 ^ w.bits ≤ 2 ^ 64 := Nat.pow_le_pow_right two_pos (by cases w <;> decide)

theorem admitted (short : nBits ≤ w.maxModulusSize) : (IntType.native w).requestedBits nBits = .ok () :=
  if_neg (not_lt.mpr short)

theorem firstPrime_refused (long : w.maxModulusSize < nBits) :
    ∃ msg, Ends (fun fuel => firstPrime (.native w) isPrime fuel nBits m) (.error (.mathError msg)) := by
  obtain ⟨msg, refused⟩ : ∃ msg, (IntType.native w).requestedBits nBits = .error (.mathError msg) := ⟨_, if_pos long⟩
  unfold firstPrime
  simp only [refused, lift_eq, error_bind]
  exact ⟨msg, 0, fun _ _ => rfl⟩

include decides

theorem firstPrime_overflows (short : nBits ≤ w.maxModulusSize) (pos : 0 < m) (word : m < 2 ^ w.bits)
    (beyond : ∀ p ∈ primesAbove (2 ^ nBits) 1 m, 2 ^ w.bits ≤ p) :
    ∃ msg, Ends (fun fuel => firstPrime (.native w) isPrime fuel nBits m) (.error (.mathError msg)) := by
  have starts := starts_firstCandidate nBits pos
  have bits := w.bits_eq
  have small : nBits < 2 ^ 16 := short.trans_lt (by cases w <;> decide)
  refine ⟨"FirstPrime math exception", ?_⟩
  unfold firstPrime
  simp only [admitted short, lift_eq, ok_bind]
  by_cases start : firstCandidate nBits m < 2 ^ w.bits
  · have stopped := climb_overflows decides id "FirstPrime overflow growing candidate" pos start
      (fun i fits prime => (beyond _ (starts.mem_iff.mpr ⟨prime, i, rfl⟩)).not_gt fits) (fun i => le_rfl)
      (fun i _ _ => by dsimp only [id]; omega)
    have loops : ∀ fuel, firstPrimeFrom (.native w) isPrime fuel nBits m = _ := firstPrimeFrom_loop (IntType.native_lawful w) small pos (word.trans_le (word_le w)) word
      (lt_of_le_of_lt starts.above start) start
    simp only [loops]
    exact stopped.ends.error_tryCatch rfl
  · simp only [firstPrimeFrom_overflows short pos word (not_lt.mp start)]
    exact ⟨0, fun _ _ => rfl⟩

theorem nextPrime_overflows (pos : 0 < m) (start : q + m < 2 ^ w.bits) (beyond : ∀ p ∈ primesAbove q q m, 2 ^ w.bits ≤ p)
    (caught : m * ((2 ^ w.bits - 1 - q) / m + 1) < 2 ^ w.bits) :
    ∃ msg, Ends (fun fuel => nextPrime (.native w) isPrime fuel q m) (.error (.mathError msg)) := by
  have starts := starts_next q pos
  have wordM : m < 2 ^ w.bits := by omega
  have stopped := climb_overflows decides (fun _ => q) "NextPrime overflow growing candidate" pos start
    (fun i fits prime => (beyond _ (starts.mem_iff.mpr ⟨prime, i, rfl⟩)).not_gt fits) (fun i => by omega) ?_
  · unfold nextPrime
    have laws := IntType.native_lawful w
    have word := laws.ofUint64 (wordM.trans_le (word_le w)) wordM
    have sum := laws.add start
    dsimp only [id] at word sum
    rw [word]
    simp only [sum]
    exact ⟨_, stopped.ends⟩
  · intro i fits passed
    have quotient : (2 ^ w.bits - 1 - q) / m = i + 1 := by
      apply Nat.div_eq_of_lt_le
      · rw [add_mul, one_mul]
        omega
      · rw [add_mul, add_mul, one_mul]
        omega
    rw [quotient, mul_add, mul_add, mul_one, Nat.mul_comm] at caught
    omega

theorem previousPrime_runs_out (pos : 0 < m) (le : m ≤ q) (word : q < 2 ^ w.bits) (none : primesBelow q m = ∅)
    (caught : m * (q / m + 1) < 2 ^ w.bits) :
    ∃ msg, Ends (fun fuel => previousPrime (.native w) isPrime fuel q m) (.error (.configError msg)) := by
  have laws := IntType.native_lawful w
  have wordM : m < 2 ^ w.bits := le.trans_lt word
  have stopped := descend_runs_out decides pos word le (fun i room prime => ?_) caught
  · have modulus := laws.ofUint64 (wordM.trans_le (word_le w)) wordM
    have difference := laws.sub le word
    dsimp only [id] at modulus difference
    unfold previousPrime
    rw [modulus]
    simp only [difference, lift_eq, ok_bind]
    exact ⟨_, stopped.ends⟩
  · have member := mem_primesBelow pos room prime
    rw [none] at member
    exact member

end Native

theorem primes_found :
    (∀ (w : NativeSize) (isPrime : ℕ → Bool), (∀ n < 2 ^ w.bits, (isPrime n = true ↔ n.Prime)) → NativeSearch w isPrime) ∧
    ∀ (l : LimbT) (isPrime : Ubint → Bool), (∀ n, n.size < 2 ^ 32 → (isPrime (Ubint.stored l n) = true ↔ n.Prime)) →
      DynamicSearch l isPrime := by
  constructor
  · intro w isPrime decides
    have laws := IntType.native_lawful w
    constructor
    · intro nBits m pos word short
      obtain ⟨p, least⟩ := exists_first (2 ^ nBits) pos
      have small : nBits < 2 ^ 16 := short.trans_lt (by cases w <;> decide)
      refine ⟨p, least, fun fits => ?_, fun beyond => ?_⟩
      · exact firstPrime_found laws decides (admitted short) small pos (word.trans_le (word_le w)) word least fits
      · exact firstPrime_overflows decides short pos word fun x member => beyond.trans (least.2 member)
    · intro nBits m long
      exact firstPrime_refused long
    · intro q m p pos start least fits
      exact nextPrime_found laws decides pos ((show m < 2 ^ w.bits by omega).trans_le (word_le w)) least fits
    · intro q m pos start beyond caught
      exact nextPrime_overflows decides pos start beyond caught
    · intro q m p pos le word greatest
      exact previousPrime_found laws decides pos ((le.trans_lt word).trans_le (word_le w)) le word greatest
    · intro q m pos le word none caught
      exact previousPrime_runs_out decides pos le word none caught
  · intro l isPrime decides
    have laws := IntType.dynamic_lawful l
    constructor
    · intro nBits m pos word small
      obtain ⟨p, least⟩ := exists_first (2 ^ nBits) pos
      have fitsM : m.size < 2 ^ 32 := (Nat.size_le.mpr word).trans_lt (by norm_num)
      exact ⟨p, least, fun fits => firstPrime_found laws decides rfl small pos word fitsM least fits⟩
    · intro q m p pos word least fits
      exact nextPrime_found laws decides pos word least fits
    · intro q m p pos word le fits greatest
      exact previousPrime_found laws decides pos word le fits greatest

/-- From thirteen down by four, past nine. -/
theorem five_below_thirteen :
    Ends (fun fuel => previousPrime (.native .w64) (fun n => decide n.Prime) fuel 13 4) (.ok 5) := by
  apply (primes_found.1 .w64 (fun n => decide n.Prime) fun n _ => decide_eq_true_iff).previous 13 4 5 (by norm_num) (by norm_num)
    (by decide)
  refine ⟨⟨by norm_num, by norm_num, by decide⟩, ?_⟩
  rintro p ⟨prime, below, residue⟩
  have : p % 4 = 1 := residue
  by_contra more
  obtain rfl : p = 9 := by omega
  exact absurd prime (by norm_num)

/-- A prime of 62 bits is not looked for. -/
theorem long_request_refused : ¬ ∃ p, IsLeast (primesAbove (2 ^ 61) 1 1) p ∧
    (p < 2 ^ 64 → Ends (fun fuel => firstPrime (.native .w64) (fun n => decide n.Prime) fuel 61 1) (.ok p)) := by
  rintro ⟨p, least, found⟩
  obtain ⟨x, prime, above, le⟩ := Nat.exists_prime_lt_and_le_two_mul (2 ^ 61) (by norm_num)
  have bound : p ≤ x := least.2 ⟨prime, above, Nat.modEq_one⟩
  obtain ⟨steps, run⟩ := found (by omega)
  cases run steps le_rfl

end MultiKeyFHE.NbTheory
