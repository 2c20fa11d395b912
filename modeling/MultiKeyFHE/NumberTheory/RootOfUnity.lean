import MultiKeyFHE.Library.ResidueOrder
import MultiKeyFHE.NumberTheory.Factorization
import Mathlib.NumberTheory.LucasPrimality

/-!
# Roots of unity

`RootOfUnity` raises a random generator to a root of unity, walks through the powers of it that are coprime to the order,
and keeps the smallest. Contexts that parties make on their own agree because every generator leads to the same one.
-/

namespace MultiKeyFHE.NbTheory
open Fuel ResidueOrder
variable {α : Type} (I : IntType α)

/-- The count `cnt` of the prime factors that do not break the loop of `FindGenerator`. -/
def countFactors (gen qm1 q : α) : List α → Except Fault ℕ
  | [] => .ok 0
  | it :: rest => do
    if ← I.eq (← I.modExp gen (← I.dividedBy qm1 it) q) (I.ofUint64 1) then return 0
    else return (← countFactors gen qm1 q rest) + 1

def generatorPass (stream : ℕ → ℕ) (qm1 qm2 q : α) (primeFactors : List α) (position : ℕ) : Attempt Fault (ℕ ⊕ α × ℕ) := do
  let gen := I.add (I.rng (stream position) qm2) (I.ofUint64 1)
  let cnt ← countFactors I gen qm1 q primeFactors
  if cnt ≠ primeFactors.length then return .inl (position + 1)
  else return .inr (gen, position + 1)

def findGenerator [DecidableEq α] (fuel : ℕ) (q : α) (stream : ℕ → ℕ) (position : ℕ) : Attempt Fault (α × ℕ) := do
  let qm1 ← I.sub q (I.ofUint64 1)
  let qm2 ← I.sub q (I.ofUint64 2)
  let (primeFactors, position) ← primeFactorize I stream fuel qm1 [] position
  loop (generatorPass I stream qm1 qm2 q primeFactors) fuel position

/-- `for (IntType j(0); j < diffPow; j += IntType(1))`. -/
def powerPass (result modulo mu diffPow : α) (s : α × α) : Attempt Fault (α × α ⊕ α) := do
  if ← I.lt s.1 diffPow then
    let x ← I.modMulEqMu s.2 result modulo mu
    return .inl (I.add s.1 (I.ofUint64 1), x)
  else return .inr s.2

/-- `x < minRU && x != IntType(1)`. -/
def smaller (x minRU : α) : Except Fault Bool := do
  if ← I.lt x minRU then I.ne x (I.ofUint64 1) else return false

/-- The loop over the exponents coprime to the order, from `curPowIdx` on. -/
def walk (fuel : ℕ) (result modulo mu : α) : List α → α → α → α → Attempt Fault α
  | [], _, minRU, _ => return minRU
  | nextPowIdx :: rest, x, minRU, curPowIdx => do
    let diffPow ← I.sub nextPowIdx curPowIdx
    let x ← loop (powerPass I result modulo mu diffPow) fuel (I.ofUint64 0, x)
    if ← smaller I x minRU then walk fuel result modulo mu rest x x nextPowIdx
    else walk fuel result modulo mu rest x minRU nextPowIdx

/-- The part of `RootOfUnity` after the comment about the minimum root of unity. -/
def minimumRoot (fuel m : ℕ) (modulo result : α) : Attempt Fault α := do
  let mu ← I.computeMu modulo
  let x ← I.modMulEqMu (I.ofUint64 1) result modulo mu
  let coprimes ← getTotientList I fuel (I.ofUint64 m)
  walk I fuel result modulo mu coprimes x x (I.ofUint64 1)

def notDividing (m : ℕ) (modulo : String) : String :=
  "Please provide a primeModulus(q) and a cyclotomic number(m) satisfying the condition: (q-1)/m is an integer. " ++
    "The values of primeModulus = " ++ modulo ++ " and m = " ++ toString m ++ " do not satisfy this condition"

def rootOfUnity [DecidableEq α] (stream : ℕ → ℕ) : ℕ → ℕ → α → ℕ → Attempt Fault (α × ℕ)
  | 0, _, _, _ => exhausted
  | fuel + 1, m, modulo, position => do
    let M := I.ofUint64 m
    if ← I.ne (← I.mod (← I.sub modulo (I.ofUint64 1)) M) (I.ofUint64 0) then
      throw (.mathError (notDividing m (← I.toString modulo)))
    else
      let (gen, position) ← findGenerator I fuel modulo stream position
      let result ← I.modExp gen (← I.dividedBy (← I.sub modulo (I.ofUint64 1)) M) modulo
      let (result, position) ←
        if ← I.eq result (I.ofUint64 1) then rootOfUnity stream fuel m modulo position else pure (result, position)
      let minRU ← minimumRoot I fuel m modulo result
      return (minRU, position)

/-! ### More fuel -/

section Fuel
variable {I} {fuel more : ℕ} (le : fuel ≤ more) (stream : ℕ → ℕ) (position : ℕ)
include le

theorem findGenerator_extends [DecidableEq α] (q : α) :
    Extends (findGenerator I fuel q stream position) (findGenerator I more q stream position) := by
  apply (Extends.refl _).bind
  intro qm1
  apply (Extends.refl _).bind
  intro qm2
  apply (primeFactorize_extends _ _ le _ _).bind
  rintro ⟨primeFactors, start⟩
  exact loop_extends (fun _ => .refl _) le start

theorem walk_extends (result modulo mu : α) (coprimes : List α) (x minRU curPowIdx : α) :
    Extends (walk I fuel result modulo mu coprimes x minRU curPowIdx) (walk I more result modulo mu coprimes x minRU curPowIdx) := by
  induction coprimes generalizing x minRU curPowIdx with
  | nil => exact .refl _
  | cons nextPowIdx rest ih =>
    apply (Extends.refl _).bind
    intro diffPow
    apply (loop_extends (fun _ => .refl _) le _).bind
    intro x
    apply (Extends.refl _).bind
    intro less
    exact (ih _ _ _).ite (ih _ _ _)

theorem minimumRoot_extends (m : ℕ) (modulo result : α) :
    Extends (minimumRoot I fuel m modulo result) (minimumRoot I more m modulo result) := by
  apply (Extends.refl _).bind
  intro mu
  apply (Extends.refl _).bind
  intro x
  apply (getTotientList_extends le _).bind
  intro coprimes
  exact walk_extends le _ _ _ _ _ _ _

omit le in
theorem rootOfUnity_extends [DecidableEq α] (le : fuel ≤ more) (m : ℕ) (modulo : α) :
    Extends (rootOfUnity I stream fuel m modulo position) (rootOfUnity I stream more m modulo position) := by
  induction fuel generalizing more position with
  | zero =>
    intro r done
    exact absurd done (exhausted_ne r)
  | succ fuel ih =>
    obtain ⟨more, rfl⟩ : ∃ k, more = k + 1 := ⟨more - 1, by omega⟩
    have le' : fuel ≤ more := by omega
    unfold rootOfUnity
    apply (Extends.refl _).bind
    intro remainder
    apply (Extends.refl _).bind
    intro residue
    apply (Extends.refl _).bind
    intro undivided
    apply (Extends.refl _).ite
    apply (findGenerator_extends le' _ _ _).bind
    rintro ⟨gen, start⟩
    apply (Extends.refl _).bind
    intro order
    apply (Extends.refl _).bind
    intro exponent
    apply (Extends.refl _).bind
    intro result
    apply (Extends.refl _).bind
    intro trivial
    apply Extends.ite
    · apply (ih start le').bind
      rintro ⟨root, last⟩
      apply (minimumRoot_extends le' _ _ _).bind
      exact fun _ => .refl _
    · apply (minimumRoot_extends le' _ _ _).bind
      exact fun _ => .refl _

end Fuel

/-! ### The generator -/

/-- The prime divisors that `PrimeFactorize` finds for `FindGenerator` are all of them. -/
def FactorsExactly [DecidableEq α] (rep : ℕ → α) (q : ℕ) (stream : ℕ → ℕ) (position : ℕ) : Prop :=
  ∀ fuel primeFactors last, primeFactorize I stream fuel (rep (q - 1)) [] position = ended (.ok (primeFactors, last)) →
    AddsPrimeDivisors rep (q - 1) [] primeFactors

theorem factorsExactly_of_run [DecidableEq α] {I : IntType α} {rep : ℕ → α} {q fuel position last : ℕ} {stream : ℕ → ℕ}
    {all : List α} (run : primeFactorize I stream fuel (rep (q - 1)) [] position = ended (.ok (all, last)))
    (adds : AddsPrimeDivisors rep (q - 1) [] all) : FactorsExactly I rep q stream position := by
  intro other primeFactors last' done
  have here := primeFactorize_extends stream position (le_max_left fuel other) _ _ _ run
  have there := primeFactorize_extends stream position (le_max_right fuel other) _ _ _ done
  cases ended_inj.mp (here.symm.trans there)
  exact adds

section Generator
variable {I} {rep : ℕ → α} {fits : ℕ → Prop} (laws : I.Lawful rep fits) {q g : ℕ} (modular : I.Modular rep fits q)
include laws modular

/-- The count is that of the whole list only if no factor breaks the loop. -/
theorem countFactors_ok (two : 2 ≤ q) (hg : fits g) (list : List α) (divisors : ∀ x ∈ list, ∃ p, p.Prime ∧ p ∣ q - 1 ∧ x = rep p) :
    ∃ cnt, countFactors I (rep g) (rep (q - 1)) (rep q) list = .ok cnt ∧
      (cnt = list.length → ∀ p, rep p ∈ list → p.Prime → p ∣ q - 1 → g ^ ((q - 1) / p) % q ≠ 1) := by
  have hq := modular.modulus
  have before : fits (q - 1) := laws.below (Nat.sub_le q 1) hq
  have divisor_fits : ∀ p, p ∣ q - 1 → fits p := fun p divides => laws.below (Nat.le_of_dvd (by omega) divides) before
  induction list with
  | nil => exact ⟨0, rfl, fun _ p member => by cases member⟩
  | cons it rest ih =>
    obtain ⟨p, prime, divides, rfl⟩ := divisors it (by simp)
    obtain ⟨cnt, counted, proper⟩ := ih fun x member => divisors x (List.mem_cons_of_mem _ member)
    have le : p ≤ q - 1 := Nat.le_of_dvd (by omega) divides
    have power : fits (g ^ ((q - 1) / p) % q) := laws.below (Nat.mod_lt _ (by omega)).le hq
    rw [countFactors, laws.dividedBy prime.pos le before]
    dsimp only [bind, Except.bind]
    rw [modular.modExp hg (laws.below (Nat.div_le_self _ _) before), laws.ofOne]
    dsimp only
    rw [laws.eq power laws.one]
    by_cases period : g ^ ((q - 1) / p) % q = 1
    · rw [decide_eq_true period]
      exact ⟨0, rfl, fun whole => by cases whole⟩
    · rw [decide_eq_false period, counted]
      refine ⟨cnt + 1, rfl, fun whole x member hx hd => ?_⟩
      rcases List.mem_cons.mp member with same | member
      · rw [laws.inj (divisor_fits x hd) (divisor_fits p divides) same]
        exact period
      · exact proper (Nat.succ.inj whole) x member hx hd

theorem findGenerator_ended [DecidableEq α] [Fact q.Prime] (large : 3 < q) {fuel position last : ℕ} {stream : ℕ → ℕ} {gen : α}
    (exactly : FactorsExactly I rep q stream position)
    (run : findGenerator I fuel (rep q) stream position = ended (.ok (gen, last))) :
    ∃ g, gen = rep g ∧ g < q ∧ orderOf (g : ZMod q) = q - 1 := by
  have hq := modular.modulus
  unfold findGenerator at run
  simp only [laws.ofOne, laws.ofTwo,
    laws.sub (show 1 ≤ q by omega) hq, laws.sub (show 2 ≤ q by omega) hq, lift_eq, ok_bind] at run
  rcases bind_ended run with ⟨⟨primeFactors, start⟩, factored, rest⟩ | ⟨e, -, failed⟩
  · have all := exactly fuel primeFactors start factored
    simp only [AddsPrimeDivisors, List.not_mem_nil, false_or] at all
    have drawn : ∀ k, stream k % (q - 2) + 1 < q := fun k => by
      have := Nat.mod_lt (stream k) (show 0 < q - 2 by omega)
      omega
    have pass : ∀ k, ∃ cnt, generatorPass I stream (rep (q - 1)) (rep (q - 2)) (rep q) primeFactors k =
        ended (.ok (if cnt ≠ primeFactors.length then .inl (k + 1) else .inr (rep (stream k % (q - 2) + 1), k + 1))) ∧
        (cnt = primeFactors.length → ∀ p, rep p ∈ primeFactors → p.Prime → p ∣ q - 1 →
          (stream k % (q - 2) + 1) ^ ((q - 1) / p) % q ≠ 1) := by
      intro k
      have fitsG := laws.below (drawn k).le hq
      obtain ⟨cnt, counted, proper⟩ := countFactors_ok laws modular (by omega) fitsG primeFactors fun x member => (all x).mp member
      refine ⟨cnt, ?_, proper⟩
      unfold generatorPass
      rw [laws.rng _ (by omega) (laws.below (Nat.sub_le q 2) hq), laws.ofOne, laws.add fitsG]
      simp only [counted, lift_eq, ok_bind]
      split <;> rfl
    apply loop_ended _ (fun _ => True) (P := fun r => ∀ gen last, r = .ok (gen, last) →
      ∃ g, gen = rep g ∧ g < q ∧ orderOf (g : ZMod q) = q - 1) ?_ ?_ ?_ trivial rest gen last rfl
    · intro k t _ _
      trivial
    · rintro k ⟨gen', last'⟩ - once gen last same
      cases same
      obtain ⟨cnt, result, proper⟩ := pass k
      rw [result] at once
      split at once
      · cases ended_inj.mp once
      · rename_i whole
        cases ended_inj.mp once
        refine ⟨_, rfl, drawn k, order_of_generator (Nat.succ_pos _) (drawn k) fun p prime divides => ?_⟩
        exact proper (not_not.mp whole) p ((all _).mpr ⟨p, prime, divides, rfl⟩) prime divides
    · intro k e _ once gen last failed
      cases failed
  · cases failed

end Generator

/-! ### The walk -/

section Walk
variable {I} {rep : ℕ → α} {fits : ℕ → Prop} (laws : I.Lawful rep fits) {q z : ℕ} {mu : α} (hq : fits q) (hz : z < q)
  (product : ∀ x < q, ∀ y < q, I.modMulEqMu (rep x) (rep y) (rep q) mu = .ok (rep (x * y % q)))
include laws hq hz product

omit hq in
theorem powers_settle {x diff : ℕ} (hx : x < q) (hd : fits diff) :
    Settles (fun fuel => loop (powerPass I (rep z) (rep q) mu (rep diff)) fuel (rep 0, rep x)) (.ok (rep (x * z ^ diff % q))) := by
  have pos : 0 < q := by omega
  have start : (rep 0, rep x) = (fun i => (rep i, rep (x * z ^ i % q))) 0 := by
    dsimp only
    rw [pow_zero, mul_one, Nat.mod_eq_of_lt hx]
  rw [start]
  apply loop_steps _ (fun i => (rep i, rep (x * z ^ i % q))) (n := diff)
  · intro i less
    have next : x * z ^ i % q * z % q = x * z ^ (i + 1) % q := by rw [Nat.mod_mul_mod, mul_assoc, ← pow_succ]
    unfold powerPass
    simp only [laws.lt (laws.below less.le hd) hd, product _ (Nat.mod_lt _ pos) z hz, next, decide_eq_true less, lift_eq, ok_bind,
      if_true, laws.ofOne, laws.add (laws.below (show i + 1 ≤ diff from less) hd), pure_eq]
  · unfold powerPass
    simp only [laws.lt hd hd, lt_irrefl, decide_false, lift_eq, ok_bind, Bool.false_eq_true, if_false]
    rfl

omit hz product in
theorem smaller_eq {x least : ℕ} (hx : x < q) (hl : least < q) (other : x ≠ 1) :
    smaller I (rep x) (rep least) = .ok (decide (x < least)) := by
  unfold smaller
  rw [laws.lt (laws.below hx.le hq) (laws.below hl.le hq), laws.ofOne]
  dsimp only [bind, Except.bind]
  rw [laws.ne (laws.below hx.le hq) laws.one, decide_eq_true other]
  by_cases less : x < least <;> simp [less, pure, Except.pure]

/-- The smallest of what was found before and the powers that are left. -/
theorem walk_settles (exponents : List ℕ) {current least : ℕ} (sorted : (current :: exponents).Pairwise (· ≤ ·))
    (fitting : ∀ i ∈ exponents, fits i) (apart : ∀ i ∈ exponents, z ^ i % q ≠ 1) (hl : least < q) :
    ∃ r, Settles (fun fuel => walk I fuel (rep z) (rep q) mu (exponents.map rep) (rep (z ^ current % q)) (rep least) (rep current))
        (.ok (rep r)) ∧ r ≤ least ∧ (∀ i ∈ exponents, r ≤ z ^ i % q) ∧ (r = least ∨ ∃ i ∈ exponents, r = z ^ i % q) := by
  have pos : 0 < q := by omega
  induction exponents generalizing current least with
  | nil => exact ⟨least, settles_ended _, le_rfl, by simp, .inl rfl⟩
  | cons i rest ih =>
    have next : current ≤ i := (List.pairwise_cons.mp sorted).1 i (by simp)
    have fitsI := fitting i (by simp)
    have power : z ^ current % q * z ^ (i - current) % q = z ^ i % q := by
      rw [Nat.mod_mul_mod, ← pow_add, Nat.add_sub_cancel' next]
    have steps := powers_settle laws hz product (Nat.mod_lt (z ^ current) pos) (laws.below (Nat.sub_le i current) fitsI)
    rw [power] at steps
    obtain ⟨r, rest_settles, le, all, found⟩ := @ih i (min (z ^ i % q) least) (List.pairwise_cons.mp sorted).2
      (fun j member => fitting j (List.mem_cons_of_mem _ member)) (fun j member => apart j (List.mem_cons_of_mem _ member))
      ((min_le_right _ _).trans_lt hl)
    refine ⟨r, ?_, le.trans (min_le_right _ _), ?_, ?_⟩
    · simp only [List.map_cons, walk, laws.sub next fitsI, laws.ofZero, lift_eq, ok_bind]
      apply steps.bind
      simp only [smaller_eq laws hq (Nat.mod_lt (z ^ i) pos) hl (apart i (by simp)), ok_bind, decide_eq_true_eq]
      by_cases less : z ^ i % q < least
      · rw [min_eq_left less.le] at rest_settles
        simpa only [if_pos less] using rest_settles
      · rw [min_eq_right (not_lt.mp less)] at rest_settles
        simpa only [if_neg less] using rest_settles
    · intro j member
      rcases List.mem_cons.mp member with rfl | member
      · exact le.trans (min_le_left _ _)
      · exact all j member
    · rcases found with same | ⟨j, member, same⟩
      · rcases min_choice (z ^ i % q) least with left | right
        · exact .inr ⟨i, by simp, same.trans left⟩
        · exact .inl (same.trans right)
      · exact .inr ⟨j, List.mem_cons_of_mem _ member, same⟩

end Walk

theorem totatives_sorted (n i : ℕ) : (1 :: totatives n i).Pairwise (· ≤ ·) := by
  rw [List.pairwise_cons]
  constructor
  · intro x member
    exact (List.mem_range'_1.mp (List.mem_of_mem_filter member)).1
  · exact List.Pairwise.filter _ ((List.pairwise_lt_range' (s := 1) (n := i)).imp fun less => less.le)

theorem mem_totatives {n i x : ℕ} : x ∈ totatives n i ↔ 1 ≤ x ∧ x ≤ i ∧ x.Coprime n := by
  unfold totatives
  rw [List.mem_filter, List.mem_range'_1, decide_eq_true_eq]
  omega

theorem minimumRoot_settles {I : IntType α} {rep : ℕ → α} {fits : ℕ → Prop} (laws : I.Lawful rep fits) {q m z : ℕ} [Fact q.Prime]
    (hq : fits q) (barrett : I.Barrett rep q) (two : 2 ≤ m) (word : m < 2 ^ 32) (root : z ∈ ofOrder q m) :
    ∃ r, IsLeast (ofOrder q m) r ∧ Settles (fun fuel => minimumRoot I fuel m (rep q) (rep z)) (.ok (rep r)) := by
  obtain ⟨mu, computed, product⟩ := barrett
  have hz := root.2.1
  have more : 1 < q := (Fact.out : q.Prime).one_lt
  have powers := ofOrder_iff two root
  have member : ∀ i ∈ totatives m (m - 1), z ^ i % q ∈ ofOrder q m := by
    intro i mem
    obtain ⟨low, high, coprime⟩ := mem_totatives.mp mem
    exact (powers _).mpr ⟨i, low, by omega, coprime, rfl⟩
  have apart : ∀ i ∈ totatives m (m - 1), z ^ i % q ≠ 1 := by
    intro i mem one
    have order := (member i mem).2.2
    rw [one, Nat.cast_one, orderOf_one] at order
    omega
  have fitting : ∀ i ∈ totatives m (m - 1), fits i := fun i mem =>
    laws.words (by have := mem_totatives.mp mem; omega)
  obtain ⟨r, walked, le, all, found⟩ := walk_settles laws hq hz product (totatives m (m - 1)) (totatives_sorted m (m - 1)) fitting apart hz
  refine ⟨r, ⟨?_, ?_⟩, ?_⟩
  · rcases found with same | ⟨i, mem, same⟩
    · exact same ▸ root
    · exact same ▸ member i mem
  · intro s order
    obtain ⟨i, low, high, coprime, rfl⟩ := (powers s).mp order
    exact all i (mem_totatives.mpr ⟨low, by omega, coprime⟩)
  · have coprimes := getTotientList_settles laws (show 0 < m by omega) (laws.words word)
    unfold minimumRoot
    simp only [computed, laws.ofOne, laws.ofWord word, product 1 more z hz, one_mul,
      Nat.mod_eq_of_lt hz, lift_eq, ok_bind]
    apply coprimes.bind
    rwa [pow_one, Nat.mod_eq_of_lt hz] at walked

section All
variable [DecidableEq α]

theorem rootOfUnity_ends {I : IntType α} {rep : ℕ → α} {fits : ℕ → Prop} (laws : I.Lawful rep fits) {q m : ℕ}
    (modular : I.Modular rep fits q) (barrett : I.Barrett rep q) (prime : q.Prime) (large : 3 < q) (two : 2 ≤ m)
    (word : m < 2 ^ 32) (divides : m ∣ q - 1) {stream : ℕ → ℕ} {position last : ℕ} {gen : α}
    (exactly : FactorsExactly I rep q stream position) {fuel : ℕ}
    (stops : findGenerator I fuel (rep q) stream position = ended (.ok (gen, last))) :
    ∃ r, IsLeast (ofOrder q m) r ∧ Ends (fun fuel => rootOfUnity I stream fuel m (rep q) position) (.ok (rep r, last)) := by
  have : Fact q.Prime := ⟨prime⟩
  have hq := modular.modulus
  have before : fits (q - 1) := laws.below (Nat.sub_le q 1) hq
  have hm : fits m := laws.words word
  obtain ⟨g, rfl, hg, order⟩ := findGenerator_ended laws modular large exactly stops
  have root := root_of_generator order (show 0 < m by omega) divides
  have other : g ^ ((q - 1) / m) % q ≠ 1 := by
    intro one
    have unit := root.2.2
    rw [one, Nat.cast_one, orderOf_one] at unit
    omega
  obtain ⟨r, least, settles⟩ := minimumRoot_settles laws hq barrett two word root
  refine ⟨r, least, Ends.succ ?_⟩
  have power := modular.modExp (laws.below hg.le hq) (laws.below (Nat.div_le_self (q - 1) m) before)
  simp only [rootOfUnity, laws.ofOne, laws.ofZero, laws.ofWord word,
    laws.sub (show 1 ≤ q by omega) hq, laws.mod (show 0 < m by omega) before hm, Nat.mod_eq_zero_of_dvd divides,
    laws.ne laws.zero laws.zero, lift_eq, ok_bind, ne_eq, not_true, decide_false, Bool.false_eq_true, if_false]
  have generator : Ends (fun fuel => findGenerator I fuel (rep q) stream position) _ :=
    ⟨fuel, fun more enough => findGenerator_extends enough stream position (rep q) _ stops⟩
  apply generator.bind
  simp only [laws.dividedBy (show 0 < m by omega) (Nat.le_of_dvd (by omega) divides) before, power,
    laws.eq (laws.below root.2.1.le hq) laws.one, decide_eq_false other, ok_bind,
    Bool.false_eq_true, if_false, pure_eq]
  apply settles.ends.bind
  exact ⟨0, fun _ _ => rfl⟩

/-- Every draw that lets `FindGenerator` stop leads to the least root. -/
def LeastRoot (I : IntType α) (rep : ℕ → α) (q : ℕ) : Prop :=
  ∀ m, 2 ≤ m → m < 2 ^ 32 → m ∣ q - 1 → ∀ stream position, FactorsExactly I rep q stream position →
    ∀ fuel gen last, findGenerator I fuel (rep q) stream position = ended (.ok (gen, last)) →
      ∃ r, IsLeast (ofOrder q m) r ∧ Ends (fun fuel => rootOfUnity I stream fuel m (rep q) position) (.ok (rep r, last))

end All

theorem least_root :
    (∀ (w : NativeSize) (q : ℕ), q.Prime → 3 < q → ¬ NativeInteger.modulusTooLarge w q → LeastRoot (.native w) id q) ∧
    ∀ (l : LimbT) (q : ℕ), q.Prime → 3 < q → (q * q).size < 2 ^ 32 → LeastRoot (.dynamic l) (Ubint.stored l) q := by
  constructor
  · intro w q prime large short m two word divides stream position exactly fuel gen last stops
    have bound := NativeInteger.lt_of_not_tooLarge short
    have other : q ≠ 2 ^ (w.maxModulusSize - 1) := by
      rintro rfl
      exact Nat.Prime.not_prime_pow (by cases w <;> decide) prime
    exact rootOfUnity_ends (IntType.native_lawful w) (IntType.native_modular (by omega) (by omega))
      (IntType.native_barrett (by omega) short other) prime large two word divides exactly stops
  · intro l q prime large square m two word divides stream position exactly fuel gen last stops
    exact rootOfUnity_ends (IntType.dynamic_lawful l) (IntType.dynamic_modular (by omega) square)
      (IntType.dynamic_barrett (by omega) square) prime large two word divides exactly stops

/-! ### Twos and threes -/

theorem eq_two_or_three {a b p : ℕ} (prime : p.Prime) (divides : p ∣ 2 ^ a * 3 ^ b) : p = 2 ∨ p = 3 := by
  rcases prime.dvd_mul.mp divides with left | right
  · exact .inl ((Nat.prime_dvd_prime_iff_eq prime Nat.prime_two).mp (prime.dvd_of_dvd_pow left))
  · exact .inr ((Nat.prime_dvd_prime_iff_eq prime Nat.prime_three).mp (prime.dvd_of_dvd_pow right))

theorem adds_two_three {a b : ℕ} (ha : a ≠ 0) (hb : b ≠ 0) : AddsPrimeDivisors id (2 ^ a * 3 ^ b) [] [3, 2] := by
  intro x
  constructor
  · intro member
    rcases List.mem_pair.mp member with rfl | rfl
    · exact .inr ⟨3, Nat.prime_three, (dvd_pow_self 3 hb).mul_left _, rfl⟩
    · exact .inr ⟨2, Nat.prime_two, (dvd_pow_self 2 ha).mul_right _, rfl⟩
  · rintro (member | ⟨p, prime, divides, rfl⟩)
    · cases member
    · rcases eq_two_or_three prime divides with rfl | rfl <;> simp

/-- One base whose powers take `q - 1` steps. -/
theorem prime_of_modExp {w : NativeSize} {a q : ℕ} (two : 2 ≤ q) (word : q < 2 ^ w.bits) (ha : a < q)
    (whole : NativeInteger.modExp w a (q - 1) q = 1)
    (proper : ∀ p : ℕ, p.Prime → p ∣ q - 1 → NativeInteger.modExp w a ((q - 1) / p) q ≠ 1) : q.Prime := by
  have power : ∀ n, (a : ZMod q) ^ n = 1 ↔ NativeInteger.modExp w a n q = 1 := by
    intro n
    rw [NativeInteger.modExp_eq two word.le (ha.trans word), ← Nat.cast_pow, cast_eq_one (by omega)]
  apply lucas_primality q (a : ZMod q)
  · exact (power _).mpr whole
  · intro p prime divides period
    exact proper p prime divides ((power _).mp period)

theorem least_root_thirteen :
    ∃ r, IsLeast (ofOrder 13 4) r ∧ Ends (fun fuel => rootOfUnity (.native .w64) id fuel 4 13 0) (.ok (r, 2)) := by
  have factored : (primeFactorize (.native .w64) id 20 12 [] 0).run = some (.ok ([3, 2], 0)) := by decide +kernel
  have generator : (findGenerator (.native .w64) 20 13 id 0).run = some (.ok (2, 2)) := by decide +kernel
  have exactly : FactorsExactly (.native .w64) id 13 id 0 :=
    factorsExactly_of_run factored (adds_two_three (a := 2) (b := 1) (by decide) (by decide))
  exact least_root.1 .w64 13 (by decide) (by norm_num) (by decide) 4 (by norm_num) (by norm_num) (by norm_num) id 0 exactly 20 2 2
    generator

/-- A prime of 61 bits, too long for the reductions. -/
def longPrime : ℕ := 2 ^ 56 * 3 ^ 3 + 1

theorem longPrime_prime : longPrime.Prime := by
  apply prime_of_modExp (w := .w64) (a := 5) (by decide) (by decide) (by decide)
  · decide +kernel
  · intro p prime divides
    rcases eq_two_or_three (a := 56) (b := 3) prime divides with rfl | rfl
    · decide +kernel
    · decide +kernel

/-- For the long prime, one stream leads to a root that is not the least. -/
theorem long_prime_root : longPrime.Prime ∧ 3 < longPrime ∧ ¬ LeastRoot (.native .w64) id longPrime := by
  refine ⟨longPrime_prime, by decide, fun least => ?_⟩
  have factored : (primeFactorize (.native .w64) (fun k => k * k + 6) 90 (longPrime - 1) [] 0).run = some (.ok ([3, 2], 6)) := by
    decide +kernel
  have generator : (findGenerator (.native .w64) 90 longPrime (fun k => k * k + 6) 0).run = some (.ok (107, 11)) := by decide +kernel
  have walked : (rootOfUnity (.native .w64) (fun k => k * k + 6) 90 4 longPrime 0).run = some (.ok (1056668192850155912, 11)) := by
    decide +kernel
  have exactly : FactorsExactly (.native .w64) id longPrime (fun k => k * k + 6) 0 :=
    factorsExactly_of_run factored (adds_two_three (a := 56) (b := 3) (by decide) (by decide))
  obtain ⟨r, isLeast, steps, run⟩ := least 4 (by norm_num) (by norm_num) (by decide) _ 0 exactly 90 107 11 generator
  have enough := rootOfUnity_extends (fun k => k * k + 6) 0 (le_max_left 90 steps) 4 longPrime _ walked
  cases ended_inj.mp (enough.symm.trans (run _ (le_max_right 90 steps)))
  have smaller : 888886846173898361 ∈ ofOrder longPrime 4 := by
    refine ⟨by decide, by decide, orderOf_eq_prime_pow (p := 2) (n := 1) ?_ ?_⟩ <;>
      rw [← Nat.cast_pow, cast_eq_one (by decide)] <;> decide +kernel
  exact absurd (isLeast.2 smaller) (by decide)

end MultiKeyFHE.NbTheory
