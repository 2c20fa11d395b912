import MultiKeyFHE.NumberTheory.Primality
import MultiKeyFHE.NumberTheory.Totatives

/-!
# Factorization

`PrimeFactorize` splits a number by Pollard's rho until the parts pass the primality test. A divisor that Pollard's rho
returns may be the number itself, so nothing here says that it ends; what it returns when it does end is complete.
-/

namespace MultiKeyFHE.NbTheory
open Fuel
variable {α : Type} (I : IntType α)

/-- `x.ModMul(x, n, mu).ModAdd(c, n, mu)`. -/
def pollardStep (c n mu x : α) : Except Fault α := do
  let square ← I.modMulMu x x n mu
  I.modAddMu square c n mu

/-- `(x > xx) ? x - xx : xx - x`. -/
def distance (x xx : α) : Except Fault α := do
  if ← I.gt x xx then I.sub x xx else I.sub xx x

def pollardPass (c n mu : α) (fuel : ℕ) (s : α × α) : Attempt Fault (α × α ⊕ α) := do
  let x ← pollardStep I c n mu s.1
  let xx ← pollardStep I c n mu s.2
  let xx ← pollardStep I c n mu xx
  let divisor ← greatestCommonDivisor I fuel (← distance I x xx) n
  if ← I.eq divisor (I.ofUint64 1) then return .inl (x, xx)
  else return .inr divisor

def pollardRhoFactorization (fuel : ℕ) (n : α) (stream : ℕ → ℕ) (position : ℕ) : Attempt Fault (α × ℕ) := do
  if ← I.eq (← I.mod n (I.ofUint64 2)) (I.ofUint64 0) then return (I.ofUint64 2, position)
  else
    let c := I.rng (stream position) n
    let x := I.rng (stream (position + 1)) n
    let mu ← I.computeMu n
    let divisor ← loop (pollardPass I c n mu fuel) fuel (x, x)
    return (divisor, position + 2)

/-- `n == IntType(0) || n == IntType(1)`. -/
def zeroOrOne (n : α) : Except Fault Bool := do
  if ← I.eq n (I.ofUint64 0) then return true
  I.eq n (I.ofUint64 1)

/-- The number of bases that `MillerRabinPrimalityTest` takes by default. -/
def defaultIterations : ℕ := 100

/-- The set is a list without repetitions. -/
def primeFactorize [DecidableEq α] (stream : ℕ → ℕ) : ℕ → α → List α → ℕ → Attempt Fault (List α × ℕ)
  | 0, _, _, _ => exhausted
  | fuel + 1, n, primeFactors, position => do
    if ← zeroOrOne I n then return (primeFactors, position)
    else
      let (prime, position) ← millerRabinPrimalityTest I fuel n defaultIterations stream position
      if prime then return (primeFactors.insert n, position)
      else
        let (divisor, position) ← pollardRhoFactorization I fuel n stream position
        let (primeFactors, position) ← primeFactorize stream fuel divisor primeFactors position
        let cofactor ← I.dividedBy n divisor
        primeFactorize stream fuel cofactor primeFactors position

/-! ### More fuel -/

section Fuel
variable {I} {fuel more : ℕ} (le : fuel ≤ more) (stream : ℕ → ℕ) (position : ℕ)
include le

theorem pollardPass_extends (c n mu : α) (s : α × α) : Extends (pollardPass I c n mu fuel s) (pollardPass I c n mu more s) := by
  apply (Extends.refl _).bind
  intro x
  apply (Extends.refl _).bind
  intro z
  apply (Extends.refl _).bind
  intro xx
  apply (Extends.refl _).bind
  intro apart
  apply (greatestCommonDivisor_extends le _ _).bind
  exact fun _ => .refl _

theorem pollardRho_extends (n : α) :
    Extends (pollardRhoFactorization I fuel n stream position) (pollardRhoFactorization I more n stream position) := by
  apply (Extends.refl _).bind
  intro r
  apply (Extends.refl _).bind
  intro even
  apply (Extends.refl _).ite
  apply (Extends.refl _).bind
  intro mu
  apply (loop_extends (pollardPass_extends le _ _ _) le _).bind
  exact fun _ => .refl _

omit le in
theorem primeFactorize_extends [DecidableEq α] (le : fuel ≤ more) (n : α) (primeFactors : List α) :
    Extends (primeFactorize I stream fuel n primeFactors position) (primeFactorize I stream more n primeFactors position) := by
  induction fuel generalizing more n primeFactors position with
  | zero =>
    intro r done
    exact absurd done (exhausted_ne r)
  | succ fuel ih =>
    obtain ⟨more, rfl⟩ : ∃ k, more = k + 1 := ⟨more - 1, by omega⟩
    have le' : fuel ≤ more := by omega
    unfold primeFactorize
    apply (Extends.refl _).bind
    intro small
    apply (Extends.refl _).ite
    apply (millerRabin_extends le' _ _ _ _).bind
    rintro ⟨prime, tested⟩
    apply (Extends.refl _).ite
    apply (pollardRho_extends le' _ _ _).bind
    rintro ⟨divisor, found⟩
    apply (ih found le' divisor primeFactors).bind
    rintro ⟨between, done⟩
    apply (Extends.refl _).bind
    intro cofactor
    exact ih done le' cofactor between

end Fuel

section Pollard
variable {I} {rep : ℕ → α} {fits : ℕ → Prop} (laws : I.Lawful rep fits) {n x xx : ℕ} {c mu : α}
include laws

theorem distance_ok (hx : fits x) (hxx : fits xx) : ∃ y, fits y ∧ distance I (rep x) (rep xx) = .ok (rep y) := by
  unfold distance
  rw [laws.gt hx hxx]
  dsimp only [bind, Except.bind]
  by_cases more : xx < x
  · rw [decide_eq_true more, if_pos rfl, laws.sub more.le hx]
    exact ⟨_, laws.below (Nat.sub_le ..) hx, rfl⟩
  · rw [decide_eq_false more, if_neg Bool.false_ne_true, laws.sub (not_lt.mp more) hxx]
    exact ⟨_, laws.below (Nat.sub_le ..) hxx, rfl⟩

theorem pollardPass_ended (hn : fits n) (stays : ∀ x, fits x → ∃ z, fits z ∧ pollardStep I c (rep n) mu (rep x) = .ok (rep z))
    (hx : fits x) (hxx : fits xx) {fuel : ℕ} {r : Except Fault (α × α ⊕ α)}
    (pass : pollardPass I c (rep n) mu fuel (rep x, rep xx) = ended r) :
    (∃ y yy, r = .ok (.inl (rep y, rep yy)) ∧ fits y ∧ fits yy) ∨ ∃ d, r = .ok (.inr (rep d)) ∧ d ∣ n ∧ d ≠ 1 := by
  obtain ⟨y, hy, once⟩ := stays x hx
  obtain ⟨z, hz, first⟩ := stays xx hxx
  obtain ⟨yy, hyy, second⟩ := stays z hz
  obtain ⟨t, ht, apart⟩ := distance_ok laws hy hyy
  have g : fits (t.gcd n) := by
    rcases Nat.eq_zero_or_pos n with rfl | pos
    · rwa [Nat.gcd_zero_right]
    · exact laws.below (Nat.gcd_le_right t pos) hn
  unfold pollardPass at pass
  simp only [once, first, second, apart, lift_eq, ok_bind] at pass
  rcases bind_ended pass with ⟨divisor, computed, rest⟩ | ⟨e, computed, -⟩
  · cases (gcd_settles laws ht hn).only fuel _ computed
    simp only [laws.ofOne, laws.eq g laws.one, ok_bind,
      decide_eq_true_eq] at rest
    split at rest
    · exact .inl ⟨y, yy, (ended_inj.mp rest).symm, hy, hyy⟩
    · rename_i proper
      exact .inr ⟨_, (ended_inj.mp rest).symm, Nat.gcd_dvd_right t n, proper⟩
  · cases (gcd_settles laws ht hn).only fuel _ computed

theorem pollardRho_ended (hn : fits n) (pos : 0 < n) (stays : I.Stays rep fits n) {fuel position : ℕ} {stream : ℕ → ℕ}
    {r : Except Fault (α × ℕ)} (run : pollardRhoFactorization I fuel (rep n) stream position = ended r) :
    ∃ d last, r = .ok (rep d, last) ∧ d ∣ n ∧ d ≠ 1 := by
  obtain ⟨mu, computed, results⟩ := stays
  unfold pollardRhoFactorization at run
  simp only [laws.ofTwo, laws.ofZero, laws.mod two_pos hn laws.two,
    laws.eq (laws.below (Nat.mod_lt n two_pos).le laws.two) laws.zero, computed, laws.rng _ pos hn, lift_eq, ok_bind,
    decide_eq_true_eq] at run
  split at run
  · rename_i even
    exact ⟨2, position, (ended_inj.mp run).symm, Nat.dvd_of_mod_eq_zero even, by norm_num⟩
  · have drawn : ∀ k, fits (stream k % n) := fun k => laws.below (Nat.mod_lt _ pos).le hn
    have step : ∀ x, fits x → ∃ z, fits z ∧ pollardStep I (rep (stream position % n)) (rep n) mu (rep x) = .ok (rep z) := by
      intro x hx
      obtain ⟨y, hy, square⟩ := (results x x hx hx).1
      obtain ⟨z, hz, sum⟩ := (results y _ hy (drawn position)).2
      refine ⟨z, hz, ?_⟩
      unfold pollardStep
      rw [square]
      exact sum
    have divides : ∀ {t : Except Fault α}, loop (pollardPass I (rep (stream position % n)) (rep n) mu fuel) fuel
        (rep (stream (position + 1) % n), rep (stream (position + 1) % n)) = ended t → ∃ d, t = .ok (rep d) ∧ d ∣ n ∧ d ≠ 1 := by
      intro t ran
      apply loop_ended _ (fun s => ∃ y yy, s = (rep y, rep yy) ∧ fits y ∧ fits yy) ?_ ?_ ?_
        ⟨_, _, rfl, drawn (position + 1), drawn (position + 1)⟩ ran
      · rintro s t ⟨y, yy, rfl, hy, hyy⟩ pass
        rcases pollardPass_ended laws hn step hy hyy pass with ⟨z, zz, same, hz, hzz⟩ | ⟨d, same, -⟩ <;> cases same
        exact ⟨z, zz, rfl, hz, hzz⟩
      · rintro s t ⟨y, yy, rfl, hy, hyy⟩ pass
        rcases pollardPass_ended laws hn step hy hyy pass with ⟨z, zz, same, -⟩ | ⟨d, same, divides⟩ <;> cases same
        exact ⟨d, rfl, divides⟩
      · rintro s e ⟨y, yy, rfl, hy, hyy⟩ pass
        rcases pollardPass_ended laws hn step hy hyy pass with ⟨z, zz, same, -⟩ | ⟨d, same, -⟩ <;> cases same
    rcases bind_ended run with ⟨divisor, ran, rest⟩ | ⟨e, ran, -⟩
    · obtain ⟨d, same, proper⟩ := divides ran
      cases same
      exact ⟨d, _, (ended_inj.mp rest).symm, proper⟩
    · obtain ⟨d, same, -⟩ := divides ran
      cases same

theorem zeroOrOne_eq (hn : fits n) : zeroOrOne I (rep n) = .ok (decide (n = 0 ∨ n = 1)) := by
  unfold zeroOrOne
  rw [laws.ofZero, laws.ofOne, laws.eq hn laws.zero, laws.eq hn laws.one]
  by_cases zero : n = 0 <;> simp [zero, bind, Except.bind, pure, Except.pure]

end Pollard

/-! ### The run of `PrimeFactorize` -/

variable [DecidableEq α]

/-- The run that factorizes `n` from a position on tests `c`, from its own position on. -/
inductive Meets (stream : ℕ → ℕ) : α → ℕ → α → ℕ → Prop
  | here {n : α} (position : ℕ) (more : zeroOrOne I n = .ok false) : Meets stream n position n position
  | divisor {n d c : α} {position tested found at_c fuel : ℕ} (more : zeroOrOne I n = .ok false)
      (composite : millerRabinPrimalityTest I fuel n defaultIterations stream position = ended (.ok (false, tested)))
      (split : pollardRhoFactorization I fuel n stream tested = ended (.ok (d, found)))
      (later : Meets stream d found c at_c) : Meets stream n position c at_c
  | cofactor {n d e c : α} {position tested found done at_c fuel : ℕ} {before after : List α}
      (more : zeroOrOne I n = .ok false)
      (composite : millerRabinPrimalityTest I fuel n defaultIterations stream position = ended (.ok (false, tested)))
      (split : pollardRhoFactorization I fuel n stream tested = ended (.ok (d, found)))
      (first : primeFactorize I stream fuel d before found = ended (.ok (after, done)))
      (divided : I.dividedBy n d = .ok e) (later : Meets stream e done c at_c) : Meets stream n position c at_c

/-- The test returns false on every composite number that the run meets. -/
def RejectsComposites (rep : ℕ → α) (stream : ℕ → ℕ) (n : α) (position : ℕ) : Prop :=
  ∀ c at_c, Meets I stream n position (rep c) at_c → 2 ≤ c → ¬ c.Prime → ∀ fuel tested,
    millerRabinPrimalityTest I fuel (rep c) defaultIterations stream at_c ≠ ended (.ok (true, tested))

/-- The members of the first list and the prime divisors of `n`. -/
def AddsPrimeDivisors (rep : ℕ → α) (n : ℕ) (before after : List α) : Prop :=
  ∀ x, x ∈ after ↔ x ∈ before ∨ ∃ p, p.Prime ∧ p ∣ n ∧ x = rep p

omit [DecidableEq α] in
theorem adds_one (rep : ℕ → α) (before : List α) : AddsPrimeDivisors rep 1 before before := by
  intro x
  refine ⟨.inl, fun member => member.resolve_right ?_⟩
  rintro ⟨p, prime, divides, -⟩
  exact prime.one_lt.ne' (Nat.dvd_one.mp divides)

theorem adds_prime {rep : ℕ → α} {n : ℕ} (prime : n.Prime) (before : List α) :
    AddsPrimeDivisors rep n before (before.insert (rep n)) := by
  intro x
  rw [List.mem_insert_iff]
  constructor
  · rintro (rfl | member)
    · exact .inr ⟨n, prime, dvd_rfl, rfl⟩
    · exact .inl member
  · rintro (member | ⟨p, hp, divides, rfl⟩)
    · exact .inr member
    · rw [(Nat.prime_dvd_prime_iff_eq hp prime).mp divides]
      exact .inl rfl

omit [DecidableEq α] in
theorem adds_mul {rep : ℕ → α} {d e : ℕ} {before between after : List α} (first : AddsPrimeDivisors rep d before between)
    (second : AddsPrimeDivisors rep e between after) : AddsPrimeDivisors rep (d * e) before after := by
  intro x
  rw [second x, first x, or_assoc]
  refine or_congr_right ⟨?_, ?_⟩
  · rintro (⟨p, prime, divides, rfl⟩ | ⟨p, prime, divides, rfl⟩)
    · exact ⟨p, prime, divides.mul_right e, rfl⟩
    · exact ⟨p, prime, divides.mul_left d, rfl⟩
  · rintro ⟨p, prime, divides, rfl⟩
    exact (prime.dvd_mul.mp divides).imp (fun left => ⟨p, prime, left, rfl⟩) fun right => ⟨p, prime, right, rfl⟩

section Run
variable {I} {rep : ℕ → α} {fits : ℕ → Prop} (laws : I.Lawful rep fits) {stream : ℕ → ℕ} {N : ℕ}
  (modular : ∀ m, 2 ≤ m → m ≤ N → I.Modular rep fits m) (stays : ∀ m, 2 ≤ m → m ≤ N → I.Stays rep fits m)
include laws modular stays

theorem primeFactorize_ended {fuel : ℕ} {n : ℕ} (pos : 0 < n) (le : n ≤ N) (hN : fits N) {before : List α} {position : ℕ}
    (rejects : RejectsComposites I rep stream (rep n) position) {r : Except Fault (List α × ℕ)}
    (run : primeFactorize I stream fuel (rep n) before position = ended r) :
    ∃ after last, r = .ok (after, last) ∧ AddsPrimeDivisors rep n before after := by
  induction fuel generalizing n before position r with
  | zero => exact absurd run (exhausted_ne r)
  | succ fuel ih =>
    have hn : fits n := laws.below le hN
    unfold primeFactorize at run
    simp only [zeroOrOne_eq laws hn, lift_eq, ok_bind, decide_eq_true_eq] at run
    by_cases one : n = 0 ∨ n = 1
    · rw [if_pos one] at run
      obtain rfl : n = 1 := by omega
      exact ⟨before, position, (ended_inj.mp run).symm, adds_one rep before⟩
    rw [if_neg one] at run
    have more : zeroOrOne I (rep n) = .ok false := by rw [zeroOrOne_eq laws hn, decide_eq_false one]
    have two : 2 ≤ n := by omega
    obtain ⟨⟨prime, tested⟩, answers⟩ := millerRabin_settles laws (modular n two le) defaultIterations stream position
    rcases bind_ended run with ⟨answer, test, rest⟩ | ⟨e, test, -⟩
    · cases answers.only fuel _ test
      cases prime with
      | true =>
        have isPrime : n.Prime := by
          by_contra composite
          exact rejects n position (.here _ more) two composite fuel tested test
        exact ⟨_, _, (ended_inj.mp rest).symm, adds_prime isPrime before⟩
      | false =>
        dsimp only at rest
        rw [if_neg Bool.false_ne_true] at rest
        rcases bind_ended rest with ⟨⟨divisor, found⟩, split, rest⟩ | ⟨e, split, -⟩
        · obtain ⟨d, found', same, divides, proper⟩ := pollardRho_ended laws hn pos (stays n two le) split
          cases same
          have posD : 0 < d := Nat.pos_of_dvd_of_pos divides pos
          have leD : d ≤ n := Nat.le_of_dvd pos divides
          rcases bind_ended rest with ⟨⟨between, done⟩, first, rest⟩ | ⟨e, first, -⟩
          · obtain ⟨between', done', same, left⟩ := ih posD (leD.trans le) (fun c at_c meets => rejects c at_c (.divisor more test split meets)) first
            cases same
            rw [laws.dividedBy posD leD hn] at rest
            obtain ⟨after, last, same, right⟩ := ih (Nat.div_pos leD posD) ((Nat.div_le_self n d).trans le)
              (fun c at_c meets => rejects c at_c (.cofactor more test split first (laws.dividedBy posD leD hn) meets)) rest
            refine ⟨after, last, same, ?_⟩
            have product := adds_mul left right
            rwa [Nat.mul_div_cancel' divides] at product
          · obtain ⟨_, _, same, -⟩ := ih posD (leD.trans le) (fun c at_c meets => rejects c at_c (.divisor more test split meets)) first
            cases same
        · obtain ⟨_, _, same, -⟩ := pollardRho_ended laws hn pos (stays n two le) split
          cases same
    · cases answers.only fuel _ test

omit modular [DecidableEq α] in
theorem split_ok (hN : fits N) {n : ℕ} (pos : 0 < n) (le : n ≤ N) (more : zeroOrOne I (rep n) = .ok false) {tested found fuel : ℕ}
    {divisor : α} (split : pollardRhoFactorization I fuel (rep n) stream tested = ended (.ok (divisor, found))) :
    ∃ d, divisor = rep d ∧ d ∣ n ∧ 0 < d ∧ d ≤ n := by
  have hn : fits n := laws.below le hN
  rw [zeroOrOne_eq laws hn] at more
  have apart := of_decide_eq_false (Except.ok.inj more)
  obtain ⟨d, last, result, divides, -⟩ := pollardRho_ended laws hn pos (stays n (by omega) le) split
  cases result
  exact ⟨d, rfl, divides, Nat.pos_of_dvd_of_pos divides pos, Nat.le_of_dvd pos divides⟩

omit modular in
theorem Meets.dvd {x y : α} {position at_c : ℕ} (meets : Meets I stream x position y at_c) (hN : fits N)
    {n : ℕ} (same : x = rep n) (pos : 0 < n) (le : n ≤ N) : ∃ c, y = rep c ∧ c ∣ n ∧ 1 < c := by
  induction meets generalizing n with
  | here position more =>
    subst same
    rw [zeroOrOne_eq laws (laws.below le hN)] at more
    have := of_decide_eq_false (Except.ok.inj more)
    exact ⟨n, rfl, dvd_rfl, by omega⟩
  | divisor more composite split later ih =>
    subst same
    obtain ⟨d, result, divides, posD, leD⟩ := split_ok laws stays hN pos le more split
    obtain ⟨c, met, under, large⟩ := ih result posD (leD.trans le)
    exact ⟨c, met, under.trans divides, large⟩
  | cofactor more composite split first divided later ih =>
    subst same
    obtain ⟨d, rfl, divides, posD, leD⟩ := split_ok laws stays hN pos le more split
    rw [laws.dividedBy posD leD (laws.below le hN)] at divided
    obtain ⟨c, met, under, large⟩ := ih (Except.ok.inj divided).symm (Nat.div_pos leD posD) ((Nat.div_le_self n d).trans le)
    exact ⟨c, met, under.trans (Nat.div_dvd_of_dvd divides), large⟩

end Run

/-- The test accepts every prime of a range, and the factorization of a number of the range adds the prime divisors. -/
structure Complete (I : IntType α) (rep : ℕ → α) (range : ℕ → Prop) : Prop where
  accepts : ∀ p, range p → p.Prime → ∀ niter stream position, ∃ last,
    Ends (fun fuel => millerRabinPrimalityTest I fuel (rep p) niter stream position) (.ok (true, last))
  factors : ∀ n, range n → 0 < n → ∀ stream position primeFactors, RejectsComposites I rep stream (rep n) position →
    ∀ fuel r, primeFactorize I stream fuel (rep n) primeFactors position = ended r →
      ∃ all last, r = .ok (all, last) ∧ AddsPrimeDivisors rep n primeFactors all

theorem tests_and_factors : (∀ w : NativeSize, Complete (.native w) id (· < 2 ^ w.bits)) ∧
    ∀ l : LimbT, Complete (.dynamic l) (Ubint.stored l) fun n => (n * n).size < 2 ^ 32 := by
  constructor
  · intro w
    have laws := IntType.native_lawful w
    constructor
    · intro p word prime niter stream position
      obtain ⟨last, settles⟩ := millerRabin_prime laws (IntType.native_modular prime.two_le word) niter stream position prime
      exact ⟨last, settles.ends⟩
    · intro n word pos stream position primeFactors rejects fuel r run
      apply primeFactorize_ended laws (N := n) ?_ ?_ pos le_rfl word rejects run
      · intro m two le
        exact IntType.native_modular two (le.trans_lt word)
      · intro m two _
        exact IntType.native_stays two
  · intro l
    have laws := IntType.dynamic_lawful l
    constructor
    · intro p square prime niter stream position
      obtain ⟨last, settles⟩ := millerRabin_prime laws (IntType.dynamic_modular prime.two_le square) niter stream position prime
      exact ⟨last, settles.ends⟩
    · intro n square pos stream position primeFactors rejects fuel r run
      have fits : ∀ m ≤ n, (m * m).size < 2 ^ 32 := fun m le => Ubint.fits_of_le (Nat.mul_le_mul le le) square
      apply primeFactorize_ended laws (N := n) ?_ ?_ pos le_rfl (Ubint.fits_of_le (Nat.le_mul_of_pos_left n pos) square) rejects run
      · intro m two le
        exact IntType.dynamic_modular two (fits m le)
      · intro m two le
        exact IntType.dynamic_stays two (fits m le)

/-- No base makes fifteen look prime. -/
theorem fifteen_rejected (stream : ℕ → ℕ) (position : ℕ) : RejectsComposites (.native .w64) id stream 15 position := by
  have laws := IntType.native_lawful .w64
  have modular : ∀ m, 2 ≤ m → m ≤ 15 → (IntType.native .w64).Modular id (· < 2 ^ NativeSize.w64.bits) m := fun m two le =>
    IntType.native_modular two (le.trans_lt (by decide))
  have bases : ∀ a < 12, witnessFunction (.native .w64) (a + 2) 7 1 15 = .ok true := by decide +kernel
  intro c at_c meets two composite fuel tested test
  obtain ⟨_, rfl, divides, more⟩ := meets.dvd laws (N := 15) (fun m two _ => IntType.native_stays two) (by decide) (n := 15) rfl
    (by decide) le_rfl
  dsimp only [id] at divides
  have le : c ≤ 15 := Nat.le_of_dvd (by decide) divides
  obtain rfl : c = 15 := by
    interval_cases c <;> revert divides composite <;> decide
  have first : testBases (.native .w64) stream 15 7 1 defaultIterations at_c = .ok (false, at_c + 1) := by
    have step := testBases_succ laws (modular 15 (by decide) le_rfl) (by decide) stream (d := 7) (s := 1) 99 at_c
    dsimp only [id] at step
    rw [bases _ (Nat.mod_lt _ (by decide))] at step
    exact step
  have settles := test_settles laws (modular 15 (by decide) le_rfl) (d := 7) (s := 1) defaultIterations stream at_c (by decide)
    (by decide) (by decide) (by decide) first
  cases settles.only fuel _ test

theorem fifteen_factorized :
    (primeFactorize (.native .w64) id 20 15 [] 0).run = some (.ok ([5, 3], 3)) ∧ AddsPrimeDivisors id 15 [] [5, 3] := by
  have run : (primeFactorize (.native .w64) id 20 15 [] 0).run = some (.ok ([5, 3], 3)) := by decide +kernel
  obtain ⟨all, last, same, adds⟩ := (tests_and_factors.1 .w64).factors 15 (by decide) (by decide) id 0 []
    (fifteen_rejected id 0) 20 _ run
  cases same
  exact ⟨run, adds⟩

end MultiKeyFHE.NbTheory
