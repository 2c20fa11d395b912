import MultiKeyFHE.Library.Horner
import MultiKeyFHE.Library.Substitution

/-!
# The size of negacyclic products

How large the centered coefficients of sums, products and substitutions can get, and what a run adds up to whose steps are
each near an additive map that keeps sizes.
-/

namespace Negacyclic.NegPoly

variable {N Q : ℕ}

theorem natAbs_valMinAbs_intCast_le [NeZero Q] (x : ℤ) : (x : ZMod Q).valMinAbs.natAbs ≤ x.natAbs :=
  ZMod.natAbs_min_of_le_div_two _ _ _ (by simp) (ZMod.natAbs_valMinAbs_le _)

/-- A coefficient that comes from a small integer is small. -/
theorem bounded_of_intCast [NeZero Q] {δ : ℝ} {a : NegPoly N (ZMod Q)}
    (small : ∀ i, ∃ x : ℤ, (x : ZMod Q) = a.coeff i ∧ (x.natAbs : ℝ) ≤ δ) : Bounded δ a := by
  intro i
  obtain ⟨x, value, le⟩ := small i
  rw [← value]
  exact (Nat.cast_le.mpr (natAbs_valMinAbs_intCast_le x)).trans le

theorem Bounded.mono {δ ε : ℝ} {a : NegPoly N (ZMod Q)} (ha : Bounded δ a) (le : δ ≤ ε) : Bounded ε a := fun i => (ha i).trans le

theorem Bounded.nonneg [NeZero N] {δ : ℝ} {a : NegPoly N (ZMod Q)} (ha : Bounded δ a) : 0 ≤ δ := (Nat.cast_nonneg _).trans (ha 0)

section Sizes
variable [NeZero Q] {δ ε : ℝ} {a b : NegPoly N (ZMod Q)}

theorem Bounded.sub (ha : Bounded δ a) (hb : Bounded ε b) : Bounded (δ + ε) (a - b) := by
  have difference : a - b = a + -b := by
    ext i
    exact sub_eq_add_neg _ _
  rw [difference]
  exact ha.add hb.neg

theorem Bounded.sum [NeZero N] {ι : Type*} (s : Finset ι) {δ : ι → ℝ} {f : ι → NegPoly N (ZMod Q)}
    (each : ∀ t ∈ s, Bounded (δ t) (f t)) : Bounded (∑ t ∈ s, δ t) (∑ t ∈ s, f t) := by
  classical
  induction s using Finset.induction_on with
  | empty => exact bounded_zero
  | insert t s fresh ih =>
    rw [Finset.sum_insert fresh, Finset.sum_insert fresh]
    exact (each t (Finset.mem_insert_self t s)).add (ih fun t' member => each t' (Finset.mem_insert_of_mem member))

theorem Bounded.sum_fin [NeZero N] {n : ℕ} {f : Fin n → NegPoly N (ZMod Q)} (each : ∀ l, Bounded δ (f l)) :
    Bounded (n * δ) (∑ l, f l) := by
  have total := Bounded.sum Finset.univ fun l _ => each l
  rwa [Finset.sum_const, Finset.card_univ, Fintype.card_fin, nsmul_eq_mul] at total

/-- Every coefficient of a product is a signed sum of `N` products. -/
theorem Bounded.mul [NeZero N] (ha : Bounded δ a) (hb : Bounded ε b) : Bounded (N * (δ * ε)) (a * b) := by
  refine bounded_of_intCast fun k => ?_
  let term : Fin N → ℤ := fun i => (a.coeff i).valMinAbs * (b.coeff (k - i)).valMinAbs
  refine ⟨∑ i, if i ≤ k then term i else -term i, ?_, ?_⟩
  · rw [coeff_mul, Int.cast_sum]
    refine Finset.sum_congr rfl fun i _ => ?_
    have value : ((term i : ℤ) : ZMod Q) = a.coeff i * b.coeff (k - i) := by
      rw [Int.cast_mul, ZMod.coe_valMinAbs, ZMod.coe_valMinAbs]
    split
    · exact value
    · rw [Int.cast_neg, value]
  · have each : ∀ i, ((if i ≤ k then term i else -term i).natAbs : ℝ) ≤ δ * ε := by
      intro i
      have size : (if i ≤ k then term i else -term i).natAbs = (term i).natAbs := by
        split
        · rfl
        · exact Int.natAbs_neg _
      rw [size, Int.natAbs_mul, Nat.cast_mul]
      exact mul_le_mul (ha i) (hb (k - i)) (Nat.cast_nonneg _) ha.nonneg
    calc ((∑ i, if i ≤ k then term i else -term i).natAbs : ℝ)
        ≤ (∑ i, (if i ≤ k then term i else -term i).natAbs : ℕ) := by exact_mod_cast Int.natAbs_sum_le _ _
      _ = ∑ i, ((if i ≤ k then term i else -term i).natAbs : ℝ) := Nat.cast_sum _ _
      _ ≤ ∑ _i : Fin N, δ * ε := Finset.sum_le_sum fun i _ => each i
      _ = N * (δ * ε) := by rw [Finset.sum_const, Finset.card_univ, Fintype.card_fin, nsmul_eq_mul]

end Sizes

theorem Bounded.xpow_mul [NeZero N] {δ : ℝ} {a : NegPoly N (ZMod Q)} (ha : Bounded δ a) (z : ℤ) : Bounded δ (xpow z * a) := by
  rw [mul_comm]
  exact ha.mul_xpow z

theorem bounded_one [NeZero N] [NeZero Q] : Bounded 1 (1 : NegPoly N (ZMod Q)) := by
  refine bounded_of_intCast fun i => ⟨if i.val = 0 then 1 else 0, ?_, ?_⟩
  · rw [coeff_one]
    split <;> simp
  · split <;> simp

theorem bounded_xpow [NeZero N] [NeZero Q] (z : ℤ) : Bounded 1 (xpow z : NegPoly N (ZMod Q)) := by
  have turned := (bounded_one (N := N) (Q := Q)).mul_xpow z
  rwa [one_mul] at turned

/-- The error of a rotation is carried on, and the next rotation adds its own. -/
theorem Bounded.rotate [NeZero N] [NeZero Q] {δ ε : ℝ} {now next target : NegPoly N (ZMod Q)} {y : ℤ}
    (near : Bounded ε (now - target)) (step : Bounded δ (next - now * xpow y)) : Bounded (ε + δ) (next - target * xpow y) := by
  have split : next - target * xpow y = (now - target) * xpow y + (next - now * xpow y) := by ring
  rw [split]
  exact (near.mul_xpow y).add step

/-- A substitution that moves the coefficients to different places keeps their sizes. -/
theorem Bounded.substPow [NeZero N] {δ : ℝ} {a : NegPoly N (ZMod Q)} (ha : Bounded δ a) {k : ℕ} (coprime : k.Coprime N) :
    Bounded δ (substPow k a) := by
  have injective : ∀ i < N, ∀ j < N, i * k % N = j * k % N → i = j := by
    intro i hi j hj same
    have cancel := Nat.ModEq.cancel_right_of_coprime (m := N) (coprime.symm) same
    exact Nat.ModEq.eq_of_lt_of_lt cancel hi hj
  let place : Fin N → Fin N := fun j => ⟨j.val * k % N, Nat.mod_lt _ (NeZero.pos N)⟩
  have onto : Function.Surjective place := Finite.surjective_of_injective fun i j same =>
    Fin.ext (injective i i.2 j j.2 (congrArg Fin.val same))
  intro i
  obtain ⟨j, rfl⟩ := onto i
  rw [coeff_substPow injective a j rfl]
  rcases neg_one_pow_eq_or (ZMod Q) (j.val * k / N) with even | odd
  · rw [even, one_mul]
    exact ha j
  · rw [odd, neg_one_mul, ZMod.natAbs_valMinAbs_neg]
    exact ha j

/-! ### Integer coefficients -/

/-- No coefficient is further from zero than `δ`. -/
def Within (δ : ℚ) (a : NegPoly N ℤ) : Prop := ∀ i, |(a.coeff i : ℚ)| ≤ δ

instance (δ : ℚ) (a : NegPoly N ℤ) : Decidable (Within δ a) := inferInstanceAs (Decidable (∀ _, _))

/-- The sum of the absolute values of the coefficients. -/
def weight (a : NegPoly N ℤ) : ℚ := ∑ i, |(a.coeff i : ℚ)|

theorem weight_nonneg (a : NegPoly N ℤ) : 0 ≤ weight a := Finset.sum_nonneg fun _ _ => abs_nonneg _

section Integers
variable {δ ε : ℚ} {a b : NegPoly N ℤ}

theorem Within.mono (ha : Within δ a) (le : δ ≤ ε) : Within ε a := fun i => (ha i).trans le

theorem Within.nonneg [NeZero N] (ha : Within δ a) : 0 ≤ δ := (abs_nonneg _).trans (ha 0)

theorem within_zero (nonneg : 0 ≤ δ) : Within δ (0 : NegPoly N ℤ) := fun i => by simpa using nonneg

theorem Within.natAbs_le {q : ℕ} (ha : Within δ a) (le : δ ≤ q) (i : Fin N) : (a.coeff i).natAbs ≤ q := by
  have bound := (ha i).trans le
  rw [← Int.cast_abs, Int.abs_eq_natAbs, Int.cast_natCast] at bound
  exact_mod_cast bound

theorem Within.add (ha : Within δ a) (hb : Within ε b) : Within (δ + ε) (a + b) := by
  intro i
  rw [coeff_add, Int.cast_add]
  exact (abs_add_le _ _).trans (add_le_add (ha i) (hb i))

theorem Within.sub (ha : Within δ a) (hb : Within ε b) : Within (δ + ε) (a - b) := by
  intro i
  rw [coeff_sub, Int.cast_sub]
  exact (abs_sub _ _).trans (add_le_add (ha i) (hb i))

theorem Within.weight_le (ha : Within δ a) : weight a ≤ N * δ := by
  calc weight a ≤ ∑ _i : Fin N, δ := Finset.sum_le_sum fun i _ => ha i
    _ = N * δ := by simp

/-- Every coefficient of a product is a signed sum of one product for each coefficient of the first factor. -/
theorem Within.weight_mul [NeZero N] (hb : Within ε b) : Within (weight a * ε) (a * b) := by
  intro k
  rw [coeff_mul, Int.cast_sum, weight, Finset.sum_mul]
  refine (Finset.abs_sum_le_sum_abs _ _).trans (Finset.sum_le_sum fun i _ => ?_)
  have each : |((a.coeff i * b.coeff (k - i) : ℤ) : ℚ)| ≤ |(a.coeff i : ℚ)| * ε := by
    rw [Int.cast_mul, abs_mul]
    exact mul_le_mul_of_nonneg_left (hb (k - i)) (abs_nonneg _)
  split
  · exact each
  · rw [Int.cast_neg, abs_neg]
    exact each

theorem Within.mul [NeZero N] (ha : Within δ a) (hb : Within ε b) : Within (N * (δ * ε)) (a * b) := by
  refine hb.weight_mul.mono ?_
  rw [← mul_assoc]
  exact mul_le_mul_of_nonneg_right ha.weight_le hb.nonneg

theorem Within.const_mul [NeZero N] {c : ℕ} (ha : Within δ a) : Within (c * δ) (const (c : ℤ) * a) := by
  intro i
  rw [coeff_const_mul, Int.cast_mul, abs_mul, Int.cast_natCast, Nat.abs_cast]
  exact mul_le_mul_of_nonneg_left (ha i) (Nat.cast_nonneg c)

/-- The value of a polynomial with small coefficients. -/
theorem Within.value [NeZero N] {s : NegPoly N ℤ} {l : List (NegPoly N ℤ)} (each : ∀ x ∈ l, Within δ x) :
    Within ((∑ k ∈ Finset.range l.length, weight s ^ k) * δ) (Horner.value s l) := by
  induction l with
  | nil => exact within_zero (by simp)
  | cons x l ih =>
    have rest := (ih fun y member => each y (List.mem_cons_of_mem x member)).weight_mul (a := s)
    refine ((each x List.mem_cons_self).add rest).mono (le_of_eq ?_)
    rw [List.length_cons, geom_sum_succ]
    ring

end Integers

end Negacyclic.NegPoly

/-! ### Runs near an additive map -/

namespace Drift
open Negacyclic NegPoly

variable {ε α σ M : Type} [AddCommGroup M] {B : ℝ → M → Prop} {phase : σ → M} {act : α → M →+ M} {cost : α → ℝ}
  {f : σ → α → Except ε σ}

variable (act) in
theorem foldl_add (l : List α) (a b : M) :
    l.foldl (fun a x => act x a) (a + b) = l.foldl (fun a x => act x a) a + l.foldl (fun a x => act x a) b := by
  induction l generalizing a b with
  | nil => rfl
  | cons x l ih => rw [List.foldl_cons, List.foldl_cons, List.foldl_cons, map_add, ih]

theorem foldl_keeps {l : List α} (keeps : ∀ x ∈ l, ∀ {δ a}, B δ a → B δ (act x a)) {δ : ℝ} {a : M} (h : B δ a) :
    B δ (l.foldl (fun a x => act x a) a) := by
  induction l generalizing a with
  | nil => exact h
  | cons x l ih => exact ih (fun y member => keeps y (List.mem_cons_of_mem x member)) (keeps x List.mem_cons_self h)

variable (phase act cost) in
/-- The errors of the steps add up, since what follows keeps their sizes. -/
theorem foldlM_near (zero : B 0 0) (add : ∀ {δ δ' a b}, B δ a → B δ' b → B (δ + δ') (a + b)) {l : List α}
    (keeps : ∀ x ∈ l, ∀ {δ a}, B δ a → B δ (act x a))
    (step : ∀ x ∈ l, ∀ s, ∃ t, f s x = .ok t ∧ B (cost x) (phase t - act x (phase s))) (s : σ) :
    ∃ t, l.foldlM f s = .ok t ∧ B (l.map cost).sum (phase t - l.foldl (fun a x => act x a) (phase s)) := by
  induction l generalizing s with
  | nil => exact ⟨s, rfl, by simpa using zero⟩
  | cons x l ih =>
    obtain ⟨t, once, near⟩ := step x List.mem_cons_self s
    have rest : ∀ y ∈ l, ∀ {δ a}, B δ a → B δ (act y a) := fun y member => keeps y (List.mem_cons_of_mem x member)
    obtain ⟨u, run, drift⟩ := ih rest (fun y member => step y (List.mem_cons_of_mem x member)) t
    refine ⟨u, ?_, ?_⟩
    · rw [List.foldlM_cons, once]
      exact run
    · have split := foldl_add act l (act x (phase s)) (phase t - act x (phase s))
      rw [add_sub_cancel] at split
      rw [List.map_cons, List.sum_cons, List.foldl_cons]
      convert add (foldl_keeps rest near) drift using 1
      rw [split]
      abel

section Rotations
variable {N Q : ℕ} [NeZero N] [NeZero Q] {size : ℝ} {held : σ → NegPoly N (ZMod Q)} {y : α → ℤ} {l : List α}

theorem foldlM_rotations (step : ∀ x ∈ l, ∀ s, ∃ t, f s x = .ok t ∧ Bounded size (held t - held s * xpow (y x))) (s : σ) :
    ∃ t, l.foldlM f s = .ok t ∧ Bounded (l.length * size) (held t - held s * (l.map fun x => xpow (y x)).prod) := by
  have run : ∀ (l : List α) (P : NegPoly N (ZMod Q)),
      l.foldl (fun P x => AddMonoidHom.mulRight (xpow (y x)) P) P = P * (l.map fun x => xpow (y x)).prod := by
    intro l
    induction l with
    | nil => simp
    | cons x l ih =>
      intro P
      rw [List.foldl_cons, ih, List.map_cons, List.prod_cons, AddMonoidHom.mulRight_apply, mul_assoc]
  obtain ⟨t, runs, near⟩ := foldlM_near held (fun x => AddMonoidHom.mulRight (xpow (y x))) (fun _ => size) bounded_zero (fun h h' => h.add h') (fun x _ _ _ h => h.mul_xpow (y x)) step s
  refine ⟨t, runs, ?_⟩
  rw [run] at near
  simpa using near

/-- The same for steps that cannot fail. -/
theorem foldl_rotations {f : σ → α → σ} (step : ∀ x ∈ l, ∀ s, Bounded size (held (f s x) - held s * xpow (y x))) (s : σ) :
    Bounded (l.length * size) (held (l.foldl f s) - held s * (l.map fun x => xpow (y x)).prod) := by
  obtain ⟨t, run, near⟩ := foldlM_rotations (ε := Unit) (f := fun s x => .ok (f s x)) (fun x member s => ⟨_, rfl, step x member s⟩) s
  have pure_run : ∀ (l : List α) (s : σ), l.foldlM (fun s x => (.ok (f s x) : Except Unit σ)) s = .ok (l.foldl f s) := by
    intro l
    induction l with
    | nil => exact fun _ => rfl
    | cons x l ih => exact fun s => ih (f s x)
  obtain rfl := Except.ok.inj ((pure_run l s).symm.trans run)
  exact near

end Rotations

end Drift
