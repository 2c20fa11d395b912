import Mathlib.Algebra.Polynomial.Div
import Mathlib.Data.List.GetD
import MultiKeyFHE.Library.InPlace

/-!
# Schoolbook polynomial arithmetic

Arrays of coefficients, the constant one first. A product adds up in the cells of the result. A division by a monic divisor
keeps the dividend at the top of its array: a run takes a multiple of the divisor off and moves what is left up by one cell,
over the leading coefficient. The steps on coefficients can fail; the rules speak about the runs that get through.
-/

namespace Schoolbook
open InPlace Polynomial

section Loops
variable {ε α : Type} (fault : ε) (step : α → α → α → Except ε α)

/-- `result[i + j]` becomes `step result[i + j] a[i] b[j]`. -/
def accumulate (a b result : List α) : Except ε (List α) :=
  (List.range a.length).foldlM (fun result i =>
    (List.range b.length).foldlM (fun result j => do
      let x ← load fault a i
      let y ← load fault b j
      let c ← load fault result (i + j)
      let c ← step c x y
      store fault result (i + j) c) result) result

/-- Run number `i`. Where the divisor reaches, the coefficient that moves up becomes `step` of it, of the coefficient of the
divisor, and of the leading one. -/
def shiftRun (divisor dividend : List α) (i : ℕ) : Except ε (List α) := do
  let top ← load fault dividend (dividend.length - 1)
  (List.range (dividend.length - i - 1)).foldlM (fun cells j => do
    let x ← load fault cells (dividend.length - 2 - j)
    let x ← if j < divisor.length - 1 then do
        let d ← load fault divisor (divisor.length - 2 - j)
        step x d top
      else pure x
    store fault cells (dividend.length - 1 - j) x) dividend

end Loops

section Rules
variable {ε α : Type} [Zero α] {fault : ε} {step : α → α → α → Except ε α}

theorem getD_set {v : List α} {i : ℕ} (h : i < v.length) (a : α) (k : ℕ) :
    (v.set i a).getD k 0 = if k = i then a else v.getD k 0 := by
  by_cases same : k = i
  · rw [if_pos same, same, List.getD_eq_getElem _ _ (by simpa using h), List.getElem_set_self]
  · rw [if_neg same, List.getD_eq_getElem?_getD, List.getD_eq_getElem?_getD, List.getElem?_set_ne fun e => same e.symm]

theorem getD_mem {v : List α} {k : ℕ} (h : k < v.length) : v.getD k 0 ∈ v := by
  rw [List.getD_eq_getElem _ _ h]
  exact List.getElem_mem h

theorem getD_zeros (n k : ℕ) : (List.replicate n (0 : α)).getD k 0 = 0 := by
  rcases Nat.lt_or_ge k n with inside | outside
  · exact List.eq_of_mem_replicate (getD_mem (by simpa using inside))
  · exact List.getD_eq_default _ _ (by simpa using outside)

/-! ### The product -/

section Product
variable {K : Type*} [AddCommMonoid K] {P : α → Prop} {R : α → K} {T : α → α → K}

/-- The cells after some of the steps: each has got its terms. -/
structure Accumulated (P : α → Prop) (R : α → K) (start : List α) (terms : ℕ → K) (out : List α) : Prop where
  length : out.length = start.length
  good : ∀ c ∈ out, P c
  value : ∀ k, R (out.getD k 0) = R (start.getD k 0) + terms k

variable (fault) in
theorem Accumulated.store {start cells : List α} {terms : ℕ → K} (now : Accumulated P R start terms cells) {i : ℕ}
    (h : i < cells.length) {c : α} {term : K} (good : P c) (value : R c = R cells[i] + term) :
    ∃ cells', InPlace.store fault cells i c = .ok cells' ∧
      Accumulated P R start (fun k => terms k + if i = k then term else 0) cells' := by
  refine ⟨cells.set i c, store_ok fault h c, by rw [List.length_set, now.length], ?_, fun k => ?_⟩
  · intro z hz
    rcases List.mem_or_eq_of_mem_set hz with hz | rfl
    · exact now.good z hz
    · exact good
  · have before := now.value k
    rw [getD_set h, ← add_assoc]
    by_cases same : k = i
    · subst same
      rw [if_pos rfl, if_pos rfl, value, ← before, List.getD_eq_getElem _ _ h]
    · rw [if_neg same, if_neg (Ne.symm same), add_zero, before]

variable (fault) in
theorem accumulate_ends {E : ε → Prop}
    (law : ∀ c x y, P c → P x → P y → Run.Ends (step c x y) (fun c' => P c' ∧ R c' = R c + T x y) E)
    {a b result : List α} (ha : ∀ x ∈ a, P x) (hb : ∀ y ∈ b, P y) (good : ∀ c ∈ result, P c)
    (room : a.length + b.length ≤ result.length + 1) :
    Run.Ends (accumulate fault step a b result)
      (Accumulated P R result fun k => ∑ i ∈ Finset.range a.length, ∑ j ∈ Finset.range b.length,
        if i + j = k then T (a.getD i 0) (b.getD j 0) else 0) E := by
  refine Run.foldlM_range_ends (fun n => Accumulated P R result fun k => ∑ i ∈ Finset.range n,
    ∑ j ∈ Finset.range b.length, if i + j = k then T (a.getD i 0) (b.getD j 0) else 0) ⟨rfl, good, fun k => by simp⟩ ?_
  intro i hi before now
  refine (Run.foldlM_range_ends (fun c => Accumulated P R result fun k =>
    (∑ i ∈ Finset.range i, ∑ j ∈ Finset.range b.length, if i + j = k then T (a.getD i 0) (b.getD j 0) else 0) +
      ∑ j ∈ Finset.range c, if i + j = k then T (a.getD i 0) (b.getD j 0) else 0)
    ⟨now.length, now.good, fun k => by simpa using now.value k⟩ ?_).mono fun cells last =>
      ⟨last.length, last.good, fun k => by rw [last.value, Finset.sum_range_succ _ i]⟩
  intro j hj cells now
  have inside : i + j < cells.length := by
    rw [now.length]
    omega
  refine (load_ends fault hi).bind ?_
  rintro _ rfl
  refine (load_ends fault hj).bind ?_
  rintro _ rfl
  refine (load_ends fault inside).bind ?_
  rintro _ rfl
  refine (law _ _ _ (now.good _ (List.getElem_mem inside)) (ha _ (List.getElem_mem hi)) (hb _ (List.getElem_mem hj))).bind ?_
  rintro c ⟨admitted, value⟩
  obtain ⟨cells', run, next⟩ := now.store fault inside admitted value
  rw [run]
  refine Run.Ends.ok ⟨next.length, next.good, fun k => ?_⟩
  rw [next.value, Finset.sum_range_succ _ j, List.getD_eq_getElem _ _ hi, List.getD_eq_getElem _ _ hj, add_assoc]

omit [Zero α] in
/-- A result that is too short has no cell for the last term. -/
theorem accumulate_room {a b result out : List α} (run : accumulate fault step a b result = .ok out) (some : 0 < a.length)
    (some' : 0 < b.length) : a.length + b.length ≤ result.length + 1 := by
  have cell : ∀ i j (cells cells' : List α), (do
      let x ← load fault a i
      let y ← load fault b j
      let c ← load fault cells (i + j)
      let c ← step c x y
      store fault cells (i + j) c) = .ok cells' → i + j < cells.length ∧ cells'.length = cells.length := by
    intro i j cells cells' run
    obtain ⟨x, -, run⟩ := Run.bind_ok run
    obtain ⟨y, -, run⟩ := Run.bind_ok run
    obtain ⟨c, -, run⟩ := Run.bind_ok run
    obtain ⟨c', -, run⟩ := Run.bind_ok run
    obtain ⟨inside, rfl⟩ := store_inv run
    exact ⟨inside, List.length_set⟩
  have keeps : ∀ i j (cells cells' : List α), cells.length = result.length → _ → cells'.length = result.length :=
    fun i j cells cells' now run => (cell i j cells cells' run).2.trans now
  obtain ⟨before, after, now, row⟩ := foldlM_range_step (fun cells => cells.length = result.length)
    (show a.length - 1 < a.length by omega) run rfl fun i cells cells' now row =>
      foldlM_range_inv (fun _ cells => cells.length = result.length) row now fun j _ => keeps i j
  obtain ⟨cells, cells', now, last⟩ := foldlM_range_step (fun cells => cells.length = result.length)
    (show b.length - 1 < b.length by omega) row now fun j => keeps _ j
  have inside := (cell _ _ _ _ last).1
  omega

/-- The terms of one cell, over the pairs of indices that have its sum. -/
theorem sum_pairs (left : ∀ y, T 0 y = 0) (right : ∀ x, T x 0 = 0) (a b : List α) (k : ℕ) :
    (∑ i ∈ Finset.range a.length, ∑ j ∈ Finset.range b.length, if i + j = k then T (a.getD i 0) (b.getD j 0) else 0) =
      ∑ p ∈ Finset.HasAntidiagonal.antidiagonal k, T (a.getD p.1 0) (b.getD p.2 0) := by
  rw [← Finset.sum_product', ← Finset.sum_filter]
  refine Finset.sum_subset ?_ ?_
  · intro p hp
    exact Finset.HasAntidiagonal.mem_antidiagonal.mpr (Finset.mem_filter.mp hp).2
  · intro p hp outside
    have sum := Finset.HasAntidiagonal.mem_antidiagonal.mp hp
    rcases Nat.lt_or_ge p.1 a.length with first | first
    · rcases Nat.lt_or_ge p.2 b.length with second | second
      · refine absurd (Finset.mem_filter.mpr ⟨Finset.mem_product.mpr ?_, sum⟩) outside
        exact ⟨Finset.mem_range.mpr first, Finset.mem_range.mpr second⟩
      · rw [List.getD_eq_default b _ second, right]
    · rw [List.getD_eq_default a _ first, left]

end Product

/-! ### The division -/

section Division

/-- What a run puts into cell `p`, from the cells before it. -/
def moved (step : α → α → α → Except ε α) (divisor cells : List α) (p : ℕ) : Except ε α :=
  if cells.length < p + divisor.length then
    step (cells.getD (p - 1) 0) (divisor.getD (p + divisor.length - 1 - cells.length) 0) (cells.getD (cells.length - 1) 0)
  else .ok (cells.getD (p - 1) 0)

/-- The cells after run `i`, of which those above `i` are new. -/
structure Shifted (Q : ℕ → α → Prop) (cells : List α) (i : ℕ) (out : List α) : Prop where
  length : out.length = cells.length
  below : ∀ p ≤ i, out.getD p 0 = cells.getD p 0
  above : ∀ p, i < p → p < cells.length → Q p (out.getD p 0)

variable (fault step) in
theorem shiftRun_ends {Q : ℕ → α → Prop} {E : ε → Prop} (divisor : List α) {cells : List α} {i : ℕ} (nonempty : 0 < cells.length)
    (each : ∀ p, i < p → p < cells.length → Run.Ends (moved step divisor cells p) (Q p) E) :
    Run.Ends (shiftRun fault step divisor cells i) (Shifted Q cells i) E := by
  have last : cells.length - 1 < cells.length := by omega
  refine (load_ends fault last).bind ?_
  rintro _ rfl
  refine (Run.foldlM_range_ends (fun n out => out.length = cells.length ∧ ∀ p < cells.length,
    if cells.length ≤ p + n then Q p (out.getD p 0) else out.getD p 0 = cells.getD p 0)
    ⟨rfl, fun p hp => by rw [if_neg (by omega)]⟩ ?_).mono ?_
  · rintro j hj out ⟨length, value⟩
    have source : cells.length - 2 - j < out.length := by omega
    have target : cells.length - 1 - j < out.length := by omega
    refine (load_ends fault source).bind ?_
    rintro _ rfl
    -- The cell below is still that of the dividend.
    have old : out[cells.length - 2 - j] = cells.getD (cells.length - 1 - j - 1) 0 := by
      have same := value (cells.length - 2 - j) (by omega)
      rw [if_neg (by omega), List.getD_eq_getElem _ _ source] at same
      rw [same, show cells.length - 2 - j = cells.length - 1 - j - 1 by omega]
    have next : ∀ x, Q (cells.length - 1 - j) x →
        Run.Ends (store fault out (cells.length - 1 - j) x) (fun out => out.length = cells.length ∧ ∀ p < cells.length,
          if cells.length ≤ p + (j + 1) then Q p (out.getD p 0) else out.getD p 0 = cells.getD p 0) E := by
      intro x hx
      rw [store_ok fault target]
      refine Run.Ends.ok ⟨by rw [List.length_set, length], fun p hp => ?_⟩
      rw [getD_set target]
      by_cases same : p = cells.length - 1 - j
      · rw [if_pos same, if_pos (by omega), same]
        exact hx
      · rw [if_neg same]
        have := value p hp
        by_cases done : cells.length ≤ p + j
        · rw [if_pos done] at this
          rwa [if_pos (by omega)]
        · rw [if_neg done] at this
          rwa [if_neg (by omega)]
    have cell := each (cells.length - 1 - j) (by omega) (by omega)
    by_cases reaches : j < divisor.length - 1
    · rw [if_pos reaches]
      refine (load_ends fault (show divisor.length - 2 - j < divisor.length by omega)).bind ?_
      rintro _ rfl
      have place : divisor.getD (cells.length - 1 - j + divisor.length - 1 - cells.length) 0 = divisor[divisor.length - 2 - j] := by
        rw [show cells.length - 1 - j + divisor.length - 1 - cells.length = divisor.length - 2 - j by omega,
          List.getD_eq_getElem]
      rw [moved, if_pos (by omega), ← old, place, List.getD_eq_getElem _ _ last] at cell
      exact cell.bind next
    · rw [if_neg reaches]
      rw [moved, if_neg (by omega), ← old] at cell
      exact cell.bind next
  · rintro out ⟨length, value⟩
    refine ⟨length, fun p hp => ?_, fun p above hp => ?_⟩
    · rcases Nat.lt_or_ge p cells.length with inside | outside
      · have := value p inside
        rw [if_neg (by omega)] at this
        exact this
      · rw [List.getD_eq_default _ _ outside, List.getD_eq_default _ _ (by omega)]
    · have := value p hp
      rwa [if_pos (by omega)] at this

end Division

/-! ### As polynomials -/

section Polynomials
variable {K : Type*} [CommRing K] {P : α → Prop} {R : α → K}

noncomputable def poly (R : α → K) (v : List α) : K[X] := ∑ k ∈ Finset.range v.length, C (R (v.getD k 0)) * X ^ k

theorem coeff_poly (zero : R 0 = 0) (v : List α) (k : ℕ) : (poly R v).coeff k = R (v.getD k 0) := by
  rw [poly, finsetSum_coeff]
  simp only [coeff_C_mul, coeff_X_pow, mul_ite, mul_one, mul_zero]
  rw [Finset.sum_ite_eq]
  split
  · rfl
  · rename_i outside
    rw [List.getD_eq_default _ _ (by simpa using outside), zero]

theorem degree_poly_lt (v : List α) : (poly R v).degree < v.length := by
  rw [poly, Finset.sum_range]
  exact degree_sum_fin_lt _

theorem degree_poly_of_monic [Nontrivial K] (zero : R 0 = 0) {v : List α} (nonempty : 0 < v.length)
    (monic : R (v.getD (v.length - 1) 0) = 1) : (poly R v).Monic ∧ (poly R v).degree = (v.length - 1 : ℕ) := by
  have top : (poly R v).coeff (v.length - 1) = 1 := by rw [coeff_poly zero, monic]
  have below : (poly R v).degree ≤ (v.length - 1 : ℕ) := by
    refine (degree_le_iff_coeff_zero _ _).mpr fun k above => ?_
    have outside : v.length - 1 < k := by exact_mod_cast above
    rw [coeff_poly zero, List.getD_eq_default _ _ (by omega), zero]
  exact ⟨monic_of_degree_le _ below top, le_antisymm below (le_degree_of_ne_zero (by rw [top]; exact one_ne_zero))⟩

theorem coeff_poly_mul (zero : R 0 = 0) (a b : List α) (k : ℕ) :
    (poly R a * poly R b).coeff k = ∑ p ∈ Finset.HasAntidiagonal.antidiagonal k, R (a.getD p.1 0) * R (b.getD p.2 0) := by
  rw [coeff_mul]
  exact Finset.sum_congr rfl fun p _ => by rw [coeff_poly zero, coeff_poly zero]

omit [Zero α] in
/-- A division without a remainder leaves what any division with a smaller remainder leaves. -/
theorem quotient_unique {f g q q' r : K[X]} (monic : g.Monic) (exact : f = q * g) (value : f = q' * g + r)
    (small : r.degree < g.degree) : q = q' := by
  have positive : (0 : K[X]).degree < g.degree := (bot_le.trans_lt small).trans_le' (by rw [degree_zero])
  have asked : f /ₘ g = q := (div_modByMonic_unique q 0 monic ⟨by rw [zero_add, exact, mul_comm], positive⟩).1
  have found : f /ₘ g = q' := (div_modByMonic_unique q' r monic ⟨by rw [value, add_comm, mul_comm], small⟩).1
  rw [← asked, found]

theorem getD_drop (v : List α) (i k : ℕ) : (v.drop i).getD k 0 = v.getD (i + k) 0 := by
  rw [List.getD_eq_getElem?_getD, List.getD_eq_getElem?_getD, List.getElem?_drop]

/-- A run on admissible cells, whose steps subtract products, takes the leading coefficient times the divisor off. -/
structure Reduced (P : α → Prop) (R : α → K) (divisor cells : List α) (i : ℕ) (out : List α) : Prop where
  length : out.length = cells.length
  good : ∀ c ∈ out, P c
  value : poly R (cells.drop i) = C (R (cells.getD (cells.length - 1) 0)) * X ^ (cells.length - i - divisor.length) *
    poly R divisor + poly R (out.drop (i + 1))

theorem shiftRun_reduced {E : ε → Prop}
    (law : ∀ x d c, P x → P d → P c → Run.Ends (step x d c) (fun y => P y ∧ R y = R x - R d * R c) E) (zero : R 0 = 0)
    {divisor cells : List α} {i : ℕ} (hd : ∀ d ∈ divisor, P d) (good : ∀ c ∈ cells, P c) (nonempty : 0 < divisor.length)
    (monic : R (divisor.getD (divisor.length - 1) 0) = 1) (room : i + divisor.length ≤ cells.length) :
    Run.Ends (shiftRun fault step divisor cells i) (Reduced P R divisor cells i) E := by
  refine (shiftRun_ends fault step divisor (Q := fun p y => P y ∧ R y = R (cells.getD (p - 1) 0) - if cells.length < p + divisor.length then
    R (divisor.getD (p + divisor.length - 1 - cells.length) 0) * R (cells.getD (cells.length - 1) 0) else 0)
    (by omega) ?_).mono ?_
  · intro p above inside
    have before := good _ (getD_mem (show p - 1 < cells.length by omega))
    unfold moved
    split
    · exact law _ _ _ before (hd _ (getD_mem (by omega))) (good _ (getD_mem (by omega)))
    · exact Run.Ends.ok ⟨before, (sub_zero _).symm⟩
  · rintro out ⟨length, below, above⟩
    refine ⟨length, ?_, ?_⟩
    · intro c hc
      obtain ⟨p, hp, rfl⟩ := List.mem_iff_getElem.mp hc
      rw [← List.getD_eq_getElem _ 0]
      rcases Nat.lt_or_ge i p with new | old
      · exact (above p new (by omega)).1
      · rw [below p old]
        exact good _ (getD_mem (by omega))
    ext k
    rw [coeff_add, mul_assoc, coeff_C_mul, coeff_X_pow_mul', coeff_poly zero, coeff_poly zero, coeff_poly zero, getD_drop,
      getD_drop]
    rcases Nat.lt_trichotomy (i + 1 + k) cells.length with inside | edge | outside
    · rw [(above _ (by omega) inside).2, show i + 1 + k - 1 = i + k by omega]
      by_cases reaches : cells.length < i + 1 + k + divisor.length
      · rw [if_pos (show cells.length - i - divisor.length ≤ k by omega), if_pos reaches,
          show k - (cells.length - i - divisor.length) = i + 1 + k + divisor.length - 1 - cells.length by omega]
        ring
      · rw [if_neg (show ¬ cells.length - i - divisor.length ≤ k by omega), if_neg reaches]
        ring
    · rw [List.getD_eq_default out _ (by omega), zero, if_pos (by omega),
        show k - (cells.length - i - divisor.length) = divisor.length - 1 by omega, monic,
        show i + k = cells.length - 1 by omega]
      ring
    · rw [List.getD_eq_default out _ (by omega), List.getD_eq_default cells _ (by omega), zero, if_pos (by omega),
        List.getD_eq_default divisor _ (by omega), zero]
      ring

end Polynomials
end Rules
end Schoolbook
