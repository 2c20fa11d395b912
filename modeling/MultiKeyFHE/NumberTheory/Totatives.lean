import MultiKeyFHE.Library.Fuel
import MultiKeyFHE.NumberTheory.IntType

/-!
# Greatest common divisors and totatives

The Euclidean loop, and the list of the numbers below `n` that it finds coprime to `n`.
-/

namespace MultiKeyFHE.NbTheory
open Fuel
variable {α : Type} (I : IntType α)

def gcdPass (s : α × α) : Attempt Fault (α × α ⊕ α) := do
  if ← I.ne s.2 (I.ofUint64 0) then
    let m_b ← I.mod s.1 s.2
    return .inl (s.2, m_b)
  else return .inr s.1

def greatestCommonDivisor (fuel : ℕ) (a b : α) : Attempt Fault α := loop (gcdPass I) fuel (a, b)

def totientPass (n : α) (fuel : ℕ) (s : α × List α) : Attempt Fault (α × List α ⊕ List α) := do
  if ← I.lt s.1 n then
    let g ← greatestCommonDivisor I fuel s.1 n
    let found ← I.eq g (I.ofUint64 1)
    return .inl (I.add s.1 (I.ofUint64 1), if found then s.2 ++ [s.1] else s.2)
  else return .inr s.2

def getTotientList (fuel : ℕ) (n : α) : Attempt Fault (List α) := loop (totientPass I n fuel) fuel (I.ofUint64 1, [])

variable {I}

theorem greatestCommonDivisor_extends {fuel more : ℕ} (le : fuel ≤ more) (a b : α) :
    Extends (greatestCommonDivisor I fuel a b) (greatestCommonDivisor I more a b) := loop_extends (fun _ => .refl _) le _

theorem getTotientList_extends {fuel more : ℕ} (le : fuel ≤ more) (n : α) :
    Extends (getTotientList I fuel n) (getTotientList I more n) := by
  apply loop_extends _ le
  intro s
  apply (Extends.refl _).bind
  intro less
  apply Extends.ite _ (.refl _)
  apply (greatestCommonDivisor_extends le _ _).bind
  exact fun _ => .refl _

variable {rep : ℕ → α} {fits : ℕ → Prop} (laws : I.Lawful rep fits) {a b i n x y : ℕ}
include laws

theorem gcdPass_ended (hx : fits x) (hy : fits y) :
    gcdPass I (rep x, rep y) = ended (.ok (if y = 0 then .inr (rep x) else .inl (rep y, rep (x % y)))) := by
  unfold gcdPass
  by_cases done : y = 0
  · simp [done, laws.ofZero, laws.ne laws.zero laws.zero]
  · simp [done, laws.ofZero, laws.ne hy laws.zero, laws.mod (Nat.pos_of_ne_zero done) hx hy]

theorem gcd_settles (ha : fits a) (hb : fits b) :
    Settles (fun fuel => greatestCommonDivisor I fuel (rep a) (rep b)) (.ok (rep (a.gcd b))) := by
  unfold greatestCommonDivisor
  apply loop_settles (fun _ => gcdPass I)
    (fun y s => ∃ x, s = (rep x, rep y) ∧ fits x ∧ fits y ∧ x.gcd y = a.gcd b) (k := b)
  · exact ⟨a, rfl, ha, hb, rfl⟩
  · rintro y s ⟨x, rfl, hx, hy, same⟩
    rw [gcdPass_ended laws hx hy]
    by_cases done : y = 0
    · rw [done, Nat.gcd_zero_right] at same
      rw [if_pos done, same]
      exact .inr (settles_ended _)
    · have smaller := Nat.mod_lt x (Nat.pos_of_ne_zero done)
      rw [if_neg done]
      refine .inl ⟨_, settles_ended _, x % y, smaller, y, rfl, hy, laws.below smaller.le hy, ?_⟩
      rw [Nat.gcd_comm, ← Nat.gcd_rec, Nat.gcd_comm]
      exact same

/-- The numbers from `1` up to `i` that are coprime to `n`, in order. -/
def totatives (n i : ℕ) : List ℕ := (List.range' 1 i).filter (Nat.Coprime · n)

omit laws in
theorem totatives_succ (n i : ℕ) :
    totatives n (i + 1) = if (i + 1).Coprime n then totatives n i ++ [i + 1] else totatives n i := by
  unfold totatives
  rw [List.range'_concat, List.filter_append, Nat.one_mul, Nat.add_comm 1 i]
  split
  · rename_i coprime
    rw [List.filter_cons_of_pos (by simpa only [decide_eq_true_eq]), List.filter_nil]
  · rename_i common
    rw [List.filter_cons_of_neg (by simpa only [decide_eq_true_eq]), List.filter_nil, List.append_nil]

theorem totientPass_settles (hn : fits n) (hi : i < n) :
    Settles (fun fuel => totientPass I (rep n) fuel (rep (i + 1), (totatives n i).map rep)) (.ok
      (if i + 1 < n then .inl (rep (i + 2), (totatives n (i + 1)).map rep) else .inr ((totatives n i).map rep))) := by
  have fitsI : fits (i + 1) := laws.below hi hn
  unfold totientPass
  simp only [laws.lt fitsI hn, lift_eq, ok_bind, decide_eq_true_eq]
  by_cases more : i + 1 < n
  · have next : fits (i + 1 + 1) := laws.below more hn
    simp only [if_pos more]
    apply (gcd_settles laws fitsI hn).bind
    have g : fits ((i + 1).gcd n) := laws.below (Nat.gcd_le_left n (Nat.succ_pos i)) fitsI
    simp only [laws.ofOne, laws.eq g laws.one, ok_bind, laws.add next, pure_eq]
    have found : (if decide ((i + 1).gcd n = 1) = true then (totatives n i).map rep ++ [rep (i + 1)] else (totatives n i).map rep) =
        (totatives n (i + 1)).map rep := by
      rw [totatives_succ]
      unfold Nat.Coprime
      by_cases coprime : (i + 1).gcd n = 1 <;> simp [coprime]
    rw [found]
    exact settles_ended _
  · simp only [if_neg more]
    exact settles_ended _

theorem getTotientList_settles (some : 0 < n) (hn : fits n) :
    Settles (fun fuel => getTotientList I fuel (rep n)) (.ok ((totatives n (n - 1)).map rep)) := by
  unfold getTotientList
  rw [laws.ofOne]
  apply loop_settles _ (fun k s => ∃ i, s = (rep (i + 1), (totatives n i).map rep) ∧ i < n ∧ k = n - i) (k := n)
  · exact ⟨0, rfl, some, rfl⟩
  · rintro k s ⟨i, rfl, less, rfl⟩
    have pass := totientPass_settles laws hn less
    split at pass
    · exact .inl ⟨_, pass, n - (i + 1), by omega, i + 1, rfl, by omega, rfl⟩
    · obtain rfl : i = n - 1 := by omega
      exact .inr pass

end MultiKeyFHE.NbTheory
