import MultiKeyFHE.Scheme.MKLWE
import Mathlib.Data.Set.Basic

/-!
# What the masks hide

A generator is the set of vectors it can draw. A ciphertext hides its message when the values `b` that all masks
lead to are the same set for every message. With a uniform mask that set is everything; a bounded mask leaves an
arc around the message, so `masks_hide_iff` asks the bound to reach around the circle.
-/

namespace MultiKeyFHE
open NativeInteger NativeVector Circle

namespace Masks
variable {n : ℕ}

/-- `DiscreteUniformGenerator` modulo `M`. -/
def Uniform (M : ℕ) (v : Fin n → ℕ) : Prop := ∀ i, v i < M

/-- `DiscreteGaussianGenerator` modulo `M`, with centered entries up to `B`. -/
def Gaussian (B M : ℕ) (v : Fin n → ℕ) : Prop := ∀ i, v i < M ∧ |centered M (v i)| ≤ B

/-- A vector with one entry `c`. -/
def spike (i : Fin n) (c : ℕ) : Fin n → ℕ := fun j => if j = i then c else 0

/-- A key as the library holds it, with a coordinate one. -/
structure HasOne (w : NativeSize) (sk : LWEPrivateKey n) (i : Fin n) : Prop where
  lt : ∀ j, sk.element j < sk.modulus
  one : sk.element i = 1
  accepted : ¬ modulusTooLarge w sk.modulus

section Generators
variable {B M : ℕ}

theorem uniform_spike {c : ℕ} (hc : c < M) (i : Fin n) : Uniform M (spike i c) := by
  intro j
  unfold spike
  split <;> omega

theorem gaussian_uniform {v : Fin n → ℕ} (hv : Gaussian B M v) : Uniform M v := fun i => (hv i).1

theorem abs_centered_le {v : ℕ} (hv : v < M) (wide : M ≤ 2 * B + 1) : |centered M v| ≤ B := by
  unfold centered
  rw [abs_le]
  split <;> omega

theorem gaussian_of_uniform (wide : M ≤ 2 * B + 1) {v : Fin n → ℕ} (hv : Uniform M v) : Gaussian B M v :=
  fun i => ⟨hv i, abs_centered_le (hv i) wide⟩

theorem centered_residue {c : ℤ} (gap : 2 * B + 1 < M) (hc : |c| ≤ B) : centered M (residue M c) = c := by
  have bounds := abs_le.mp hc
  rcases le_or_gt 0 c with pos | neg
  · have value : c % M = c := Int.emod_eq_of_lt pos (by omega)
    rw [residue, value, centered, if_neg (by omega)]
    omega
  · have value : c % M = c + M := by
      rw [← Int.add_emod_right, Int.emod_eq_of_lt (by omega) (by omega)]
    rw [residue, value, centered, if_pos (by omega)]
    omega

theorem gaussian_spike {c : ℤ} (gap : 2 * B + 1 < M) (hc : |c| ≤ B) (i : Fin n) :
    Gaussian B M (spike i (residue M c)) := by
  intro j
  unfold spike
  split
  · rw [centered_residue gap hc]
    exact ⟨residue_lt (by omega) c, hc⟩
  · exact ⟨by omega, by simp [centered]⟩

end Generators

/-! ### All masks of one generator -/

/-- The values that a program returns over the masks that `draw` allows. -/
def reached {μ : Type} (draw : μ → Prop) (b : μ → Except Fault ℕ) : Set ℕ := {x | ∃ a, draw a ∧ b a = .ok x}

section Reached
variable {μ : Type} {draw : μ → Prop} {mod : ℕ}

/-- Masks that move `b` by any amount lead everywhere. -/
theorem reached_everything {b : μ → Except Fault ℕ} (below : ∀ a x, draw a → b a = .ok x → x < mod) (start : ℕ)
    (moves : ∀ c < mod, ∃ a, draw a ∧ b a = .ok ((start + c) % mod)) : reached draw b = {x | x < mod} := by
  apply Set.eq_of_subset_of_subset
  · rintro x ⟨a, drawn, value⟩
    exact below a x drawn value
  · intro x hx
    have hmod : 0 < mod := Nat.zero_lt_of_lt hx
    -- The amount that takes `start` to `x`.
    obtain ⟨a, drawn, value⟩ := moves ((x + (mod - start % mod)) % mod) (Nat.mod_lt _ hmod)
    refine ⟨a, drawn, value.trans (congrArg Except.ok ?_)⟩
    have := Nat.mod_lt start hmod
    rw [Nat.add_mod_mod, ← Nat.mod_add_mod, ← Nat.add_assoc, Nat.add_comm _ x, Nat.add_assoc,
      show start % mod + (mod - start % mod) = mod by omega, Nat.add_mod_right]
    exact Nat.mod_eq_of_lt hx

/-- Where a mask adds one bounded entry, two starts that lead to the same values agree. -/
theorem modEq_of_reached_eq {B : ℕ} (gap : 2 * B + 1 < mod) {b b' : μ → Except Fault ℕ} {start start' : ℕ}
    {entry : μ → ℕ} (bounded : ∀ a, draw a → |centered mod (entry a)| ≤ B)
    (every : ∀ c : ℤ, |c| ≤ B → ∃ a, draw a ∧ entry a = residue mod c)
    (hb : ∀ a, draw a → b a = .ok ((start + entry a) % mod))
    (hb' : ∀ a, draw a → b' a = .ok ((start' + entry a) % mod)) (same : reached draw b = reached draw b') :
    (start' : ℤ) ≡ start [ZMOD mod] := by
  have shift : (start' : ℤ) - start ≡ 0 [ZMOD mod] := by
    refine modEq_zero_of_arc_shift gap fun c hc => ?_
    obtain ⟨a, drawn, value⟩ := every c hc
    have there : (start' + entry a) % mod ∈ reached draw b := same ▸ ⟨a, drawn, hb' a drawn⟩
    obtain ⟨a', drawn', meet⟩ := there
    refine ⟨centered mod (entry a'), bounded a' drawn', ?_⟩
    rw [hb a' drawn', value] at meet
    have meets : ((start + entry a' : ℕ) : ℤ) ≡ ((start' + residue mod c : ℕ) : ℤ) [ZMOD mod] :=
      Int.natCast_modEq_iff.mpr (Except.ok.inj meet)
    push_cast at meets
    have left := (residue_modEq (show 0 < mod by omega) c).symm.add_right ((start' : ℤ) - start)
    refine left.trans (Int.ModEq.trans ?_ (centered_modEq _ _).symm)
    have := meets.symm.sub_right (start : ℤ)
    rwa [add_sub_cancel_left, add_comm (start' : ℤ), add_sub_assoc] at this
  have := shift.add_right (start : ℤ)
  rwa [sub_add_cancel, zero_add] at this

end Reached

/-! ### Encryption -/

section Encrypt
variable {w : NativeSize} {mod p : ℕ}

theorem sum_single {a s : Fin n → ℕ} {i : Fin n} {c : ℕ} (product : ∀ j, a j * s j = if j = i then c else 0) :
    ∑ j, a j * s j = c := by
  simp [product]

theorem addProducts_single (h2 : 2 ≤ mod) (hm : ¬ modulusTooLarge w mod) {a s : Fin n → ℕ} {i : Fin n} {c b : ℕ}
    (hc : c < mod) (product : ∀ j, a j * s j = if j = i then c else 0) (hb : b ≤ 2 * mod) :
    addProducts w mod a s b = b + c := by
  have hlt := lt_of_not_tooLarge hm
  have total := sum_single product
  rw [addProducts_of_lt h2 (by omega) (fun j => ?_) (by omega), total]
  rw [product]
  split <;> omega

theorem foldl_addProducts_of_lt {k : ℕ} (h2 : 2 ≤ mod) (hm : mod ≤ 2 ^ w.bits) {a s : Fin k → Fin n → ℕ}
    (small : ∀ u i, a u i * s u i < mod) {b : ℕ} (fits : b + ∑ u, ∑ i, a u i * s u i < 2 ^ w.bits) :
    (List.finRange k).foldl (fun b u => addProducts w mod (a u) (s u) b) b = b + ∑ u, ∑ i, a u i * s u i := by
  rw [Fin.sum_univ_def] at fits ⊢
  revert fits
  induction List.finRange k generalizing b with
  | nil => simp
  | cons u rest ih =>
    intro fits
    rw [List.map_cons, List.sum_cons] at fits ⊢
    rw [List.foldl_cons, addProducts_of_lt h2 hm (small u) (by omega), ih (by omega), add_assoc]

theorem foldl_addProducts_single {k : ℕ} (h2 : 2 ≤ mod) (hm : ¬ modulusTooLarge w mod) {a s : Fin k → Fin n → ℕ}
    {u : Fin k} {i : Fin n} {c b : ℕ} (hc : c < mod)
    (product : ∀ v j, a v j * s v j = if v = u ∧ j = i then c else 0) (hb : b ≤ 2 * mod) :
    (List.finRange k).foldl (fun b u => addProducts w mod (a u) (s u) b) b = b + c := by
  have hlt := lt_of_not_tooLarge hm
  have total : ∑ v, ∑ j, a v j * s v j = c := by
    simp [product, ite_and]
  rw [foldl_addProducts_of_lt h2 (by omega) (fun v j => ?_) (by omega), total]
  rw [product]
  split <;> omega

theorem start_eq (hm : ¬ modulusTooLarge w mod) {e m : ℕ} (he : e < mod) (hm' : m < p) :
    add w (NativeInteger.mul w (m % p) (mod / p)) e = m * (mod / p) + e ∧ m * (mod / p) + e ≤ 2 * mod := by
  have hlt := lt_of_not_tooLarge hm
  have scaled : m * (mod / p) ≤ mod := (Nat.mul_le_mul_right _ hm'.le).trans (Nat.mul_div_le mod p)
  rw [Nat.mod_eq_of_lt hm', NativeInteger.mul, wrap_of_lt (by omega), NativeInteger.add, wrap_of_lt (by omega)]
  exact ⟨rfl, by omega⟩

theorem switchKey_one {sk : LWEPrivateKey n} {i : Fin n} (key : HasOne w sk i) (h2 : 2 ≤ mod) :
    LWE.switchKey w mod sk i = 1 := by
  have := key.lt i
  rw [LWE.switchKey, key.one]
  exact switchModulus_bit (Or.inr rfl) (by have := key.one; omega) h2

theorem spike_product {s : Fin n → ℕ} {i : Fin n} (one : s i = 1) (c : ℕ) (j : Fin n) :
    spike i c j * s j = if j = i then c else 0 := by
  unfold spike
  split
  · rename_i same
    rw [same, one, mul_one]
  · rw [zero_mul]

/-- The key with one coordinate one and zeros elsewhere. -/
def bitKey (i : Fin n) : LWEPrivateKey n := ⟨spike i 1, 2⟩

theorem bitKey_bit (i j : Fin n) : (bitKey i).element j = 0 ∨ (bitKey i).element j = 1 := by
  change spike i 1 j = 0 ∨ spike i 1 j = 1
  unfold spike
  split
  · exact Or.inr rfl
  · exact Or.inl rfl

theorem bitKey_hasOne (i : Fin n) : HasOne w (bitKey i) i := by
  refine ⟨fun j => ?_, by simp [bitKey, spike], ?_⟩
  · change (bitKey i).element j < 2
    have := bitKey_bit i j
    omega
  · change ¬ modulusTooLarge w 2
    cases w <;> decide

theorem switchKey_bitKey (i : Fin n) (h2 : 2 ≤ mod) : LWE.switchKey w mod (bitKey i) = spike i 1 := by
  funext j
  exact switchModulus_bit (bitKey_bit i j) (le_refl 2) h2

theorem product_bit (a : Fin n → ℕ) (i j : Fin n) : a j * spike i 1 j = if j = i then a i else 0 := by
  unfold spike
  split
  · rename_i same
    rw [same, mul_one]
  · rw [mul_zero]

theorem reached_rejected {μ : Type} {draw : μ → Prop} {b : μ → Except Fault ℕ} (rejected : ∀ a x, b a ≠ .ok x) :
    reached draw b = ∅ := by
  refine Set.eq_empty_of_forall_notMem ?_
  rintro x ⟨a, -, value⟩
  exact rejected a x value

/-- Over the masks that `draw` allows, `LWEEncryptionScheme::Encrypt` leads to the same `b` for all messages. -/
def LWEEncryptHides (w : NativeSize) (draw : (Fin n → ℕ) → Prop) (p mod : ℕ) : Prop :=
  ∀ (sk : LWEPrivateKey n) (i : Fin n), HasOne w sk i → ∀ e < mod, ∀ m < p, ∀ m' < p,
    reached draw (fun a => LWECiphertext.b <$> LWE.encrypt w sk e a m p mod) =
      reached draw fun a => LWECiphertext.b <$> LWE.encrypt w sk e a m' p mod

def MKLWEEncryptHides (w : NativeSize) (k : ℕ) (draw : (Fin n → ℕ) → Prop) (p mod : ℕ) : Prop :=
  ∀ (keyModulus : ℕ) (s : Fin k → Fin n → ℕ) (u : Fin k) (i : Fin n), HasOne w ⟨s u, keyModulus⟩ i →
    ∀ e < mod, ∀ m < p, ∀ m' < p,
    reached (fun a : Fin k → Fin n → ℕ => ∀ u, draw (a u))
        (fun a => MKLWECiphertext.b <$> MKLWE.encrypt w keyModulus s e a m p mod) =
      reached (fun a : Fin k → Fin n → ℕ => ∀ u, draw (a u)) fun a =>
        MKLWECiphertext.b <$> MKLWE.encrypt w keyModulus s e a m' p mod

theorem lweEncrypt_accepted (hm : ¬ modulusTooLarge w mod) (sk : LWEPrivateKey n) (e : ℕ) (a : Fin n → ℕ) (m p : ℕ) :
    LWECiphertext.b <$> LWE.encrypt w sk e a m p mod =
      .ok (addProducts w mod a (LWE.switchKey w mod sk) (add w (NativeInteger.mul w (m % p) (mod / p)) e) % mod) := by
  simp [LWE.encrypt, setModulus, hm]

theorem lweEncrypt_rejected (large : modulusTooLarge w mod) (sk : LWEPrivateKey n) (e : ℕ) (a : Fin n → ℕ) (m p x : ℕ) :
    LWECiphertext.b <$> LWE.encrypt w sk e a m p mod ≠ .ok x := by
  simp [LWE.encrypt, setModulus, large]

theorem mklweEncrypt_accepted {k : ℕ} (hm : ¬ modulusTooLarge w mod) (keyModulus : ℕ) (s : Fin k → Fin n → ℕ) (e : ℕ)
    (a : Fin k → Fin n → ℕ) (m p : ℕ) :
    MKLWECiphertext.b <$> MKLWE.encrypt w keyModulus s e a m p mod =
      .ok ((List.finRange k).foldl (fun b u => addProducts w mod (a u) (LWE.switchKey w mod ⟨s u, keyModulus⟩) b)
        (add w (NativeInteger.mul w (m % p) (mod / p)) e) % mod) := by
  simp [MKLWE.encrypt, setModulus, hm]

theorem mklweEncrypt_rejected {k : ℕ} (large : modulusTooLarge w mod) (keyModulus : ℕ) (s : Fin k → Fin n → ℕ) (e : ℕ)
    (a : Fin k → Fin n → ℕ) (m p x : ℕ) : MKLWECiphertext.b <$> MKLWE.encrypt w keyModulus s e a m p mod ≠ .ok x := by
  simp [MKLWE.encrypt, setModulus, large]

/-- Every mask with one entry leads somewhere else, so nothing is left to tell two messages apart. -/
theorem lweEncrypt_everything {draw : (Fin n → ℕ) → Prop} (spikes : ∀ i, ∀ c < mod, draw (spike i c))
    (hm : ¬ modulusTooLarge w mod) {sk : LWEPrivateKey n} {i : Fin n} (key : HasOne w sk i) {e m : ℕ} (he : e < mod)
    (hmp : m < p) : reached draw (fun a => LWECiphertext.b <$> LWE.encrypt w sk e a m p mod) = {x | x < mod} := by
  obtain ⟨start, small⟩ := start_eq hm he hmp
  refine reached_everything (fun a x _ value => ?_) (m * (mod / p) + e) fun c hc => ⟨spike i c, spikes i c hc, ?_⟩
  · rw [lweEncrypt_accepted hm] at value
    rw [← Except.ok.inj value]
    exact Nat.mod_lt _ (by omega)
  · rw [lweEncrypt_accepted hm, start]
    rcases Nat.lt_or_ge mod 2 with one | h2
    · obtain rfl : mod = 1 := by omega
      rw [Nat.mod_one, Nat.mod_one]
    · rw [addProducts_single h2 hm hc (spike_product (switchKey_one key h2) c) small]

theorem lweEncrypt_hides (n p mod : ℕ) : LWEEncryptHides w (Uniform mod : (Fin n → ℕ) → Prop) p mod := by
  intro sk i key e he m hm m' hm'
  by_cases large : modulusTooLarge w mod
  · rw [reached_rejected fun a x => lweEncrypt_rejected large sk e a m p x,
      reached_rejected fun a x => lweEncrypt_rejected large sk e a m' p x]
  · have spikes : ∀ i, ∀ c < mod, (Uniform mod : (Fin n → ℕ) → Prop) (spike i c) := fun i c hc => uniform_spike hc i
    rw [lweEncrypt_everything spikes large key he hm, lweEncrypt_everything spikes large key he hm']

theorem party_spike_product {k : ℕ} {s : Fin k → Fin n → ℕ} {u : Fin k} {i : Fin n} (one : s u i = 1) (c : ℕ)
    (v : Fin k) (j : Fin n) : spike i (if v = u then c else 0) j * s v j = if v = u ∧ j = i then c else 0 := by
  by_cases same : v = u
  · subst same
    rw [if_pos rfl, spike_product one]
    simp
  · rw [if_neg same, if_neg fun h => same h.1]
    simp [spike]

theorem mklweEncrypt_everything {k : ℕ} {draw : (Fin n → ℕ) → Prop} (spikes : ∀ i, ∀ c < mod, draw (spike i c))
    (hm : ¬ modulusTooLarge w mod) {keyModulus : ℕ} {s : Fin k → Fin n → ℕ} {u : Fin k} {i : Fin n}
    (key : HasOne w ⟨s u, keyModulus⟩ i) {e m : ℕ} (he : e < mod) (hmp : m < p) :
    reached (fun a : Fin k → Fin n → ℕ => ∀ u, draw (a u))
      (fun a => MKLWECiphertext.b <$> MKLWE.encrypt w keyModulus s e a m p mod) = {x | x < mod} := by
  obtain ⟨start, small⟩ := start_eq hm he hmp
  refine reached_everything (fun a x _ value => ?_) (m * (mod / p) + e) fun c hc =>
    ⟨fun v => spike i (if v = u then c else 0), fun v => spikes i _ ?_, ?_⟩
  · rw [mklweEncrypt_accepted hm] at value
    rw [← Except.ok.inj value]
    exact Nat.mod_lt _ (by omega)
  · split <;> omega
  · rw [mklweEncrypt_accepted hm, start]
    rcases Nat.lt_or_ge mod 2 with one | h2
    · obtain rfl : mod = 1 := by omega
      rw [Nat.mod_one, Nat.mod_one]
    · have one : LWE.switchKey w mod ⟨s u, keyModulus⟩ i = 1 := switchKey_one key h2
      rw [foldl_addProducts_single h2 hm hc (party_spike_product one c) small]

/-- The arc that bounded masks leave around a message does not reach around the circle. -/
theorem not_mklweEncryptHides {k B : ℕ} (hk : 0 < k) (hn : 0 < n) (hp : 2 ≤ p) (hpm : p ≤ mod)
    (hm : ¬ modulusTooLarge w mod) (gap : 2 * B + 1 < mod) :
    ¬ MKLWEEncryptHides w k (Gaussian B mod : (Fin n → ℕ) → Prop) p mod := by
  intro hides
  let u : Fin k := ⟨0, hk⟩
  let i : Fin n := ⟨0, hn⟩
  let s : Fin k → Fin n → ℕ := fun v => spike i (if v = u then 1 else 0)
  have key : HasOne w ⟨s u, 2⟩ i := by
    have : s u = spike i 1 := by simp [s]
    rw [this]
    exact bitKey_hasOne i
  have switched : ∀ v, LWE.switchKey w mod ⟨s v, 2⟩ = s v := by
    intro v
    funext j
    refine switchModulus_bit ?_ (le_refl 2) (by omega)
    simp only [s, spike]
    split_ifs <;> simp
  have product : ∀ (a : Fin k → Fin n → ℕ) v j, a v j * s v j = if v = u ∧ j = i then a u i else 0 := by
    intro a v j
    by_cases here : v = u ∧ j = i
    · rw [if_pos here, here.1, here.2]
      simp [s, spike]
    · rw [if_neg here]
      simp only [s, spike]
      split_ifs <;> simp_all
  have value : ∀ m < p, ∀ a : Fin k → Fin n → ℕ, (∀ u, Gaussian B mod (a u)) →
      MKLWECiphertext.b <$> MKLWE.encrypt w 2 s 0 a m p mod = .ok ((m * (mod / p) + a u i) % mod) := by
    intro m hmp a drawn
    obtain ⟨start, small⟩ := start_eq hm (show 0 < mod by omega) hmp
    rw [add_zero] at start small
    rw [mklweEncrypt_accepted hm, start]
    simp only [switched]
    rw [foldl_addProducts_single (by omega) hm (drawn u i).1 (product a) small]
  have same := hides 2 s u i key 0 (by omega) 0 (by omega) 1 (by omega)
  have meet := modEq_of_reached_eq gap (fun a drawn => (drawn u i).2)
    (fun c hc => ⟨fun _ => spike i (residue mod c), fun _ => gaussian_spike gap hc i, by simp [spike]⟩)
    (value 0 (by omega)) (value 1 (by omega)) same
  -- One step of the message is less than the circle.
  have step : 0 < mod / p := Nat.div_pos hpm (by omega)
  have short : mod / p < mod := Nat.div_lt_self (by omega) (by omega)
  rw [zero_mul, one_mul] at meet
  have := Nat.ModEq.eq_of_lt_of_lt (Int.natCast_modEq_iff.mp meet) short (by omega)
  omega

theorem mklweEncryptHides_iff (w : NativeSize) (k n B p mod : ℕ) :
    MKLWEEncryptHides w k (Gaussian B mod : (Fin n → ℕ) → Prop) p mod ↔
      mod ≤ 2 * B + 1 ∨ k = 0 ∨ n = 0 ∨ p ≤ 1 ∨ mod < p ∨ modulusTooLarge w mod := by
  constructor
  · intro hides
    by_contra other
    push Not at other
    obtain ⟨gap, hk, hn, hp, hpm, hm⟩ := other
    exact not_mklweEncryptHides (by omega) (by omega) (by omega) (by omega) hm gap hides
  · intro condition keyModulus s u i key e he m hmp m' hmp'
    by_cases large : modulusTooLarge w mod
    · rw [reached_rejected fun a x => mklweEncrypt_rejected large keyModulus s e a m p x,
        reached_rejected fun a x => mklweEncrypt_rejected large keyModulus s e a m' p x]
    have hu := u.isLt
    have hi := i.isLt
    rcases condition with wide | hk | hn | hp | small | hl
    · have spikes : ∀ i, ∀ c < mod, (Gaussian B mod : (Fin n → ℕ) → Prop) (spike i c) :=
        fun i c hc => gaussian_of_uniform wide (uniform_spike hc i)
      rw [mklweEncrypt_everything spikes large key he hmp, mklweEncrypt_everything spikes large key he hmp']
    · omega
    · omega
    · rw [show m = m' by omega]
    · -- The scale `mod / p` is zero, so the message is not in the ciphertext at all.
      have scale : mod / p = 0 := Nat.div_eq_of_lt small
      simp only [mklweEncrypt_accepted large, scale, NativeInteger.mul, Nat.mul_zero]
    · exact absurd hl large

end Encrypt

/-! ### Switching keys -/

section SwitchingKeys
variable {w : NativeSize} {qKS : ℕ}

/-- The 32-bit loop keeps `b` reduced as long as the products are. -/
theorem switchingEntry_lt (hpos : 0 < qKS) (hm : ¬ modulusTooLarge w qKS) {sv a : Fin n → ℕ}
    (products : w = .w32 → ∀ i, modMulFastMu w (a i) (sv i) qKS (computeMu w qKS) < qKS) (e value : ℕ) :
    LWE.switchingEntry w qKS sv a e value < qKS := by
  have hlt := lt_of_not_tooLarge hm
  cases w with
  | w64 => exact Nat.mod_lt _ (by omega)
  | w32 =>
    apply List.foldlRecOn (motive := fun b => b < qKS)
    · rw [modAdd_eq (by omega) (by omega)]
      exact Nat.mod_lt _ (by omega)
    · intro b hb i _
      exact modAddFast_lt hb (products rfl i) (by omega)

theorem switchingEntry_single (h2 : 2 ≤ qKS) (hm : ¬ modulusTooLarge w qKS) {sv a : Fin n → ℕ} {i : Fin n} {c : ℕ}
    (hc : c < qKS) (product : ∀ j, a j * sv j = if j = i then c else 0) (e value : ℕ) :
    LWE.switchingEntry w qKS sv a e value = (e + value + c) % qKS := by
  have hlt := lt_of_not_tooLarge hm
  have first : modAdd w e value qKS = (e + value) % qKS := modAdd_eq (by omega) (by omega)
  have below : (e + value) % qKS < qKS := Nat.mod_lt _ (by omega)
  have small : ∀ j, a j * sv j < qKS := by
    intro j
    rw [product]
    split <;> omega
  cases w with
  | w64 =>
    rw [LWE.switchingEntry, first, addProducts_single h2 hm hc product (by omega), Nat.mod_add_mod]
  | w32 =>
    have once : ∀ (b : ℕ) (j : Fin n), b < qKS →
        modAddFast .w32 b (modMulFastMu .w32 (a j) (sv j) qKS (computeMu .w32 qKS)) qKS < qKS ∧
          ((modAddFast .w32 b (modMulFastMu .w32 (a j) (sv j) qKS (computeMu .w32 qKS)) qKS : ℕ) : ℤ) ≡
            b + ((a j * sv j : ℕ) : ℤ) [ZMOD qKS] := by
      intro b j hb
      rw [modMulFastMu_of_lt h2 (small j) (by omega)]
      exact ⟨modAddFast_lt hb (small j) (by omega), modAddFast_cast hb (small j) (by omega)⟩
    obtain ⟨last, total⟩ := Run.foldl_modEq (· < qKS) (fun b : ℕ => (b : ℤ)) _ once (List.finRange n) below
    rw [← Fin.sum_univ_def, ← Nat.cast_sum, sum_single product, ← Nat.cast_add] at total
    rw [LWE.switchingEntry, first]
    have same := Int.natCast_modEq_iff.mp total
    rw [← Nat.mod_eq_of_lt last, same, Nat.mod_add_mod]

/-- Over the masks that `draw` allows, an entry of a key of `LWEEncryptionScheme::KeySwitchGen` leads to the same `b`
for all digit values. -/
def LWEKeySwitchHides (w : NativeSize) (N : ℕ) (draw : (Fin n → ℕ) → Prop) (qKS baseKS digitCount : ℕ) : Prop :=
  ∀ (sk : LWEPrivateKey n) (i₀ : Fin n), HasOne w sk i₀ → ∀ (skN skN' : LWEPrivateKey N) (i i' : Fin N),
    ∀ j < baseKS, ∀ j' < baseKS, ∀ l < digitCount, ∀ l' < digitCount, ∀ errors errors' : Fin N → ℕ → ℕ → ℕ,
    errors i j l = errors' i' j' l' → errors i j l < qKS →
    reached (fun masks : Fin N → ℕ → ℕ → Fin n → ℕ => ∀ i j l, draw (masks i j l))
        (fun masks => (LWE.SwitchingKey.B · i j l) <$> LWE.keySwitchGen w qKS baseKS sk skN masks errors) =
      reached (fun masks : Fin N → ℕ → ℕ → Fin n → ℕ => ∀ i j l, draw (masks i j l)) fun masks =>
        (LWE.SwitchingKey.B · i' j' l') <$> LWE.keySwitchGen w qKS baseKS sk skN' masks errors'

/-- The same for an entry of party `u` of a key of `MKLWEEncryptionScheme::KeySwitchGen`, whose secret has a
coordinate one. -/
def MKLWEKeySwitchHides (w : NativeSize) (k N : ℕ) (draw : (Fin n → ℕ) → Prop) (qKS baseKS digitCount : ℕ) : Prop :=
  ∀ (sk : Fin k → LWEPrivateKey n) (u : Fin k) (i₀ : Fin n), HasOne w (sk u) i₀ →
    ∀ (skN skN' : Fin k → LWEPrivateKey N) (i i' : Fin N),
    ∀ j < baseKS, ∀ j' < baseKS, ∀ l < digitCount, ∀ l' < digitCount, ∀ errors errors' : Fin k → Fin N → ℕ → ℕ → ℕ,
    errors u i j l = errors' u i' j' l' → errors u i j l < qKS →
    reached (fun masks : Fin k → Fin N → ℕ → ℕ → Fin n → ℕ => ∀ u i j l, draw (masks u i j l))
        (fun masks => (fun K => (K u).B i j l) <$> MKLWE.keySwitchGen w qKS baseKS sk skN masks errors) =
      reached (fun masks : Fin k → Fin N → ℕ → ℕ → Fin n → ℕ => ∀ u i j l, draw (masks u i j l)) fun masks =>
        (fun K => (K u).B i' j' l') <$> MKLWE.keySwitchGen w qKS baseKS sk skN' masks errors'

/-- What all masks of one entry lead to, for a secret `sv`, an error and a digit value. -/
def entryReached (w : NativeSize) (draw : (Fin n → ℕ) → Prop) (qKS : ℕ) (sv : Fin n → ℕ) (e value : ℕ) : Set ℕ :=
  reached draw fun a => do
    setModulus w qKS
    return LWE.switchingEntry w qKS sv a e value

/-- An entry sees only the mask that was drawn for it. -/
theorem lweKeySwitch_reached {N : ℕ} (draw : (Fin n → ℕ) → Prop) (baseKS : ℕ) (sk : LWEPrivateKey n)
    (skN : LWEPrivateKey N) (errors : Fin N → ℕ → ℕ → ℕ) (i : Fin N) (j l : ℕ) :
    reached (fun masks : Fin N → ℕ → ℕ → Fin n → ℕ => ∀ i j l, draw (masks i j l))
        (fun masks => (LWE.SwitchingKey.B · i j l) <$> LWE.keySwitchGen w qKS baseKS sk skN masks errors) =
      entryReached w draw qKS (LWE.switchKey w qKS sk) (errors i j l)
        (LWE.digitValue w qKS baseKS (LWE.switchKey w qKS skN i) j l) := by
  have body : ∀ masks : Fin N → ℕ → ℕ → Fin n → ℕ,
      (LWE.SwitchingKey.B · i j l) <$> LWE.keySwitchGen w qKS baseKS sk skN masks errors = (do
        setModulus w qKS
        return LWE.switchingEntry w qKS (LWE.switchKey w qKS sk) (masks i j l) (errors i j l)
          (LWE.digitValue w qKS baseKS (LWE.switchKey w qKS skN i) j l)) := by
    intro masks
    unfold LWE.keySwitchGen
    cases setModulus w qKS <;> rfl
  apply Set.eq_of_subset_of_subset
  · rintro x ⟨masks, drawn, value⟩
    exact ⟨masks i j l, drawn i j l, (body masks).symm.trans value⟩
  · rintro x ⟨a, drawn, value⟩
    exact ⟨fun _ _ _ => a, fun _ _ _ => drawn, (body _).trans value⟩

theorem mklweKeySwitch_reached {k N : ℕ} (draw : (Fin n → ℕ) → Prop) (baseKS : ℕ) (sk : Fin k → LWEPrivateKey n)
    (skN : Fin k → LWEPrivateKey N) (errors : Fin k → Fin N → ℕ → ℕ → ℕ) (u : Fin k) (i : Fin N) (j l : ℕ) :
    reached (fun masks : Fin k → Fin N → ℕ → ℕ → Fin n → ℕ => ∀ u i j l, draw (masks u i j l))
        (fun masks => (fun K => (K u).B i j l) <$> MKLWE.keySwitchGen w qKS baseKS sk skN masks errors) =
      entryReached w draw qKS (LWE.switchKey w qKS (sk u)) (errors u i j l)
        (LWE.digitValue w qKS baseKS (LWE.switchKey w qKS (skN u) i) j l) := by
  have body : ∀ masks : Fin k → Fin N → ℕ → ℕ → Fin n → ℕ,
      (fun K => (K u).B i j l) <$> MKLWE.keySwitchGen w qKS baseKS sk skN masks errors = (do
        setModulus w qKS
        return LWE.switchingEntry w qKS (LWE.switchKey w qKS (sk u)) (masks u i j l) (errors u i j l)
          (LWE.digitValue w qKS baseKS (LWE.switchKey w qKS (skN u) i) j l)) := by
    intro masks
    unfold MKLWE.keySwitchGen
    cases setModulus w qKS <;> rfl
  apply Set.eq_of_subset_of_subset
  · rintro x ⟨masks, drawn, value⟩
    exact ⟨masks u i j l, drawn u i j l, (body masks).symm.trans value⟩
  · rintro x ⟨a, drawn, value⟩
    exact ⟨fun _ _ _ _ => a, fun _ _ _ _ => drawn, (body _).trans value⟩

theorem entry_accepted (hm : ¬ modulusTooLarge w qKS) (sv a : Fin n → ℕ) (e value : ℕ) :
    (do
      setModulus w qKS
      return LWE.switchingEntry w qKS sv a e value) = Except.ok (LWE.switchingEntry w qKS sv a e value) := by
  simp [setModulus, hm]

theorem entryReached_rejected (large : modulusTooLarge w qKS) (draw : (Fin n → ℕ) → Prop) (sv : Fin n → ℕ)
    (e value : ℕ) : entryReached w draw qKS sv e value = ∅ :=
  reached_rejected fun a x => by simp [setModulus, large]

/-- The largest modulus of a 32-bit build, whose Barrett constant is cut to zero: products stay unreduced, which
matters from the second coordinate on. -/
def Unreduced (w : NativeSize) (qKS n : ℕ) : Prop := w = .w32 ∧ qKS = 2 ^ 27 ∧ 2 ≤ n

theorem entry_lt (hm : ¬ modulusTooLarge w qKS) (reduced : ¬ Unreduced w qKS n) {sk : LWEPrivateKey n} {i : Fin n}
    (key : HasOne w sk i) {a : Fin n → ℕ} (drawn : Uniform qKS a) (e value : ℕ) :
    LWE.switchingEntry w qKS (LWE.switchKey w qKS sk) a e value < qKS := by
  have hlt := lt_of_not_tooLarge hm
  have hkey := lt_of_not_tooLarge key.accepted
  have hpos : 0 < qKS := Nat.zero_lt_of_lt (drawn i)
  have switched : ∀ j, LWE.switchKey w qKS sk j < qKS := fun j => switchModulus_lt (key.lt j) hpos (by omega)
  refine switchingEntry_lt hpos hm (fun h32 j => ?_) e value
  have hj := drawn j
  rcases Nat.lt_or_ge qKS 2 with one | h2
  · rw [show a j = 0 by omega, modMulFastMu_zero hpos]
    exact hpos
  by_cases largest : qKS = 2 ^ (w.maxModulusSize - 1)
  · -- There is only one coordinate, and the secret is one there.
    have only : j = i := by
      have : ¬ 2 ≤ n := fun h => reduced ⟨h32, by rw [largest, h32]; rfl, h⟩
      have := j.isLt
      have := i.isLt
      exact Fin.ext (by omega)
    rw [← only] at key
    rw [switchKey_one key h2, modMulFastMu_of_lt h2 (by omega) (by omega), mul_one]
    exact hj
  · exact modMulFastMu_lt h2 hm hj (switched j) (mu_fits h2 hm largest)

theorem entryReached_everything {draw : (Fin n → ℕ) → Prop} (drawn_lt : ∀ a, draw a → Uniform qKS a)
    (spikes : ∀ i, ∀ c < qKS, draw (spike i c)) (hm : ¬ modulusTooLarge w qKS) (reduced : ¬ Unreduced w qKS n)
    {sk : LWEPrivateKey n} {i : Fin n} (key : HasOne w sk i) (e value : ℕ) :
    entryReached w draw qKS (LWE.switchKey w qKS sk) e value = {x | x < qKS} := by
  refine reached_everything (fun a x drawn run => ?_) (e + value) fun c hc => ⟨spike i c, spikes i c hc, ?_⟩
  · rw [entry_accepted hm] at run
    rw [← Except.ok.inj run]
    exact entry_lt hm reduced key (drawn_lt a drawn) e value
  · rw [entry_accepted hm]
    rcases Nat.lt_or_ge qKS 2 with one | h2
    · have := entry_lt hm reduced key (drawn_lt _ (spikes i c hc)) e value
      obtain rfl : qKS = 1 := by omega
      rw [Nat.mod_one, Nat.lt_one_iff.mp this]
    · rw [switchingEntry_single h2 hm hc (spike_product (switchKey_one key h2) c)]

theorem entryReached_bitKey_ne {B : ℕ} (hm : ¬ modulusTooLarge w qKS) (gap : 2 * B + 1 < qKS) (i : Fin n) :
    entryReached w (Gaussian B qKS) qKS (LWE.switchKey w qKS (bitKey i)) 0 0 ≠
      entryReached w (Gaussian B qKS) qKS (LWE.switchKey w qKS (bitKey i)) 0 1 := by
  intro same
  have h2 : 2 ≤ qKS := by omega
  have value : ∀ v, ∀ a : Fin n → ℕ, Gaussian B qKS a → (do
      setModulus w qKS
      return LWE.switchingEntry w qKS (LWE.switchKey w qKS (bitKey i)) a 0 v) = Except.ok ((v + a i) % qKS) := by
    intro v a drawn
    rw [entry_accepted hm, switchKey_bitKey i h2,
      switchingEntry_single h2 hm (drawn i).1 (fun j => product_bit a i j), zero_add]
  have meet := modEq_of_reached_eq gap (fun a drawn => (drawn i).2)
    (fun c hc => ⟨spike i (residue qKS c), gaussian_spike gap hc i, by simp [spike]⟩) (value 0) (value 1) same
  have := Nat.ModEq.eq_of_lt_of_lt (Int.natCast_modEq_iff.mp meet) (show 1 < qKS by omega) (by omega)
  omega

/-! Where the Barrett constant is zero. A secret that ends in `4, 1` lets the last two passes of the 32-bit loop leave
values above the modulus, and how far they go depends on the digit value. -/

def edgeKey (t : ℕ) : LWEPrivateKey (t + 2) :=
  ⟨fun j => if j = Fin.last (t + 1) then 1 else if j = (Fin.last t).castSucc then 4 else 0, 16⟩

theorem edgeKey_le (t : ℕ) (j : Fin (t + 2)) : (edgeKey t).element j ≤ 4 := by
  simp only [edgeKey]
  split_ifs <;> omega

theorem edgeKey_hasOne (t : ℕ) : HasOne .w32 (edgeKey t) (Fin.last (t + 1)) := by
  refine ⟨fun j => (edgeKey_le t j).trans_lt (show 4 < 16 by decide), by simp [edgeKey], ?_⟩
  change ¬ modulusTooLarge .w32 16
  decide

theorem edgeKey_before {t : ℕ} (j : Fin t) : (edgeKey t).element j.castSucc.castSucc = 0 := by
  have notLast : j.castSucc.castSucc ≠ Fin.last (t + 1) := (Fin.castSucc_lt_last _).ne
  have notPrevious : j.castSucc.castSucc ≠ (Fin.last t).castSucc :=
    fun h => (Fin.castSucc_lt_last j).ne (Fin.castSucc_injective _ h)
  simp only [edgeKey, if_neg notLast, if_neg notPrevious]

section Edge
variable (large : 16 < qKS) (hm : ¬ modulusTooLarge .w32 qKS) (mu : computeMu .w32 qKS = 0)

include large in
theorem switchKey_edgeKey (t : ℕ) : LWE.switchKey .w32 qKS (edgeKey t) = (edgeKey t).element := by
  funext j
  have small := edgeKey_le t j
  have half : ¬ (edgeKey t).element j > (edgeKey t).modulus / 2 := by
    change ¬ (edgeKey t).element j > 16 / 2
    omega
  rw [LWE.switchKey, switchModulus, if_pos (show qKS > (edgeKey t).modulus from large), if_neg half]

theorem edge_add {b x : ℕ} (hb : b + x < 2 ^ 32) :
    modAddFast .w32 b x qKS = if b + x ≥ qKS then b + x - qKS else b + x := by
  rw [modAddFast, NativeInteger.add, wrap_of_lt hb]

include large hm mu in
theorem edge_product {x : ℕ} (hx : x < qKS) :
    modMulFastMu .w32 x 4 qKS (computeMu .w32 qKS) = if x * 4 ≥ qKS then x * 4 - qKS else x * 4 := by
  have hlt := lt_of_not_tooLarge hm
  rw [modMulFastMu_eq_quotient (by omega) (mul_lt_double hm hx (by omega)), barrettQuotient, mu]
  dsimp only
  rw [Nat.mul_zero, Nat.zero_div, Nat.mul_zero, Nat.sub_zero, wrap_of_lt (by omega)]

include large hm mu in
theorem edge_entry {t : ℕ} {a : Fin (t + 2) → ℕ} (ha : Uniform qKS a) {v : ℕ} (hv : v < qKS) :
    LWE.switchingEntry .w32 qKS (edgeKey t).element a 0 v =
      modAddFast .w32
        (modAddFast .w32 v (if a (Fin.last t).castSucc * 4 ≥ qKS then a (Fin.last t).castSucc * 4 - qKS
          else a (Fin.last t).castSucc * 4) qKS)
        (a (Fin.last (t + 1))) qKS := by
  have hlt : qKS * 16 < 2 ^ 32 := lt_of_not_tooLarge hm
  have word : qKS ≤ 2 ^ NativeSize.w32.bits := by
    change qKS ≤ 2 ^ 32
    omega
  have first : modAdd .w32 0 v qKS = v := by
    rw [modAdd_eq (by omega) (show 2 * qKS ≤ 2 ^ 32 by omega), zero_add, Nat.mod_eq_of_lt hv]
  have skipped : ∀ l : List (Fin t), l.foldl (fun b j => modAddFast .w32 b
      (modMulFastMu .w32 (a j.castSucc.castSucc) ((edgeKey t).element j.castSucc.castSucc) qKS
        (computeMu .w32 qKS)) qKS) v = v := by
    intro l
    induction l with
    | nil => rfl
    | cons j rest ih =>
      have unchanged : modAddFast .w32 v 0 qKS = v := by
        rw [edge_add (by omega), if_neg (by omega), add_zero]
      rw [List.foldl_cons, edgeKey_before, modMulFastMu_of_lt (by omega) (by omega) word, Nat.mul_zero, unchanged, ih]
  have four : (edgeKey t).element (Fin.last t).castSucc = 4 := by
    simp [edgeKey, Fin.ext_iff]
  have one : (edgeKey t).element (Fin.last (t + 1)) = 1 := by simp [edgeKey]
  have last := ha (Fin.last (t + 1))
  rw [LWE.switchingEntry, first, List.finRange_succ_last, List.foldl_append, List.foldl_map, List.finRange_succ_last,
    List.foldl_append, List.foldl_map, skipped]
  simp only [List.foldl_cons, List.foldl_nil, four, one]
  rw [edge_product large hm mu (ha _), modMulFastMu_of_lt (by omega) (by omega) word, mul_one]

include large hm mu in
/-- With the digit value zero the entries end at `2 * qKS - 5`; with one they go one further. -/
theorem entryReached_edgeKey_ne (t : ℕ) {draw : (Fin (t + 2) → ℕ) → Prop} (drawn_iff : ∀ a, draw a ↔ Uniform qKS a) :
    entryReached .w32 draw qKS (LWE.switchKey .w32 qKS (edgeKey t)) 0 0 ≠
      entryReached .w32 draw qKS (LWE.switchKey .w32 qKS (edgeKey t)) 0 1 := by
  intro same
  have hlt : qKS * 16 < 2 ^ 32 := lt_of_not_tooLarge hm
  rw [switchKey_edgeKey large] at same
  have top : 2 * qKS - 4 ∈ entryReached .w32 draw qKS (edgeKey t).element 0 1 := by
    have drawn : Uniform qKS fun _ : Fin (t + 2) => qKS - 1 := fun _ => show qKS - 1 < qKS by omega
    refine ⟨fun _ => qKS - 1, (drawn_iff _).mpr drawn, (entry_accepted hm _ _ _ _).trans (congrArg Except.ok ?_)⟩
    have inner : modAddFast .w32 1 ((qKS - 1) * 4 - qKS) qKS = 2 * qKS - 3 := by
      rw [edge_add (by omega), if_pos (by omega)]
      omega
    rw [edge_entry large hm mu drawn (by omega), if_pos (by omega), inner, edge_add (by omega), if_pos (by omega)]
    omega
  rw [← same] at top
  obtain ⟨a, drawn, value⟩ := top
  have uniform := (drawn_iff a).mp drawn
  have value := Except.ok.inj ((entry_accepted hm _ _ _ _).symm.trans value)
  rw [edge_entry large hm mu uniform (by omega)] at value
  have previous := uniform (Fin.last t).castSucc
  have last := uniform (Fin.last (t + 1))
  generalize a (Fin.last t).castSucc = x at value previous
  generalize a (Fin.last (t + 1)) = c at value last
  have product : (if x * 4 ≥ qKS then x * 4 - qKS else x * 4) ≤ 3 * qKS - 4 := by
    split <;> omega
  generalize (if x * 4 ≥ qKS then x * 4 - qKS else x * 4) = y at value product
  have after : modAddFast .w32 0 y qKS ≤ 2 * qKS - 4 := by
    rw [edge_add (by omega)]
    split <;> omega
  generalize modAddFast .w32 0 y qKS = z at value after
  rw [edge_add (by omega)] at value
  split at value <;> omega

end Edge

/-- When the masks of an entry leave the digit value visible, some secret shows it. -/
theorem exists_entryReached_ne {B : ℕ} (hn : 0 < n) (hm : ¬ modulusTooLarge w qKS)
    (visible : 2 * B + 1 < qKS ∨ Unreduced w qKS n) :
    ∃ (sk : LWEPrivateKey n) (i : Fin n), HasOne w sk i ∧
      entryReached w (Gaussian B qKS) qKS (LWE.switchKey w qKS sk) 0 0 ≠
        entryReached w (Gaussian B qKS) qKS (LWE.switchKey w qKS sk) 0 1 := by
  by_cases gap : 2 * B + 1 < qKS
  · exact ⟨bitKey ⟨0, hn⟩, ⟨0, hn⟩, bitKey_hasOne _, entryReached_bitKey_ne hm gap _⟩
  · obtain ⟨rfl, largest, hn2⟩ := visible.resolve_left gap
    obtain ⟨t, rfl⟩ := Nat.exists_eq_add_of_le' hn2
    have mu : computeMu .w32 qKS = 0 := by
      rw [largest]
      decide
    have every : ∀ a : Fin (t + 2) → ℕ, Gaussian B qKS a ↔ Uniform qKS a :=
      fun a => ⟨gaussian_uniform, gaussian_of_uniform (by omega)⟩
    exact ⟨edgeKey t, Fin.last (t + 1), edgeKey_hasOne t, entryReached_edgeKey_ne (by omega) hm mu t every⟩

/-- The ring keys zero and one, whose digit values for `j = 1` and `l = 0` are zero and one. -/
def constKey {N : ℕ} (bit : ℕ) : LWEPrivateKey N := ⟨fun _ => bit, 2⟩

theorem digitValue_constKey {N baseKS bit : ℕ} (i : Fin N) (hbit : bit = 0 ∨ bit = 1) (h2 : 2 ≤ qKS) :
    LWE.digitValue w qKS baseKS (LWE.switchKey w qKS (constKey bit) i) 1 0 = bit := by
  have switched : LWE.switchKey w qKS (constKey bit) i = bit := switchModulus_bit hbit (le_refl 2) h2
  have word : 1 < 2 ^ w.bits := Nat.one_lt_two_pow (by cases w <;> decide)
  rw [LWE.digitValue, switched, mulIterate, NativeInteger.mul, mul_one, wrap_of_lt word, modMulFast, mul_one,
    Nat.mod_eq_of_lt (by omega)]

theorem digitValue_zero (baseKS v l : ℕ) : LWE.digitValue w qKS baseKS v 0 l = 0 := by
  simp [LWE.digitValue, NativeInteger.mul, wrap, modMulFast]

/-- When an entry keeps its digit value to itself. -/
def EntriesHide (w : NativeSize) (B n N qKS baseKS digitCount : ℕ) : Prop :=
  (qKS ≤ 2 * B + 1 ∧ ¬ Unreduced w qKS n) ∨ n = 0 ∨ N = 0 ∨ baseKS ≤ 1 ∨ digitCount = 0 ∨ modulusTooLarge w qKS

theorem entryReached_eq {B N baseKS digitCount : ℕ} (hide : EntriesHide w B n N qKS baseKS digitCount)
    {sk : LWEPrivateKey n} {i₀ : Fin n} (key : HasOne w sk i₀) (i : Fin N) {j j' l : ℕ} (hj : j < baseKS)
    (hj' : j' < baseKS) (hl : l < digitCount) (l' v v' e : ℕ) :
    entryReached w (Gaussian B qKS) qKS (LWE.switchKey w qKS sk) e (LWE.digitValue w qKS baseKS v j l) =
      entryReached w (Gaussian B qKS) qKS (LWE.switchKey w qKS sk) e (LWE.digitValue w qKS baseKS v' j' l') := by
  by_cases large : modulusTooLarge w qKS
  · rw [entryReached_rejected large, entryReached_rejected large]
  have := i₀.isLt
  have := i.isLt
  rcases hide with ⟨wide, reduced⟩ | hn | hN | base | digits | large'
  · have spikes : ∀ i, ∀ c < qKS, (Gaussian B qKS : (Fin n → ℕ) → Prop) (spike i c) :=
      fun i c hc => gaussian_of_uniform wide (uniform_spike hc i)
    rw [entryReached_everything (fun _ => gaussian_uniform) spikes large reduced key,
      entryReached_everything (fun _ => gaussian_uniform) spikes large reduced key]
  · omega
  · omega
  · obtain rfl : j = 0 := by omega
    obtain rfl : j' = 0 := by omega
    rw [digitValue_zero, digitValue_zero]
  · omega
  · exact absurd large' large

theorem lweKeySwitchHides_iff (w : NativeSize) (n N B qKS baseKS digitCount : ℕ) :
    LWEKeySwitchHides w N (Gaussian B qKS : (Fin n → ℕ) → Prop) qKS baseKS digitCount ↔
      EntriesHide w B n N qKS baseKS digitCount := by
  constructor
  · intro hides
    by_contra other
    unfold EntriesHide at other
    push Not at other
    obtain ⟨arc, hn, hN, base, digits, hm⟩ := other
    have visible : 2 * B + 1 < qKS ∨ Unreduced w qKS n := by
      by_cases gap : 2 * B + 1 < qKS
      · exact Or.inl gap
      · exact Or.inr (arc (by omega))
    have h2 : 2 ≤ qKS := by
      rcases visible with gap | ⟨-, largest, -⟩
      · omega
      · rw [largest]
        decide
    obtain ⟨sk, i₀, key, differ⟩ := exists_entryReached_ne (Nat.pos_of_ne_zero hn) hm visible
    let i : Fin N := ⟨0, Nat.pos_of_ne_zero hN⟩
    have same := hides sk i₀ key (constKey 0) (constKey 1) i i 1 base 1 base 0 (Nat.pos_of_ne_zero digits) 0
      (Nat.pos_of_ne_zero digits) (fun _ _ _ => 0) (fun _ _ _ => 0) rfl (show 0 < qKS by omega)
    rw [lweKeySwitch_reached, lweKeySwitch_reached, digitValue_constKey i (Or.inl rfl) h2,
      digitValue_constKey i (Or.inr rfl) h2] at same
    exact differ same
  · intro hide sk i₀ key skN skN' i i' j hj j' hj' l hl l' _ errors errors' sameError _
    rw [lweKeySwitch_reached, lweKeySwitch_reached, ← sameError]
    exact entryReached_eq hide key i hj hj' hl _ _ _ _

theorem mklweKeySwitchHides_iff (w : NativeSize) (k n N B qKS baseKS digitCount : ℕ) :
    MKLWEKeySwitchHides w k N (Gaussian B qKS : (Fin n → ℕ) → Prop) qKS baseKS digitCount ↔
      EntriesHide w B n N qKS baseKS digitCount ∨ k = 0 := by
  constructor
  · intro hides
    rw [← lweKeySwitchHides_iff]
    by_cases hk : k = 0
    · exact Or.inr hk
    · -- One party of the multi-key version is the single-key version.
      refine Or.inl fun sk i₀ key skN skN' i i' j hj j' hj' l hl l' hl' errors errors' sameError small => ?_
      let u : Fin k := ⟨0, Nat.pos_of_ne_zero hk⟩
      have same := hides (fun _ => sk) u i₀ key (fun _ => skN) (fun _ => skN') i i' j hj j' hj' l hl l' hl'
        (fun _ => errors) (fun _ => errors') sameError small
      rw [mklweKeySwitch_reached, mklweKeySwitch_reached] at same
      rw [lweKeySwitch_reached, lweKeySwitch_reached]
      exact same
  · intro hide sk u i₀ key skN skN' i i' j hj j' hj' l hl l' _ errors errors' sameError _
    have := u.isLt
    rw [mklweKeySwitch_reached, mklweKeySwitch_reached, ← sameError]
    exact entryReached_eq (hide.resolve_right (by omega)) key i hj hj' hl _ _ _ _

end SwitchingKeys

end Masks
end MultiKeyFHE
