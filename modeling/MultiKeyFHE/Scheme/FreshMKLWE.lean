import MultiKeyFHE.Scheme.KeySwitch

/-!
# Fresh MKLWE ciphertexts

`Decrypt` after `Encrypt`. `Encrypt` adds the products of all parties in one word, `Decrypt` those of one party, and
`p * r` is formed in a word as well.
-/

namespace MultiKeyFHE
open NativeInteger NativeVector

namespace NativeVector
variable {w : NativeSize} {n : ℕ}

/-- No addition of `addProducts` loses a carry. -/
def ProductsKeep (w : NativeSize) (mod : ℕ) (a s : Fin n → ℕ) (inner : ℕ) : Prop :=
  Run.EveryStep (fun inner i => NativeInteger.add w inner (modMulFastMu w (a i) (s i) mod (computeMu w mod)))
    (fun inner i => inner + modMulFastMu w (a i) (s i) mod (computeMu w mod) < 2 ^ w.bits) inner (List.finRange n)

theorem productsKeep_iff {mod : ℕ} (h2 : 2 ≤ mod) (hm : mod ≤ 2 ^ w.bits) {a s : Fin n → ℕ}
    (small : ∀ i, a i * s i < mod) {inner : ℕ} (word : inner < 2 ^ w.bits) :
    ProductsKeep w mod a s inner ↔ inner + ∑ i, a i * s i < 2 ^ w.bits := by
  have products : ∀ i, modMulFastMu w (a i) (s i) mod (computeMu w mod) = a i * s i := fun i =>
    modMulFastMu_of_lt h2 (small i) hm
  rw [ProductsKeep, Fin.sum_univ_def]
  simp only [products]
  exact Run.everyStep_add_iff (fun i => a i * s i) (List.finRange n) word

end NativeVector

namespace MKLWE
variable {w : NativeSize} {k n mod : ℕ}

/-- The running sum `b` of `Encrypt` loses no carry. -/
def EncryptKeeps (w : NativeSize) (keyModulus : ℕ) (s : Fin k → Fin n → ℕ) (e : ℕ) (a : Fin k → Fin n → ℕ) (m : ℤ) (p mod : ℕ) :
    Prop :=
  (asUnsigned m % p * (mod / p) < 2 ^ w.bits ∧ asUnsigned m % p * (mod / p) + e < 2 ^ w.bits) ∧
    Run.EveryStep (fun b u => addProducts w mod (a u) (LWE.switchKey w mod ⟨s u, keyModulus⟩) b)
      (fun b u => ProductsKeep w mod (a u) (LWE.switchKey w mod ⟨s u, keyModulus⟩) b)
      (NativeInteger.add w (NativeInteger.mul w (asUnsigned m % p) (mod / p)) e) (List.finRange k)

/-- The running sum `inner` of `Decrypt` loses no carry. -/
def DecryptKeeps (w : NativeSize) (keyModulus : ℕ) (s : Fin k → Fin n → ℕ) (ct : MKLWECiphertext k n) : Prop :=
  Run.EveryStep (fun inner u =>
      addProducts w ct.modulus (ct.a u) (fun i => switchModulus w keyModulus ct.modulus (s u i)) inner % ct.modulus)
    (fun inner u => ProductsKeep w ct.modulus (ct.a u) (fun i => switchModulus w keyModulus ct.modulus (s u i)) inner)
    0 (List.finRange k)

/-- Binary keys and reduced masks. -/
structure FreshInputs (w : NativeSize) (keyModulus : ℕ) (s : Fin k → Fin n → ℕ) (e : ℕ) (a : Fin k → Fin n → ℕ) (mod : ℕ) : Prop where
  room : ¬ modulusTooLarge w mod
  large : 2 ≤ mod
  key : 2 ≤ keyModulus
  bit : ∀ u i, s u i = 0 ∨ s u i = 1
  a_lt : ∀ u i, a u i < mod
  e_lt : e < mod

namespace FreshInputs
variable {keyModulus : ℕ} {s : Fin k → Fin n → ℕ} {e : ℕ} {a : Fin k → Fin n → ℕ}

theorem switched (inputs : FreshInputs w keyModulus s e a mod) (u : Fin k) :
    (fun i => switchModulus w keyModulus mod (s u i)) = s u :=
  funext fun i => switchModulus_bit (inputs.bit u i) inputs.key inputs.large

theorem product_lt (inputs : FreshInputs w keyModulus s e a mod) (u : Fin k) (i : Fin n) : a u i * s u i < mod :=
  LWE.product_lt (inputs.a_lt u i) (inputs.bit u i)

theorem word (inputs : FreshInputs w keyModulus s e a mod) : 16 * mod < 2 ^ w.bits := by
  have := lt_of_not_tooLarge inputs.room
  omega

theorem start_lt (inputs : FreshInputs w keyModulus s e a mod) (m : ℕ) {p : ℕ} (hp : 0 < p) :
    m % p * (mod / p) ≤ mod ∧ m % p * (mod / p) + e < 2 ^ w.bits := by
  have step : m % p * (mod / p) ≤ mod :=
    (Nat.mul_le_mul_right _ (Nat.mod_lt m hp).le).trans (Nat.mul_div_le mod p)
  have := inputs.word
  have := inputs.e_lt
  exact ⟨step, by omega⟩

theorem start_eq (inputs : FreshInputs w keyModulus s e a mod) (m : ℕ) {p : ℕ} (hp : 0 < p) :
    NativeInteger.add w (NativeInteger.mul w (m % p) (mod / p)) e = m % p * (mod / p) + e := by
  obtain ⟨step, start⟩ := inputs.start_lt m hp
  have := inputs.word
  rw [NativeInteger.mul, wrap_of_lt (by omega), NativeInteger.add, wrap_of_lt start]

/-- All steps of `Encrypt` fit exactly where the whole sum does. -/
theorem encryptKeeps_iff (inputs : FreshInputs w keyModulus s e a mod) (m : ℤ) {p : ℕ} (hp : 0 < p) :
    EncryptKeeps w keyModulus s e a m p mod ↔
      asUnsigned m % p * (mod / p) + e + ∑ u, ∑ i, a u i * s u i < 2 ^ w.bits := by
  obtain ⟨step, start⟩ := inputs.start_lt (asUnsigned m) hp
  have word := inputs.word
  have once : ∀ (b : ℕ) u, b < 2 ^ w.bits →
      addProducts w mod (a u) (LWE.switchKey w mod ⟨s u, keyModulus⟩) b < 2 ^ w.bits ∧
      addProducts w mod (a u) (LWE.switchKey w mod ⟨s u, keyModulus⟩) b = (b + ∑ i, a u i * s u i) % 2 ^ w.bits ∧
      (ProductsKeep w mod (a u) (LWE.switchKey w mod ⟨s u, keyModulus⟩) b ↔ b + ∑ i, a u i * s u i < 2 ^ w.bits) := by
    intro b u below
    have key : LWE.switchKey w mod ⟨s u, keyModulus⟩ = s u := inputs.switched u
    have wrapped := addProducts_wrap inputs.large (by omega) (inputs.product_lt u) below
    rw [key]
    exact ⟨wrapped ▸ Nat.mod_lt _ (by positivity), wrapped,
      productsKeep_iff inputs.large (by omega) (inputs.product_lt u) below⟩
  rw [EncryptKeeps, inputs.start_eq (asUnsigned m) hp, Fin.sum_univ_def, ← Run.everyStep_add_iff _ _ start,
    Run.everyStep_congr (· < 2 ^ w.bits) once _ start]
  exact and_iff_right ⟨by omega, start⟩

/-- Where the carries stay, `b` is the whole sum. -/
theorem encrypt_ok (inputs : FreshInputs w keyModulus s e a mod) (m : ℤ) {p : ℕ} (hp : 0 < p) :
    ∃ ct, encrypt w keyModulus s e a m p mod = .ok ct ∧ ct.a = a ∧ ct.modulus = mod ∧
      (asUnsigned m % p * (mod / p) + e + ∑ u, ∑ i, a u i * s u i < 2 ^ w.bits →
        ct.b = (asUnsigned m % p * (mod / p) + e + ∑ u, ∑ i, a u i * s u i) % mod) := by
  have word := inputs.word
  have guard : ¬ (mod % p ≠ 0 ∧ mod &&& (if 1 = 0 then 1 else 0) ≠ 0) := by simp
  refine ⟨_, by rw [encrypt, if_neg guard, setModulus, if_neg inputs.room]; rfl, rfl, rfl, ?_⟩
  dsimp only
  rw [inputs.start_eq (asUnsigned m) hp, Fin.sum_univ_def]
  intro fits
  congr 1
  revert fits
  generalize asUnsigned m % p * (mod / p) + e = b
  induction List.finRange k generalizing b with
  | nil => simp
  | cons u rest ih =>
    intro fits
    have key : LWE.switchKey w mod ⟨s u, keyModulus⟩ = s u := inputs.switched u
    rw [List.map_cons, List.sum_cons, ← add_assoc] at fits ⊢
    rw [List.foldl_cons, key, addProducts_of_lt inputs.large (by omega) (inputs.product_lt u) (by omega), ih _ fits]

/-- What `Encrypt` can add without a carry, `Decrypt` can. -/
theorem decryptKeeps (inputs : FreshInputs w keyModulus s e a mod) {ct : MKLWECiphertext k n} (vectors : ct.a = a)
    (modulus : ct.modulus = mod) (fits : ∑ u, ∑ i, a u i * s u i < 2 ^ w.bits) :
    DecryptKeeps w keyModulus s ct ∧ innerProduct w keyModulus s ct = (∑ u, ∑ i, a u i * s u i) % mod := by
  have word := inputs.word
  have large := inputs.large
  suffices all : ∀ (l : List (Fin k)) (inner before : ℕ), inner ≤ before → inner < mod →
      before + (l.map fun u => ∑ i, a u i * s u i).sum < 2 ^ w.bits →
      Run.EveryStep (fun inner u => addProducts w mod (a u) (s u) inner % mod)
        (fun inner u => ProductsKeep w mod (a u) (s u) inner) inner l ∧
      l.foldl (fun inner u => addProducts w mod (a u) (s u) inner % mod) inner =
        (inner + (l.map fun u => ∑ i, a u i * s u i).sum) % mod by
    rw [DecryptKeeps, innerProduct, vectors, modulus]
    simp only [inputs.switched]
    rw [Fin.sum_univ_def] at fits ⊢
    simpa using all (List.finRange k) 0 0 le_rfl (by omega) (by rwa [zero_add])
  intro l
  induction l with
  | nil =>
    intro inner before _ reduced _
    exact ⟨trivial, by simp [Nat.mod_eq_of_lt reduced]⟩
  | cons u rest ih =>
    intro inner before le reduced fits
    rw [List.map_cons, List.sum_cons, ← add_assoc] at fits
    have sum := addProducts_of_lt inputs.large (by omega) (inputs.product_lt u)
      (show inner + ∑ i, a u i * s u i < 2 ^ w.bits by omega)
    obtain ⟨keeps, value⟩ := ih ((inner + ∑ i, a u i * s u i) % mod) (before + ∑ i, a u i * s u i)
      ((Nat.mod_le _ _).trans (by omega)) (Nat.mod_lt _ (by omega)) fits
    rw [Run.EveryStep, List.foldl_cons, sum, value, List.map_cons, List.sum_cons, Nat.mod_add_mod, add_assoc]
    exact ⟨⟨(productsKeep_iff inputs.large (by omega) (inputs.product_lt u) (by omega)).mpr (by omega), keeps⟩, rfl⟩

end FreshInputs

/-- The phase of a fresh ciphertext with the shift of `Decrypt`. -/
def shiftedPhase (m : ℤ) (p e mod : ℕ) : ℤ := (asUnsigned m % p : ℕ) * (mod / p : ℕ) + centered mod e + (mod / (2 * p) : ℕ)

/-- The last product fits the word. After a conversion that has changed the message modulo `p`, it wraps by what the conversion
has added. -/
def MessageReturns (w : NativeSize) (m : ℤ) (p e mod : ℕ) : Prop :=
  if 0 ≤ m ∨ p ∣ 2 ^ 64 then p * shiftedPhase m p e mod < 2 ^ w.bits
  else m % p * mod ≤ p * shiftedPhase m p e mod % 2 ^ w.bits ∧ p * shiftedPhase m p e mod % 2 ^ w.bits < (m % p + 1) * mod

/-- `Decrypt` brings the message back and no running sum loses a carry exactly where the whole sum and the last product fit
the word. -/
theorem decrypt_encrypt_iff {keyModulus : ℕ} {s : Fin k → Fin n → ℕ} {e : ℕ} {a : Fin k → Fin n → ℕ}
    (inputs : FreshInputs w keyModulus s e a mod) {m : ℤ} (low : -2 ^ 63 ≤ m) {p : ℕ} (hp : 0 < p)
    (noise : |centered mod e| ≤ (mod / (2 * p) : ℕ) - p) :
    ∃ ct, encrypt w keyModulus s e a m p mod = .ok ct ∧
      ((EncryptKeeps w keyModulus s e a m p mod ∧ DecryptKeeps w keyModulus s ct ∧
          decrypt w keyModulus s ct p = .ok (m % p).toNat) ↔
        asUnsigned m % p * (mod / p) + e + ∑ u, ∑ i, a u i * s u i < 2 ^ w.bits ∧ MessageReturns w m p e mod) := by
  have word := inputs.word
  have large := inputs.large
  obtain ⟨ct, run, vectors, modulus, stored⟩ := inputs.encrypt_ok m hp
  refine ⟨ct, run, ?_⟩
  rw [inputs.encryptKeeps_iff m hp]
  refine and_congr_right fun fits => ?_
  obtain ⟨keeps, inner⟩ := inputs.decryptKeeps vectors modulus (by omega)
  rw [and_iff_right keeps]
  have hmp : asUnsigned m % p < p := Nat.mod_lt _ hp
  -- `b - <a, s>` is the message and the noise modulo `mod`
  have inner_lt : (∑ u, ∑ i, a u i * s u i) % mod < mod := Nat.mod_lt _ (by omega)
  have b_lt : ct.b < mod := by
    rw [stored fits]
    exact Nat.mod_lt _ (by omega)
  have difference : ((modSubFast w ct.b ((∑ u, ∑ i, a u i * s u i) % mod) mod : ℕ) : ℤ) ≡
      (asUnsigned m % p : ℕ) * (mod / p : ℕ) + centered mod e [ZMOD mod] := by
    refine (modSubFast_cast b_lt inner_lt (by omega)).trans ?_
    rw [stored fits, Int.natCast_mod, Int.natCast_mod]
    refine ((Int.mod_modEq _ _).sub (Int.mod_modEq _ _)).trans ?_
    rw [Nat.cast_add, add_sub_cancel_right, Nat.cast_add, Nat.cast_mul]
    exact (centered_modEq mod e).symm.add_left _
  obtain ⟨t, ht⟩ := difference.symm.dvd
  obtain ⟨lo, hi⟩ := fresh_between hp hmp noise
  have shifted : ((modSubFast w ct.b ((∑ u, ∑ i, a u i * s u i) % mod) mod : ℕ) : ℤ) + (mod / (2 * p) : ℕ) - t * mod =
      shiftedPhase m p e mod := by
    rw [shiftedPhase]
    linarith
  have halfStep : mod / (2 * p) < mod := Nat.div_lt_self (by omega) (by omega)
  have r_lt : modSubFast w ct.b ((∑ u, ∑ i, a u i * s u i) % mod) mod < mod := modSubFast_lt b_lt inner_lt (by omega)
  obtain ⟨r, value, -, decoded, lower, upper⟩ := decode_value inputs.room r_lt halfStep hmp
    (by rw [shifted]; exact lo) (by rw [shifted]; exact hi)
  rw [shifted] at value
  rw [decrypt, if_neg (by simp), modulus, setModulus, if_neg inputs.room, inner, mul_comm p 2]
  dsimp only [bind, Except.bind, pure, Except.pure]
  rw [decoded, Except.ok.injEq, MessageReturns, ← value]
  split
  · rename_i kept
    rw [asUnsigned_mod_eq low kept, Int.toNat_natCast, wrap_div_eq_iff (by omega) lower upper]
    exact_mod_cast Iff.rfl
  · obtain ⟨T, hT⟩ := Int.eq_ofNat_of_zero_le (Int.emod_nonneg m (show (p : ℤ) ≠ 0 by omega))
    have below : p * r % 2 ^ w.bits ≤ T * mod + mod - 1 ↔ p * r % 2 ^ w.bits < (T + 1) * mod := by
      rw [add_mul, one_mul]
      omega
    rw [hT, Int.toNat_natCast, wrap, Nat.div_eq_iff (by omega), below]
    exact_mod_cast Iff.rfl

/-- Two parties with 22 full masks each modulo a 27-bit number, in the 32-bit build: `b` passes the end of the word once, which
is half the modulus, and the message 1 comes back as 3. With the modulus 257 the message -1 comes back as 0 modulo three. -/
theorem two_parties_wrap :
    let s : Fin 2 → Fin 22 → ℕ := fun _ _ => 1
    let a : Fin 2 → Fin 22 → ℕ := fun _ _ => 101058053
    FreshInputs .w32 101058054 s 0 a 101058054 ∧ |centered 101058054 0| ≤ (101058054 / (2 * 4) : ℕ) - 4 ∧
      ¬ EncryptKeeps .w32 101058054 s 0 a 1 4 101058054 ∧
      (encrypt .w32 101058054 s 0 a 1 4 101058054 >>= fun ct => decrypt .w32 101058054 s ct 4) = .ok 3 ∧
      (-1 : ℤ) % 3 = 2 ∧ (encrypt .w32 257 s 0 a (-1) 3 257 >>= fun ct => decrypt .w32 257 s ct 3) = .ok 0 := by
  intro s a
  have inputs : FreshInputs .w32 101058054 s 0 a 101058054 :=
    ⟨by decide +kernel, by decide, by decide, fun _ _ => .inr rfl, fun _ _ => by decide, by decide⟩
  refine ⟨inputs, by decide, ?_, by decide +kernel, by decide, by decide +kernel⟩
  rw [inputs.encryptKeeps_iff 1 (by decide)]
  decide +kernel

/-- Two parties modulo 257, which three does not divide, with the noise 3. -/
theorem small_message_decrypts :
    let s : Fin 2 → Fin 2 → ℕ := fun _ => ![1, 0]
    let a : Fin 2 → Fin 2 → ℕ := ![![200, 17], ![256, 5]]
    ∃ ct, encrypt .w32 257 s 3 a 2 3 257 = .ok ct ∧ EncryptKeeps .w32 257 s 3 a 2 3 257 ∧ DecryptKeeps .w32 257 s ct ∧
      decrypt .w32 257 s ct 3 = .ok 2 := by
  intro s a
  have inputs : FreshInputs .w32 257 s 3 a 257 := ⟨by decide, by decide, by decide, by decide, by decide, by decide⟩
  obtain ⟨ct, run, back⟩ := decrypt_encrypt_iff inputs (m := 2) (p := 3) (by decide) (by decide) (by decide)
  exact ⟨ct, run, back.mpr ⟨by decide, (if_pos (.inl (by decide))).mpr (by decide)⟩⟩

end MKLWE
end MultiKeyFHE
