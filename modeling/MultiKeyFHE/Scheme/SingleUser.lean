import MultiKeyFHE.Scheme.KeySwitch

/-!
# One party

With one party the multi-key scheme is the single-key scheme: every operation commutes with the map that takes `(a, b)` to
the ciphertext with `a` as its only vector. The two are written apart, with the loops nested and reduced in other places.
-/

namespace MultiKeyFHE
open NativeInteger NativeVector

/-- The ciphertext with `a` as the vector of the only party. -/
def LWECiphertext.ofSingle {n : ℕ} (ct : LWECiphertext n) : MKLWECiphertext 1 n :=
  { a := fun _ => ct.a, b := ct.b, modulus := ct.modulus, p := ct.p }

namespace MKLWE
variable {w : NativeSize} {n N : ℕ}

/-- The entries that belong to one party. -/
def SwitchingKey.party {k qKS : ℕ} (K : SwitchingKey k N n qKS) (u : Fin k) : LWE.SwitchingKey N n := ⟨K.A u, K.B u⟩

theorem encrypt_single (sk : LWEPrivateKey n) (e : ℕ) (a : Fin n → ℕ) (m p mod : ℕ) :
    encrypt w sk.modulus (fun _ : Fin 1 => sk.element) e (fun _ => a) m p mod =
      LWECiphertext.ofSingle <$> LWE.encrypt w sk e a m p mod := by
  have never : ¬ (mod % p ≠ 0 ∧ mod &&& (if 1 = 0 then 1 else 0) ≠ 0) := by simp
  rw [encrypt, LWE.encrypt, if_neg never, if_neg never]
  cases setModulus w mod with
  | error fault => rfl
  | ok _ => rfl

theorem innerProduct_single (sk : LWEPrivateKey n) (ct : LWECiphertext n) :
    innerProduct w sk.modulus (fun _ => sk.element) ct.ofSingle =
      addProducts w ct.modulus ct.a (LWE.switchKey w ct.modulus sk) 0 % ct.modulus := rfl

theorem decrypt_single (sk : LWEPrivateKey n) (ct : LWECiphertext n) (p : ℕ) :
    decrypt w sk.modulus (fun _ => sk.element) ct.ofSingle p = LWE.decrypt w sk ct p := by
  have never : ¬ (ct.modulus % (p * 2) ≠ 0 ∧ ct.modulus &&& (if 1 = 0 then 1 else 0) ≠ 0) := by simp
  rw [decrypt, LWE.decrypt, innerProduct_single, show ct.ofSingle.modulus = ct.modulus from rfl, if_neg never, if_neg never]
  rfl

theorem evalAddEq_single (ct1 ct2 : LWECiphertext n) :
    evalAddEq w ct1.ofSingle ct2.ofSingle = LWECiphertext.ofSingle <$> LWE.evalAddEq w ct1 ct2 := by
  rw [evalAddEq, LWE.evalAddEq, show ct1.ofSingle.modulus = ct1.modulus from rfl,
    show ct2.ofSingle.modulus = ct2.modulus from rfl]
  split <;> rfl

theorem evalSubEq_single (ct1 ct2 : LWECiphertext n) :
    evalSubEq w ct1.ofSingle ct2.ofSingle = LWECiphertext.ofSingle <$> LWE.evalSubEq w ct1 ct2 := by
  rw [evalSubEq, LWE.evalSubEq, show ct1.ofSingle.modulus = ct1.modulus from rfl,
    show ct2.ofSingle.modulus = ct2.modulus from rfl]
  split <;> rfl

theorem modSwitch_single (round : FloorRound) (q : ℕ) (ctQ : LWECiphertext n) :
    modSwitch round q ctQ.ofSingle = .ok (LWE.modSwitch round q ctQ).ofSingle := rfl

theorem keySwitchGen_single (qKS baseKS : ℕ) (sk : LWEPrivateKey n) (skN : LWEPrivateKey N)
    (masks : Fin N → ℕ → ℕ → Fin n → ℕ) (errors : Fin N → ℕ → ℕ → ℕ) :
    keySwitchGen w qKS baseKS (fun _ : Fin 1 => sk) (fun _ => skN) (fun _ => masks) (fun _ => errors) =
      (fun K _ => K) <$> LWE.keySwitchGen w qKS baseKS sk skN masks errors := by
  rw [keySwitchGen, LWE.keySwitchGen]
  cases setModulus w qKS with
  | error fault => rfl
  | ok _ => rfl

theorem keySwitchStep_single {qKS : ℕ} (K : SwitchingKey 1 N n qKS) (baseKS : ℕ) (ctQN : LWECiphertext N)
    (ct : LWECiphertext n) (i : Fin N) (j : ℕ) :
    keySwitchStep w K baseKS ctQN.ofSingle ct.ofSingle 0 i j =
      (LWE.keySwitchStep w qKS (K.party 0) baseKS ctQN ct (i, j)).ofSingle := by
  refine MKLWECiphertext.ext (funext fun v => funext fun l => ?_) rfl rfl rfl
  rw [Subsingleton.elim v 0]
  simp only [keySwitchStep, if_true]
  rfl

theorem keySwitch_single {qKS : ℕ} (K : SwitchingKey 1 N n qKS) (baseKS digitCount : ℕ) (ctQN : LWECiphertext N) :
    keySwitch w K baseKS digitCount ctQN.ofSingle =
      (LWE.keySwitch w qKS (K.party 0) baseKS digitCount ctQN).ofSingle := by
  have only : Run.gridIndices 1 N = (List.finRange N).map fun i => (0, i) := by
    simp [Run.gridIndices, List.finRange_succ]
  rw [keySwitch, LWE.keySwitch, only, List.foldl_map, Run.foldl_product]
  have digits : ∀ (ct : LWECiphertext n) (i : Fin N),
      (List.range digitCount).foldl (fun ct j => keySwitchStep w K baseKS ctQN.ofSingle ct 0 i j) ct.ofSingle =
        ((List.range digitCount).foldl (fun ct j => LWE.keySwitchStep w qKS (K.party 0) baseKS ctQN ct (i, j)) ct).ofSingle :=
    fun ct i => List.foldl_hom LWECiphertext.ofSingle fun ct j => keySwitchStep_single K baseKS ctQN ct i j
  have all : ∀ (entries : List (Fin N)) (ct : LWECiphertext n),
      entries.foldl (fun ct i =>
        (List.range digitCount).foldl (fun ct j => keySwitchStep w K baseKS ctQN.ofSingle ct 0 i j) ct) ct.ofSingle =
      (entries.foldl (fun ct i =>
        (List.range digitCount).foldl (fun ct j => LWE.keySwitchStep w qKS (K.party 0) baseKS ctQN ct (i, j)) ct) ct).ofSingle := by
    intro entries
    induction entries with
    | nil => exact fun _ => rfl
    | cons i rest ih => intro ct; rw [List.foldl_cons, digits, ih, List.foldl_cons]
  exact all (List.finRange N) ⟨fun _ => 0, ctQN.b, qKS, 4⟩

/-- What the two schemes do is the same, operation by operation. -/
structure SingleUserAgrees (w : NativeSize) (round : FloorRound) (n N : ℕ) : Prop where
  encrypt (sk : LWEPrivateKey n) (e : ℕ) (a : Fin n → ℕ) (m p mod : ℕ) :
    MKLWE.encrypt w sk.modulus (fun _ : Fin 1 => sk.element) e (fun _ => a) m p mod =
      LWECiphertext.ofSingle <$> LWE.encrypt w sk e a m p mod
  decrypt (sk : LWEPrivateKey n) (ct : LWECiphertext n) (p : ℕ) :
    MKLWE.decrypt w sk.modulus (fun _ => sk.element) ct.ofSingle p = LWE.decrypt w sk ct p
  evalAddEq (ct1 ct2 : LWECiphertext n) :
    MKLWE.evalAddEq w ct1.ofSingle ct2.ofSingle = LWECiphertext.ofSingle <$> LWE.evalAddEq w ct1 ct2
  evalSubEq (ct1 ct2 : LWECiphertext n) :
    MKLWE.evalSubEq w ct1.ofSingle ct2.ofSingle = LWECiphertext.ofSingle <$> LWE.evalSubEq w ct1 ct2
  modSwitch (q : ℕ) (ctQ : LWECiphertext n) :
    MKLWE.modSwitch round q ctQ.ofSingle = .ok (LWE.modSwitch round q ctQ).ofSingle
  keySwitchGen (qKS baseKS : ℕ) (sk : LWEPrivateKey n) (skN : LWEPrivateKey N) (masks : Fin N → ℕ → ℕ → Fin n → ℕ)
    (errors : Fin N → ℕ → ℕ → ℕ) :
    MKLWE.keySwitchGen w qKS baseKS (fun _ : Fin 1 => sk) (fun _ => skN) (fun _ => masks) (fun _ => errors) =
      (fun K _ => K) <$> LWE.keySwitchGen w qKS baseKS sk skN masks errors
  keySwitch {qKS : ℕ} (K : SwitchingKey 1 N n qKS) (baseKS digitCount : ℕ) (ctQN : LWECiphertext N) :
    MKLWE.keySwitch w K baseKS digitCount ctQN.ofSingle =
      (LWE.keySwitch w qKS (K.party 0) baseKS digitCount ctQN).ofSingle

end MKLWE
end MultiKeyFHE
