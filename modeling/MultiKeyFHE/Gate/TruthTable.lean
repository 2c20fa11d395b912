import MultiKeyFHE.Gate.MKLWE
import MultiKeyFHE.Gate.MNTRU

/-!
# The gate that was asked for

`BinFHEContext::EvalBinGate` hands its gate argument to the multi-key `EvalBinGate`s, which pass it on and read
it nowhere. So whatever gate is asked for, two bits come out as their NAND.
-/

namespace MultiKeyFHE
open NativeInteger UniEncAccumulator MNTRU Circle

variable {w : NativeSize}

/-- An evaluation does what was asked: it throws, or its result decrypts to the gate's value. -/
def BinGate.Answered {α : Type} (g : BinGate) (m1 m2 : Bool) (evaluated : Except Fault α)
    (decrypt : α → Except Fault ℕ) : Prop :=
  (∃ fault, evaluated = .error fault) ∨
    ∃ f, g.truthTable = some f ∧ evaluated >>= decrypt = .ok (f m1 m2).toNat

theorem BinGate.answered_nand {α : Type} {m1 m2 : Bool} {evaluated : Except Fault α} {decrypt : α → Except Fault ℕ}
    {ct : α} (run : evaluated = .ok ct) (read : decrypt ct = .ok (!(m1 && m2)).toNat) (g : BinGate) :
    g.Answered m1 m2 evaluated decrypt ↔ ∃ f, g.truthTable = some f ∧ f m1 m2 = !(m1 && m2) := by
  subst run
  have value : (Except.ok ct >>= decrypt) = .ok (!(m1 && m2)).toNat := read
  constructor
  · rintro (⟨fault, failed⟩ | ⟨f, table, result⟩)
    · cases failed
    · rw [value] at result
      have bits := Except.ok.inj result
      refine ⟨f, table, ?_⟩
      revert bits
      cases f m1 m2 <;> cases m1 && m2 <;> decide
  · rintro ⟨f, table, same⟩
    exact .inr ⟨f, table, by rw [value, same]⟩

theorem BinGate.eq_nand {g : BinGate} (all : ∀ m1 m2, ∃ f, g.truthTable = some f ∧ f m1 m2 = !(m1 && m2)) :
    g = .NAND := by
  obtain ⟨f, table, ff⟩ := all false false
  obtain ⟨f', table', ft⟩ := all false true
  cases table.symm.trans table'
  cases g <;> simp only [truthTable, Option.some.injEq, reduceCtorEq] at table <;> subst table <;>
    simp_all

/-! ### The two schemes -/

/-- A multi-key MNTRU system whose parts keep to a noise budget that lets fresh ciphertexts through a gate. -/
structure MNTRUSystem (w : NativeSize) where
  p : UniEncParams w
  pp : MNTRUParams p
  budget : MNTRUGate.Budget
  round : FloorRound
  EK : MNTRUGate.EvalKeys pp
  skf : Acc p
  F : Fin p.k → Fin pp.n → Fin pp.n → ℕ
  F_inv : Fin p.k → Fin pp.n → Fin pp.n → ℕ
  ctNAND : MNTRUCiphertext p.k pp.n
  generated : Generated (ofMatrices F F_inv pp.q)
  faithful : MNTRUGate.Faithful budget round EK skf (ofMatrices F F_inv pp.q)
  sized : MNTRUGate.Sized pp
  constant : MNTRUGate.HoldsConstant budget.constant (ofMatrices F F_inv pp.q) ctNAND
  room : budget.rotation + (budget.constant + 2) < (pp.q : ℚ) / 8
  readable : budget.switching + (budget.coefficient + pp.qKS / 256) + 1 < (pp.qKS : ℚ) / 8

namespace MNTRUSystem
variable (S : MNTRUSystem w)

def sk : MNTRUPrivateKey S.p.k S.pp.n := ofMatrices S.F S.F_inv S.pp.q

/-- The gate is answered on all pairs of ciphertexts whose noise together stays within the margin of an eighth. -/
def Answers (g : BinGate) : Prop :=
  ∀ (addr1 addr2 : ℕ) (ct1 ct2 : MNTRUCiphertext S.p.k S.pp.n) (m1 m2 : Bool) (ε δ : ℚ), addr1 ≠ addr2 →
    MNTRUGate.EncodesWithin ε S.sk ct1 m1 → MNTRUGate.EncodesWithin δ S.sk ct2 m2 →
    S.budget.rotation + (S.budget.constant + (ε + δ)) < S.pp.q / 8 →
    g.Answered m1 m2 (MNTRUGate.evalBinGate S.round g S.EK S.ctNAND addr1 addr2 ct1 ct2) fun ct =>
      MNTRU.decrypt w S.sk ct 4

theorem decrypt_output {ct : MNTRUCiphertext S.p.k S.pp.n} {m : Bool} (reduced : MNTRU.Reduced ct)
    (modulus : ct.modulus = S.pp.qKS)
    (near : Near S.pp.qKS (S.budget.switching + (S.budget.coefficient + S.pp.qKS / 256)) (MNTRU.phase S.sk ct)
      (m.toNat * S.pp.qKS / 4 - S.pp.qKS / 8)) : MNTRU.decrypt w S.sk ct 4 = .ok m.toNat := by
  have hq := S.sized.largeKS
  have quarter : Near S.pp.qKS 1 (S.pp.qKS / 4 : ℕ) (S.pp.qKS / 4) := by
    simpa using floor_near S.pp.qKS (show 0 < 4 by omega) S.pp.qKS
  have shifted := near.add quarter
  rw [show (m.toNat : ℚ) * S.pp.qKS / 4 - S.pp.qKS / 8 + S.pp.qKS / 4 = m.toNat * S.pp.qKS / 4 + S.pp.qKS / 8 by ring]
    at shifted
  rw [← modulus] at shifted hq
  have small := S.readable
  rw [← modulus] at small
  exact decryptShifted_eq S.generated reduced (by omega) (modulus ▸ S.pp.qKS_ok) S.pp.q_ok (by cases m <;> decide)
    (by omega) shifted small

theorem answered_iff (g : BinGate) {addr1 addr2 : ℕ} {ct1 ct2 : MNTRUCiphertext S.p.k S.pp.n} {m1 m2 : Bool}
    {ε δ : ℚ} (different : addr1 ≠ addr2) (h1 : MNTRUGate.EncodesWithin ε S.sk ct1 m1)
    (h2 : MNTRUGate.EncodesWithin δ S.sk ct2 m2)
    (margin : S.budget.rotation + (S.budget.constant + (ε + δ)) < S.pp.q / 8) :
    g.Answered m1 m2 (MNTRUGate.evalBinGate S.round g S.EK S.ctNAND addr1 addr2 ct1 ct2)
      (fun ct => MNTRU.decrypt w S.sk ct 4) ↔ ∃ f, g.truthTable = some f ∧ f m1 m2 = !(m1 && m2) := by
  obtain ⟨ct, run, reduced, modulus, near⟩ :=
    MNTRUGate.evalBinGate_near S.faithful S.sized g S.constant different h1 h2 margin
  exact BinGate.answered_nand run (S.decrypt_output reduced modulus near) g

theorem answers_iff (g : BinGate) : S.Answers g ↔ g = .NAND := by
  constructor
  · intro answers
    apply BinGate.eq_nand
    intro m1 m2
    have hq : 0 < S.pp.q := by have := S.sized.large; omega
    have noise : Near S.pp.q 0 ((∑ _u : Fin S.p.k, ((0 : ℕ) : ℤ) : ℤ) : ℚ) 0 := by
      simpa using near_refl (q := (S.pp.q : ℚ)) 0
    obtain ⟨ct1, -, h1⟩ := MNTRUGate.encrypt_encodes S.generated S.sized (e := fun _ _ => 0) (fun _ _ => hq) noise m1
    obtain ⟨ct2, -, h2⟩ := MNTRUGate.encrypt_encodes S.generated S.sized (e := fun _ _ => 0) (fun _ _ => hq) noise m2
    have room : S.budget.rotation + (S.budget.constant + (1 + 0 + (1 + 0))) < S.pp.q / 8 := by linarith [S.room]
    exact (S.answered_iff g (show 0 ≠ 1 by decide) h1 h2 room).mp
      (answers 0 1 ct1 ct2 m1 m2 _ _ (by decide) h1 h2 room)
  · rintro rfl addr1 addr2 ct1 ct2 m1 m2 ε δ different h1 h2 margin
    exact (S.answered_iff .NAND different h1 h2 margin).mpr ⟨_, rfl, rfl⟩

end MNTRUSystem

/-- A multi-key MKLWE system with a binary key, with exact rotation and small switching noise, whose gate constant
fits its 32-bit arithmetic. -/
structure MKLWESystem (w : NativeSize) where
  p : UniEncParams w
  pp : MKLWEParams p
  round : FloorRound
  EK : MKLWEGate.EvalKeys pp
  skf : Acc p
  s : Fin p.k → Fin pp.n → ℕ
  keyModulus : ℕ
  faithful : MKLWEGate.Faithful round EK skf s
  sized : MKLWEGate.Sized pp
  bit : ∀ u i, s u i = 0 ∨ s u i = 1
  two_le_keyModulus : 2 ≤ keyModulus
  word : 5 * pp.q < 2 ^ 32
  fits : MKLWE.InnerFits w pp.q s

namespace MKLWESystem
variable (S : MKLWESystem w)

def Answers (g : BinGate) : Prop :=
  ∀ (addr1 addr2 : ℕ) (ct1 ct2 : MKLWECiphertext S.p.k S.pp.n) (m1 m2 : Bool) (ε δ : ℚ), addr1 ≠ addr2 →
    MKLWEGate.EncodesWithin ε S.s ct1 m1 → MKLWEGate.EncodesWithin δ S.s ct2 m2 →
    ε + δ + 1 < 7 * (S.pp.q : ℚ) / 64 →
    g.Answered m1 m2 (MKLWEGate.evalBinGate S.round g S.EK addr1 addr2 ct1 ct2) fun ct =>
      MKLWE.decrypt w S.keyModulus S.s ct 4

theorem answered_iff (g : BinGate) {addr1 addr2 : ℕ} {ct1 ct2 : MKLWECiphertext S.p.k S.pp.n} {m1 m2 : Bool}
    {ε δ : ℚ} (different : addr1 ≠ addr2) (h1 : MKLWEGate.EncodesWithin ε S.s ct1 m1)
    (h2 : MKLWEGate.EncodesWithin δ S.s ct2 m2) (margin : ε + δ + 1 < 7 * (S.pp.q : ℚ) / 64) :
    g.Answered m1 m2 (MKLWEGate.evalBinGate S.round g S.EK addr1 addr2 ct1 ct2)
      (fun ct => MKLWE.decrypt w S.keyModulus S.s ct 4) ↔ ∃ f, g.truthTable = some f ∧ f m1 m2 = !(m1 && m2) := by
  obtain ⟨ct, run, encodes⟩ := MKLWEGate.evalBinGate_encodes S.faithful S.sized S.word g different h1 h2 margin
  exact BinGate.answered_nand run (MKLWEGate.encodes_decrypt S.sized S.two_le_keyModulus S.bit S.fits encodes) g

theorem answers_iff (g : BinGate) : S.Answers g ↔ g = .NAND := by
  constructor
  · intro answers
    apply BinGate.eq_nand
    intro m1 m2
    have hq : (128 : ℚ) ≤ S.pp.q := by exact_mod_cast S.sized.large
    have h1 := MKLWEGate.maskless_encodes S.sized S.s m1
    have h2 := MKLWEGate.maskless_encodes S.sized S.s m2
    have margin : (S.pp.q : ℚ) / 32 + S.pp.q / 32 + 1 < 7 * (S.pp.q : ℚ) / 64 := by linarith
    exact (S.answered_iff g (show 0 ≠ 1 by decide) h1 h2 margin).mp
      (answers 0 1 _ _ m1 m2 _ _ (by decide) h1 h2 margin)
  · rintro rfl addr1 addr2 ct1 ct2 m1 m2 ε δ different h1 h2 margin
    exact (S.answered_iff .NAND different h1 h2 margin).mpr ⟨_, rfl, rfl⟩

end MKLWESystem

/-- In both schemes the gate asked for is answered exactly when it is NAND. -/
theorem multikey_gate_answered_iff_nand (S : MNTRUSystem w) (S' : MKLWESystem w) (g : BinGate) :
    (S.Answers g ↔ g = .NAND) ∧ (S'.Answers g ↔ g = .NAND) :=
  ⟨S.answers_iff g, S'.answers_iff g⟩

/-! ### The noiseless systems -/

section Plain
open Gate MNTRUGate

def plainCt (x : ℕ) : MNTRUCiphertext plainParams.k plainMNTRU.n := { elements := fun _ _ => x, modulus := 2 ^ 12 }

theorem plainCt_reduced {x : ℕ} (hx : x < 2 ^ 12) : MNTRU.Reduced (plainCt x) := ⟨fun _ _ => hx⟩

theorem phase_plainCt (x : ℕ) : MNTRU.phase plainKey (plainCt x) = x := phase_plainKey _

theorem plainCt_constant : HoldsConstant 1 plainKey (plainCt 2560) where
  reduced := plainCt_reduced (by decide)
  modulus := rfl
  near := by
    rw [phase_plainCt]
    exact near_of_abs (by norm_num [plainMNTRU])

theorem plainCt_true : MNTRUGate.EncodesWithin 0 plainKey (plainCt 1024) true where
  reduced := plainCt_reduced (by decide)
  modulus := rfl
  near := by
    rw [phase_plainCt]
    exact near_of_abs (by norm_num [plainMNTRU])

def plainMNTRUSystem : MNTRUSystem .w64 where
  p := plainParams
  pp := plainMNTRU
  budget := plainBudget
  round := exactRound
  EK := MNTRUGate.plainKeys
  skf := plainSk
  F := fun _ _ _ => 1
  F_inv := fun _ _ _ => 1
  ctNAND := plainCt 2560
  generated := plain_generated
  faithful := MNTRUGate.plain_faithful
  sized := MNTRUGate.plain_sized
  constant := plainCt_constant
  room := by norm_num [plainBudget, plainMNTRU]
  readable := by norm_num [plainBudget, plainMNTRU]

def plainMKLWESystem : MKLWESystem .w64 where
  p := plainParams
  pp := MKLWEGate.plainMKLWE 64 (by decide) (by decide)
  round := exactRound
  EK := MKLWEGate.plainKeys 64 (by decide) (by decide)
  skf := plainSk
  s := MKLWEGate.plainS 64 (by decide) (by decide)
  keyModulus := 64 ^ 2
  faithful := MKLWEGate.plain_faithful 64 (by decide) (by decide)
  sized := MKLWEGate.plain_sized 64 (by decide) (by decide)
  bit := fun _ _ => .inl rfl
  two_le_keyModulus := by decide
  word := by decide
  fits := fun u => by simp [MKLWEGate.plainS, MKLWEGate.plainMKLWE, NativeSize.bits]

/-- AND of two ones: neither scheme throws, and both results decrypt to zero. -/
theorem plain_and_not_answered : ¬ plainMNTRUSystem.Answers .AND ∧ ¬ plainMKLWESystem.Answers .AND := by
  have wrong {α : Type} {evaluated : Except Fault α} {decrypt : α → Except Fault ℕ}
      (zero : evaluated >>= decrypt = .ok 0) : ¬ BinGate.AND.Answered true true evaluated decrypt := by
    rintro (⟨fault, rfl⟩ | ⟨f, table, result⟩)
    · cases zero
    · cases table
      rw [zero] at result
      cases result
  constructor
  · intro answers
    have room : plainBudget.rotation + (plainBudget.constant + (0 + 0)) < (plainMNTRU.q : ℚ) / 8 := by
      norm_num [plainBudget, plainMNTRU]
    exact wrong (by decide +kernel)
      (answers 0 1 (plainCt 1024) (plainCt 1024) true true 0 0 (by decide) plainCt_true plainCt_true room)
  · intro answers
    have one := MKLWEGate.maskless_encodes plainMKLWESystem.sized plainMKLWESystem.s true
    have room : ((64 ^ 2 : ℕ) : ℚ) / 32 + (64 ^ 2 : ℕ) / 32 + 1 < 7 * (64 ^ 2 : ℕ) / 64 := by norm_num
    exact wrong (by decide +kernel) (answers 0 1 _ _ true true _ _ (by decide) one one room)

end Plain
end MultiKeyFHE
