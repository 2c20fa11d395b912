import MultiKeyFHE.Params.Scheme
import MultiKeyFHE.Native.Poly
import MultiKeyFHE.Scheme.LWE

/-!
# Bootstrapping of single-key ciphertexts

`BootstrapGateCore`, `BootstrapFuncCore` and what the gates of `BinFHEScheme` do with the accumulator they return.
Both cores write a vector of `q / 2` values into every `2N / q`-th coefficient of a polynomial and rotate it.
-/

namespace MultiKeyFHE
open NativeInteger NativeVector

/-- The parameters of a single-key context. Every overload passes the same numbers to both constructors. -/
structure SingleKeyParams where
  lwe : LWECryptoParams
  rgsw : RingGSWCryptoParams
  same_N : rgsw.N = lwe.N
  same_Q : rgsw.Q = lwe.Q
  same_q : rgsw.q = lwe.q
  N_pos : 0 < lwe.N
  q_pos : 0 < lwe.q

namespace SingleKeyParams
variable (P : SingleKeyParams)

abbrev n : ℕ := P.lwe.n
abbrev N : ℕ := P.lwe.N
abbrev q : ℕ := P.lwe.q
abbrev Q : ℕ := P.lwe.Q
abbrev qKS : ℕ := P.lwe.qKS

instance : NeZero P.N := ⟨P.N_pos.ne'⟩

abbrev Acc : Type := RLWECiphertext P.N P.Q

end SingleKeyParams

namespace LWEGate
variable (P : SingleKeyParams)

/-- The members of `RingGSWBTKey` that bootstrapping uses. The accumulator key stands for `EvalAcc` under it, which
reads the gadget in use, the accumulator, and the vector with its modulus; it gets lost when the key does not fit. -/
structure EvalKeys where
  BSkey : Option (Gadget → P.Acc → (len : ℕ) → (Fin len → ℕ) → ℕ → Option P.Acc)
  KSkey : Option (LWE.SwitchingKey P.N P.n)

variable (w : NativeSize)

/-- `m_gateConst`, in the order of the enumeration. -/
def gateConst (q : ℕ) : List ℕ :=
  [mul w 5 (q >>> 3), mul w 7 (q >>> 3), mul w 1 (q >>> 3), mul w 3 (q >>> 3), mul w 5 (q >>> 3), mul w 1 (q >>> 3),
    mul w 7 (q >>> 3), mul w 11 (q / 12), mul w 7 (q / 12), mul w 15 (q >>> 4), mul w 9 (q >>> 4)]

/-- The loop `m[j * factor] = value(j)` over a vector of zeros. -/
def sparseVector (N factor count : ℕ) (value : ℕ → ℕ) : Fin N → ℕ :=
  (List.range count).foldl (fun m j i => if i.val = j * factor then value j else m i) fun _ => 0

theorem sparseVector_eq {N factor : ℕ} (pos : 0 < factor) (value : ℕ → ℕ) (count : ℕ) (i : Fin N) :
    sparseVector N factor count value i = if factor ∣ i.val ∧ i.val / factor < count then value (i.val / factor) else 0 := by
  induction count with
  | zero => simp [sparseVector]
  | succ count ih =>
    have last : sparseVector N factor (count + 1) value i =
        if i.val = count * factor then value count else sparseVector N factor count value i := by
      rw [sparseVector, List.range_succ, List.foldl_append]
      rfl
    rw [last, ih]
    by_cases here : i.val = count * factor
    · rw [if_pos here, here, Nat.mul_div_cancel _ pos, if_pos ⟨Dvd.intro_left _ rfl, by omega⟩]
    · rw [if_neg here]
      have same : (factor ∣ i.val ∧ i.val / factor < count) ↔ (factor ∣ i.val ∧ i.val / factor < count + 1) := by
        refine and_congr_right fun divides => ⟨fun h => by omega, fun h => ?_⟩
        have other : i.val / factor ≠ count := fun equal => here (by rw [← equal, Nat.div_mul_cancel divides])
        omega
      simp only [same]

/-- The value of the gate vector at distance `temp`: the two comparisons of the window `[q1, q2)`. -/
def windowValue (q1 q2 Q Q2p temp : ℕ) : ℕ :=
  if q1 < q2 then if temp ≥ q1 ∧ temp < q2 then sub w Q Q2p else Q2p
  else if temp ≥ q2 ∧ temp < q1 then Q2p else sub w Q Q2p

def notGenerated : Fault := .configError ("Bootstrapping keys have not been generated. Please call BTKeyGen " ++
  "before calling bootstrapping.")

variable {P} {len : ℕ}

/-- The accumulator `(0, m)` under the bootstrapping key. -/
def rotate (g : Gadget) (EK : EvalKeys P) (m : Fin P.N → ℕ) (ct : LWECiphertext len) : Except Fault P.Acc :=
  match EK.BSkey with
  | none => .error notGenerated
  | some evalAcc =>
    match evalAcc g ⟨0, ⟨fun i => (m i : ZMod P.Q)⟩⟩ len ct.a ct.modulus with
    | none => .error .outOfRange
    | some acc => .ok acc

def bootstrapGateCore (g : Gadget) (gate : BinGate) (EK : EvalKeys P) (ct : LWECiphertext len) : Except Fault P.Acc :=
  if EK.BSkey.isNone then .error notGenerated
  else
    match (gateConst w P.rgsw.q)[gate.ctorIdx]? with
    | none => .error .outOfRange
    | some q1 =>
      let q := ct.modulus
      let qHalf := q / 2 % 2 ^ 32
      let q2 := modAddFast w q1 qHalf q
      let Q2p := add w (P.Q / mul w 2 ct.p) 1
      rotate g EK (sparseVector P.N (2 * P.N % 2 ^ 32 / q) qHalf fun j =>
        windowValue w q1 q2 P.Q Q2p (modSub w ct.b j q)) ct

/-- `f(x, q, Q)` for the value `x` modulo `q`, with values modulo `Q`. -/
abbrev Func : Type := ℕ → ℕ → ℕ → ℕ

def bootstrapFuncCore (g : Gadget) (EK : EvalKeys P) (ct : LWECiphertext len) (f : Func) (fmod : ℕ) :
    Except Fault P.Acc :=
  let ctMod := ct.modulus
  rotate g EK (sparseVector P.N (2 * P.N % 2 ^ 32 / ctMod) (ctMod >>> 1) fun j =>
    mul w (P.Q / fmod) (f (modSub w ct.b j ctMod) ctMod fmod)) ct

/-- `Transpose`. -/
def transpose {N Q : ℕ} (a : NativePoly N Q) : NativePoly N Q :=
  ⟨fun j => if h : j.val = 0 then a.coeff j else -a.coeff ⟨N - j.val, by omega⟩⟩

def extract (acc : P.Acc) (b : ℕ) : LWECiphertext P.N :=
  { a := fun j => ((transpose acc.a).coeff j).val, b, modulus := P.Q }

variable (plat : Platform) (round : FloorRound)

/-- `ModSwitch`, `KeySwitch`, `ModSwitch`: the end of every bootstrapping. -/
def switch (EK : EvalKeys P) (fmod : ℕ) (ctExt : LWECiphertext P.N) : Except Fault (LWECiphertext P.n) :=
  match EK.KSkey with
  | none => .error .nullDereference
  | some K =>
    let ctMS := LWE.modSwitch round P.qKS ctExt
    let ctKS := LWE.keySwitch w P.qKS K P.lwe.baseKS (plat.digitCount P.qKS P.lwe.baseKS) ctMS
    .ok (LWE.modSwitch round fmod ctKS)

def bootstrapFunc (g : Gadget) (EK : EvalKeys P) (ct : LWECiphertext len) (f : Func) (fmod : ℕ) :
    Except Fault (LWECiphertext P.n) := do
  let acc ← bootstrapFuncCore w g EK ct f fmod
  switch w plat round EK fmod (extract acc (acc.b.coeff 0).val)

end LWEGate
end MultiKeyFHE
