import MultiKeyFHE.Gate.Boolean
import MultiKeyFHE.Library.Netlist

/-!
# Boolean circuits on single-key ciphertexts

A circuit is a list of calls of the boolean operations of the scheme, each on earlier results. A wire is one ciphertext
object, and its index stands for the address that the gates compare.
-/

namespace MultiKeyFHE
open Negacyclic NegPoly NativeInteger NativeVector Circle Netlist

/-- The plaintext modulus that a gate is for. -/
def BinGate.ptModulus : BinGate → ℕ
  | .AND3 | .OR3 => 6
  | .AND4 | .OR4 => 8
  | _ => 4

/-- A call of `EvalBinGate`, `EvalNOT`, `Bootstrap` or `EvalConstant`. -/
inductive Operation where
  | gate (gate : BinGate)
  | not
  | bootstrap
  | constant (value : Bool)
  deriving DecidableEq, Repr

namespace Operation

/-- How many ciphertexts an operation is called with. -/
def arity : Operation → ℕ
  | gate .MAJORITY | gate .AND3 | gate .OR3 | gate .CMUX => 3
  | gate .AND4 | gate .OR4 => 4
  | gate _ => 2
  | not | bootstrap => 1
  | constant _ => 0

/-- The truth tables. -/
def value : Operation → List Bool → Bool
  | gate .MAJORITY, [a, b, c] => a && b || a && c || b && c
  | gate .AND3, [a, b, c] => a && b && c
  | gate .OR3, [a, b, c] => a || b || c
  | gate .CMUX, [a, b, c] => if c then b else a
  | gate .AND4, [a, b, c, d] => a && b && c && d
  | gate .OR4, [a, b, c, d] => a || b || c || d
  | gate g, [a, b] => (g.truthTable.map fun f => f a b).getD false
  | not, [a] => !a
  | bootstrap, [a] => a
  | constant v, [] => v
  | _, _ => false

section Run
variable {P : SingleKeyParams} (w : NativeSize) (plat : Platform) (round : FloorRound) (g : Gadget)
  (EK : LWEGate.EvalKeys P)

/-- The call on objects that are given with their addresses. Two ciphertexts go to the overload for two. -/
def run : Operation → List (ℕ × LWECiphertext P.n) → Except Fault (LWECiphertext P.n)
  | gate kind, [(addr1, ct1), (addr2, ct2)] => LWEGate.evalBinGate w plat round g EK kind addr1 addr2 ct1 ct2
  | gate kind, ctvector => LWEGate.evalBinGateVector w plat round g EK kind ctvector
  | not, [(_, ct)] => .ok (LWEGate.evalNOT w ct)
  | bootstrap, [(_, ct)] => LWEGate.bootstrap w plat round g EK ct
  | constant v, [] => .ok (LWEGate.evalConstant P w v)
  | _, _ => .error .outOfRange

end Run

/-- The operation is there for plaintext modulus four. -/
def ForFour : Operation → Prop
  | gate kind => kind.ptModulus = 4
  | _ => True

instance : DecidablePred ForFour
  | gate kind => inferInstanceAs (Decidable (kind.ptModulus = 4))
  | not | bootstrap | constant _ => .isTrue trivial

end Operation

namespace LWEGate
open LWE
variable {P : SingleKeyParams} {w : NativeSize} {plat : Platform} {round : FloorRound} {g : Gadget} {EK : EvalKeys P}
  {z : NativePoly P.N P.Q} {s : Fin P.n → ℤ}

/-- Every call has as many ciphertexts as it takes, all of them different objects. -/
def Distinct (circuit : List (Node Operation)) : Prop :=
  ∀ node ∈ circuit, node.reads.length = node.op.arity ∧ node.reads.Nodup

theorem gate_cases {kind : BinGate} (four : kind.ptModulus = 4) :
    kind = .MAJORITY ∨ kind = .CMUX ∨ ((Operation.gate kind).arity = 2 ∧ ∃ f, kind.truthTable = some f ∧
      ∀ a b, (Operation.gate kind).value [a, b] = f a b) := by
  cases kind <;> first
    | exact .inl rfl
    | exact .inr (.inl rfl)
    | exact .inr (.inr ⟨rfl, _, rfl, fun _ _ => rfl⟩)
    | exact absurd four (by decide)

theorem run_encodes (sized : Sized w P) (refreshes : Refreshes w plat round g EK s) {op : Operation}
    (four : op.ForFour) {xs : List (ℕ × LWECiphertext P.n)} {ms : List Bool} (count : xs.length = op.arity)
    (distinct : (xs.map Prod.fst).Nodup) (related : List.Forall₂ (fun x m => Encodes 4 s x.2 m) xs ms) :
    ∃ ct, op.run w plat round g EK xs = .ok ct ∧ Encodes 4 s ct (op.value ms) := by
  cases op with
  | gate kind =>
    rcases gate_cases four with rfl | rfl | ⟨two, f, table, value⟩
    · match xs, ms, related, count with
      | [x1, x2, x3], [m1, m2, m3], .cons h1 (.cons h2 (.cons h3 .nil)), _ =>
        exact majority_encodes sized refreshes h1 h2 h3 distinct
    · match xs, ms, related, count with
      | [x1, x2, x3], [m1, m2, m3], .cons h1 (.cons h2 (.cons h3 .nil)), _ =>
        exact cmux_encodes sized refreshes h1 h2 h3 distinct
    · rw [two] at count
      match xs, ms, related, count with
      | [x1, x2], [m1, m2], .cons h1 (.cons h2 .nil), _ =>
        have different : x1.1 ≠ x2.1 := by simpa using distinct
        rw [value]
        exact evalBinGate_encodes sized refreshes kind table different h1 h2
  | not =>
    match xs, ms, related, count with
    | [x], [m], .cons h .nil, _ => exact ⟨_, rfl, evalNOT_encodes sized h⟩
  | bootstrap =>
    match xs, ms, related, count with
    | [x], [m], .cons h .nil, _ => exact bootstrap_encodes sized refreshes h
  | constant v =>
    match xs, ms, related, count with
    | [], [], .nil, _ => exact ⟨_, rfl, evalConstant_encodes sized s v⟩

theorem Refreshes.node_encodes (refreshes : Refreshes w plat round g EK s) (sized : Sized w P)
    {circuit : List (Node Operation)} (distinct : Distinct circuit) (four : ∀ node ∈ circuit, node.op.ForFour) :
    ∀ node ∈ circuit, ∀ (xs : List (ℕ × LWECiphertext P.n)) ms, xs.map Prod.fst = node.reads →
      List.Forall₂ (fun x m => Encodes 4 s x.2 m) xs ms →
      ∃ ct, node.op.run w plat round g EK xs = .ok ct ∧ Encodes 4 s ct (node.op.value ms) := by
  intro node member xs ms indices related
  obtain ⟨count, different⟩ := distinct node member
  refine run_encodes sized refreshes (four node member) ?_ ?_ related
  · rw [← count, ← indices, List.length_map]
  · rwa [indices]

theorem node_encodes (sized : Sized w P) (faithful : Faithful w plat round g EK (P.q / 64) z s)
    {circuit : List (Node Operation)} (distinct : Distinct circuit) (four : ∀ node ∈ circuit, node.op.ForFour) :
    ∀ node ∈ circuit, ∀ (xs : List (ℕ × LWECiphertext P.n)) ms, xs.map Prod.fst = node.reads →
      List.Forall₂ (fun x m => Encodes 4 s x.2 m) xs ms →
      ∃ ct, node.op.run w plat round g EK xs = .ok ct ∧ Encodes 4 s ct (node.op.value ms) :=
  (faithful.refreshes sized).node_encodes sized distinct four

/-- Every circuit of boolean operations runs, and every wire holds its bit with a noise below `q / 32`. -/
theorem boolean_circuits_encode (sized : Sized w P) (faithful : Faithful w plat round g EK (P.q / 64) z s)
    {circuit : List (Node Operation)} {inputs : List (LWECiphertext P.n)} {bits : List Bool}
    (encrypted : List.Forall₂ (Encodes 4 s) inputs bits) (order : Scoped bits.length circuit) (distinct : Distinct circuit)
    (four : ∀ node ∈ circuit, node.op.ForFour) :
    ∃ wires, evalM Fault.outOfRange (fun op => op.run w plat round g EK) inputs circuit = .ok wires ∧
      List.Forall₂ (Encodes 4 s) wires (eval Operation.value bits circuit) :=
  evalM_simulates Fault.outOfRange encrypted order (node_encodes sized faithful distinct four)

/-! ### A system without noise -/

/-- `q = 2N = 256`, `Q = 257`, and key switching in base sixteen modulo `16 ^ 3`. -/
def unitParams : SingleKeyParams where
  lwe := ⟨256, 257, 4096, 1, 128, 16, .UNIFORM_TERNARY, 1, 1⟩
  rgsw := { RingGSWCryptoParams.default with N := 128, Q := 257, q := 256, method := .GINX }
  same_N := rfl
  same_Q := rfl
  same_q := rfl
  N_pos := by decide
  q_pos := by decide

/-- Without masks and errors, for the secret one. -/
def unitSwitchingKey : SwitchingKey unitParams.N unitParams.n :=
  ⟨fun _ _ _ _ => 0, fun i digit j => if i = 0 then digit % 16 * 16 ^ (j % 3) else 0⟩

/-- The secrets are one, and the rotation is that of the mask. -/
def unitKeys : EvalKeys unitParams where
  BSkey := some fun _ acc _ a mod =>
    let turn : NativePoly unitParams.N unitParams.Q := xpow (-((256 / mod : ℕ) * ∑ i, (a i : ℤ)))
    some ⟨acc.a * turn, acc.b * turn⟩
  KSkey := some unitSwitchingKey

instance : NeZero unitParams.n := ⟨by decide⟩

def unitZ : NativePoly unitParams.N unitParams.Q := 1

def unitS : Fin unitParams.n → ℤ := fun _ => 1

theorem unit_sized : Sized .w64 unitParams where
  power := ⟨8, rfl⟩
  large := by decide
  divides := by decide
  narrow := by decide
  largeQ := by decide
  fits := by decide

theorem unit_rotates (acc : unitParams.Acc) (turn : NativePoly unitParams.N unitParams.Q) :
    RLWECiphertext.phase unitZ ⟨acc.a * turn, acc.b * turn⟩ = acc.phase unitZ * turn := by
  simp only [RLWECiphertext.phase]
  ring

theorem unitSwitchingKey_reduced : unitSwitchingKey.Reduced 4096 where
  A_lt := fun _ _ _ _ => show 0 < 4096 by decide
  B_lt := fun i digit j => by
    dsimp only [unitSwitchingKey]
    split
    · have power : 16 ^ (j % 3) ≤ 16 ^ 2 := Nat.pow_le_pow_right (by omega) (by omega)
      have : digit % 16 * 16 ^ (j % 3) ≤ 15 * 16 ^ 2 := Nat.mul_le_mul (by omega) power
      omega
    · omega

theorem unit_keySwitch {ct : LWECiphertext unitParams.N} (reduced : Reduced ct) (modulus : ct.modulus = 4096) :
    (keySwitch .w64 4096 unitSwitchingKey 16 3 ct).modulus = 4096 ∧
      LWE.phase unitS (keySwitch .w64 4096 unitSwitchingKey 16 3 ct) ≡ ct.b - ct.a 0 [ZMOD (4096 : ℕ)] := by
  obtain ⟨-, same, total⟩ := phase_keySwitch (w := .w64) unitS (show 0 < 4096 by omega) (by decide)
    unitSwitchingKey_reduced 16 3 (modulus ▸ reduced.b_lt)
  refine ⟨same, total.trans ?_⟩
  have digits : ((List.finRange unitParams.N).map fun i =>
      ((List.range 3).map fun j => keyTerm unitSwitchingKey 16 unitS ct i j).sum).sum = (ct.a 0 : ℤ) := by
    have below : ct.a 0 < 4096 := modulus ▸ reduced.a_lt 0
    rw [← Fin.sum_univ_def, Fintype.sum_eq_single 0 fun i hi => ?_]
    · have term : ∀ j, j < 3 → keyTerm unitSwitchingKey 16 unitS ct 0 j = (ct.a 0 / 16 ^ j % 16 * 16 ^ j : ℕ) := by
        intro j hj
        simp [keyTerm, unitSwitchingKey, Nat.mod_eq_of_lt hj]
      rw [show List.range 3 = [0, 1, 2] from rfl, List.map_cons, List.map_cons, List.map_cons, List.map_nil,
        List.sum_cons, List.sum_cons, List.sum_cons, List.sum_nil, term 0 (by omega), term 1 (by omega), term 2 (by omega)]
      generalize ct.a 0 = x at below
      have split : x / 16 ^ 0 % 16 * 16 ^ 0 + (x / 16 ^ 1 % 16 * 16 ^ 1 + x / 16 ^ 2 % 16 * 16 ^ 2) = x := by omega
      rw [add_zero]
      exact_mod_cast split
    · simp [keyTerm, unitSwitchingKey, hi, List.range_succ]
  rw [digits]

theorem unit_modSwitch (q : ℕ) {n : ℕ} (ct : LWECiphertext n) (i : Fin n) (pos : 0 < ct.modulus) :
    Near q 1 (((modSwitch exactRound q ct).b : ℚ) - (modSwitch exactRound q ct).a i)
      (((ct.b : ℚ) - ct.a i) * q / ct.modulus) := by
  have both := (roundqQ_exact_near (v := ct.b) (q := q) pos).sub (roundqQ_exact_near (v := ct.a i) (q := q) pos)
  rw [← sub_div, ← sub_mul, show (1 / 2 + 1 / 2 : ℚ) = 1 by norm_num] at both
  exact both

theorem phase_unitS (ct : LWECiphertext unitParams.n) : (LWE.phase unitS ct : ℚ) = (ct.b : ℚ) - ct.a 0 := by
  have only : ∀ i : Fin unitParams.n, i = 0 := fun i => by
    have : unitParams.n = 1 := rfl
    have := i.isLt
    exact Fin.ext (by rw [Fin.val_zero]; omega)
  have one : LWE.phase unitS ct = ct.b - ct.a 0 := by
    rw [LWE.phase, Fintype.sum_eq_single 0 fun i hi => absurd (only i) hi, unitS, mul_one]
  rw [one]
  push_cast
  rfl

theorem phaseQ_unitZ (ct : LWECiphertext unitParams.N) :
    (ct.b : ℤ) - ct.a 0 ≡ ((phaseQ unitZ ct).val : ℤ) [ZMOD unitParams.Q] := by
  have one : phaseQ unitZ ct = ct.b - (ct.a 0 : ℕ) := by
    rw [phaseQ, Fintype.sum_eq_single 0 fun j hj => ?_]
    · rw [unitZ, coeff_one, if_pos (Fin.val_zero _), mul_one]
    · rw [unitZ, coeff_one, if_neg fun h => hj (Fin.ext (h.trans (Fin.val_zero _).symm)), mul_zero]
  have : NeZero unitParams.Q := ⟨by decide⟩
  rw [← ZMod.intCast_eq_intCast_iff, one]
  simp

/-- The phase modulo 257, modulo 4096 before and after the key switch, and modulo 256. -/
theorem unit_rounding {x e f k r : ℚ} {Q q M : ℕ} (hQ : Q = 257) (hq : q = 256) (hM : M = 4096)
    (extracted : Near Q 0 e x) (first : Near M 1 f (e * M / Q)) (switched : Near M 0 k f)
    (second : Near q 1 r (k * q / M)) : Near q (17 / 16) r (x * q / Q) := by
  subst hQ hq hM
  push_cast at *
  have up := extracted.scale (show (0 : ℚ) ≤ 256 / 257 by norm_num)
  have down := (switched.trans first).scale (show (0 : ℚ) ≤ 1 / 16 by norm_num)
  norm_num at up down
  have total := (second.trans (by convert down using 1; ring)).trans (by convert up using 1; ring)
  convert total using 1
  · norm_num
  · ring

theorem unit_switches {δ : ℚ} (wide : 2 ≤ δ) (ctExt : LWECiphertext unitParams.N)
    (modulus : ctExt.modulus = unitParams.Q) :
    ∃ ct, switch .w64 .threeDigits exactRound unitKeys unitParams.q ctExt = .ok ct ∧
      Within unitParams.q δ (LWE.phase unitS ct) ((phaseQ unitZ ctExt).val * unitParams.q / unitParams.Q) := by
  refine ⟨modSwitch exactRound 256 (keySwitch .w64 4096 unitSwitchingKey 16 3 (modSwitch exactRound 4096 ctExt)), rfl, ?_⟩
  obtain ⟨same, switched⟩ := unit_keySwitch
    (show Reduced (modSwitch exactRound 4096 ctExt) from modSwitch_reduced _ (by omega) _) rfl
  have extracted := near_of_modEq (phaseQ_unitZ ctExt)
  have first := unit_modSwitch 4096 ctExt 0 (by rw [modulus]; decide)
  have second := unit_modSwitch 256 (keySwitch .w64 4096 unitSwitchingKey 16 3 (modSwitch exactRound 4096 ctExt)) 0
    (by rw [same]; omega)
  have middle := near_of_modEq switched
  rw [modulus] at first
  rw [same] at second
  rw [phase_unitS, Int.cast_sub, Int.cast_natCast, Int.cast_natCast] at middle
  rw [Int.cast_sub, Int.cast_natCast, Int.cast_natCast, Int.cast_natCast] at extracted
  rw [phase_unitS]
  exact (unit_rounding rfl rfl rfl extracted first middle second).within (by linarith)

theorem unit_faithful {δ : ℚ} (wide : 2 ≤ δ) (g : Gadget) :
    Faithful .w64 .threeDigits exactRound g unitKeys δ unitZ unitS where
  rotates := by
    refine ⟨_, rfl, fun acc a _ => ⟨_, rfl, ?_⟩⟩
    rw [unit_rotates]
    simp only [unitS, mul_one]
    rfl
  switches := fun ctExt _ modulus => unit_switches wide ctExt modulus

/-- XOR and MAJORITY of the inputs, the negation of the first, its bootstrapping, a constant, and CMUX. -/
def unitCircuit : List (Node Operation) :=
  [⟨.gate .XOR, [0, 1]⟩, ⟨.gate .MAJORITY, [0, 1, 2]⟩, ⟨.not, [3]⟩, ⟨.bootstrap, [5]⟩, ⟨.constant true, []⟩,
    ⟨.gate .CMUX, [6, 7, 4]⟩]

theorem unit_circuit_encodes :
    Faithful .w64 .threeDigits exactRound unitParams.rgsw.toGadget unitKeys (unitParams.q / 64) unitZ unitS ∧
      ∃ wires, evalM Fault.outOfRange (fun op => op.run .w64 .threeDigits exactRound unitParams.rgsw.toGadget unitKeys)
        [evalConstant unitParams .w64 true, evalConstant unitParams .w64 false, evalConstant unitParams .w64 true]
        unitCircuit = .ok wires ∧
        List.Forall₂ (Encodes 4 unitS) wires [true, false, true, true, true, false, false, true, true] := by
  have faithful := unit_faithful (δ := unitParams.q / 64) (by norm_num [unitParams]) unitParams.rgsw.toGadget
  have input := evalConstant_encodes unit_sized unitS
  exact ⟨faithful, boolean_circuits_encode unit_sized faithful (.cons (input true) (.cons (input false)
    (.cons (input true) .nil))) (by decide) (by unfold Distinct; decide) (by decide)⟩

end LWEGate
end MultiKeyFHE
