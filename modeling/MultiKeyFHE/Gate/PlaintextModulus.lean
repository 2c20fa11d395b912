import MultiKeyFHE.Gate.BooleanCircuit

/-!
# The plaintext modulus of a circuit

A ciphertext carries its plaintext modulus next to its vector, and `Encrypt` sets it. The vector gates and `Bootstrap`
read it; what they return comes from `ModSwitch`, where it is four again. So gates for six or eight compose with nothing.
-/

namespace MultiKeyFHE
open Negacyclic NegPoly NativeInteger NativeVector Circle Netlist

namespace LWEGate
open LWE
variable {P : SingleKeyParams} {w : NativeSize} {plat : Platform} {round : FloorRound} {g : Gadget} {EK : EvalKeys P}

/-! ### What the operations return -/

section Returned
variable {ct : LWECiphertext P.n}

theorem finish_four {constant fmod : ℕ} {acc : P.Acc} (run : finish w plat round EK constant fmod acc = .ok ct) :
    ct.p = 4 := by
  obtain ⟨ctKS, rfl⟩ := switch_inv run
  rfl

theorem evalSumGate_four {gate : BinGate} {ct1 ct2 : LWECiphertext P.n}
    (run : evalSumGate w plat round g EK gate ct1 ct2 = .ok ct) : ct.p = 4 := by
  unfold evalSumGate at run
  dsimp only at run
  split at run
  all_goals
    obtain ⟨ctprep, -, run⟩ := Run.bind_ok run
    obtain ⟨acc, -, run⟩ := Run.bind_ok run
    exact finish_four run

theorem evalBinGate_four {gate : BinGate} {addr1 addr2 : ℕ} {ct1 ct2 : LWECiphertext P.n}
    (run : evalBinGate w plat round g EK gate addr1 addr2 ct1 ct2 = .ok ct) : ct.p = 4 := by
  by_cases same : addr1 = addr2
  · simp only [evalBinGate, if_pos same] at run
    cases run
  simp only [evalBinGate, if_neg same] at run
  split at run
  · obtain ⟨ctAND1, -, run⟩ := Run.bind_ok run
    obtain ⟨ctAND2, -, run⟩ := Run.bind_ok run
    obtain ⟨ctOR, or, run⟩ := Run.bind_ok run
    cases run
    split
    · exact evalSumGate_four or
    · rfl
  · exact evalSumGate_four run

theorem evalBinGateVector_four {gate : BinGate} {ctvector : List (ℕ × LWECiphertext P.n)}
    (run : evalBinGateVector w plat round g EK gate ctvector = .ok ct) : ct.p = 4 := by
  by_cases distinct : (ctvector.map Prod.fst).Nodup
  · simp only [evalBinGateVector, distinct, not_true, if_false] at run
    split at run
    · cases run
    · split at run
      · obtain ⟨ctprep, -, run⟩ := Run.bind_ok run
        obtain ⟨acc, -, run⟩ := Run.bind_ok run
        exact finish_four run
      · split at run
        · split at run
          · obtain ⟨ctNAND1, -, run⟩ := Run.bind_ok run
            obtain ⟨ctNAND2, -, run⟩ := Run.bind_ok run
            exact evalSumGate_four run
          · cases run
        · cases run
  · simp only [evalBinGateVector, distinct, not_false_eq_true, if_true] at run
    cases run

theorem bootstrap_four {ct1 : LWECiphertext P.n} (run : bootstrap w plat round g EK ct1 = .ok ct) : ct.p = 4 := by
  unfold bootstrap at run
  obtain ⟨acc, -, run⟩ := Run.bind_ok run
  exact finish_four run

theorem run_four {op : Operation} {xs : List (ℕ × LWECiphertext P.n)} (run : op.run w plat round g EK xs = .ok ct) :
    ct.p = 4 := by
  unfold Operation.run at run
  split at run
  · exact evalBinGate_four run
  · exact evalBinGateVector_four run
  · cases run
    rfl
  · exact bootstrap_four run
  · cases run
    rfl
  · cases run

end Returned

/-! ### Circuits of vector gates -/

/-- The vector gates that belong to a plaintext modulus. -/
def vectorGates : ℕ → List BinGate
  | 4 => [.MAJORITY]
  | 6 => [.AND3, .OR3]
  | 8 => [.AND4, .OR4]
  | _ => []

/-- Only vector gates for `p` and `Bootstrap`. -/
def VectorCircuit (p : ℕ) (circuit : List (Node Operation)) : Prop :=
  ∀ node ∈ circuit, node.op = .bootstrap ∨ ∃ gate ∈ vectorGates p, node.op = .gate gate

/-- `ct` is what `Encrypt` returns for the bit `m`, and the drawn error leaves it within the noise of a gate. -/
structure Fresh (w : NativeSize) (sk : LWEPrivateKey P.n) (p : ℕ) (ct : LWECiphertext P.n) (m : Bool) : Prop where
  made : ∃ e a, encrypt w sk e a m.toNat p P.q = .ok ct
  encodes : Encodes p sk.signed ct m

/-- The run comes to an end, and every wire reports `p`, holds its bit and decrypts to it. -/
def Composes (w : NativeSize) (plat : Platform) (round : FloorRound) (g : Gadget) (EK : EvalKeys P)
    (sk : LWEPrivateKey P.n) (p : ℕ) (circuit : List (Node Operation)) (inputs : List (LWECiphertext P.n))
    (bits : List Bool) : Prop :=
  ∃ wires, evalM Fault.outOfRange (fun op => op.run w plat round g EK) inputs circuit = .ok wires ∧
    List.Forall₂ (fun ct m => Encodes p sk.signed ct m ∧ decrypt w sk ct p = .ok m.toNat) wires
      (eval Operation.value bits circuit)

section Circuits
variable {z : NativePoly P.N P.Q} {sk : LWEPrivateKey P.n} {p : ℕ} {circuit : List (Node Operation)}
  {inputs : List (LWECiphertext P.n)} {bits : List Bool}

theorem encrypt_modulus_ok {e : ℕ} {a : Fin P.n → ℕ} {m : ℕ} {ct : LWECiphertext P.n}
    (made : encrypt w sk e a m p P.q = .ok ct) : ¬ modulusTooLarge w P.q := by
  intro large
  have never : ¬ (P.q % p ≠ 0 ∧ P.q &&& (if 1 = 0 then 1 else 0) ≠ 0) := by simp
  simp only [encrypt, if_neg never, setModulus, if_pos large] at made
  cases made

theorem encodes_decrypts (sized : Sized w P) (key : sk.Generated w) (q_ok : ¬ modulusTooLarge w P.q)
    (hp : p = 4 ∨ p = 6 ∨ p = 8) {ct : LWECiphertext P.n} {m : Bool} (h : Encodes p sk.signed ct m) :
    decrypt w sk ct p = .ok m.toNat := by
  have modulus := h.modulus
  have near := h.near
  rw [← modulus] at near q_ok
  have large : 32 ≤ ct.modulus := modulus ▸ sized.large
  refine decrypt_eq key h.reduced q_ok ?_ (by omega) (by omega) ?_ near
  · rw [modulus]
    exact (dvd_mul_left _ _).trans sized.two_mul_q_dvd
  · have : m.toNat < 2 := by cases m <;> decide
    omega

theorem circuit_eq_nil (order : Scoped 0 circuit) (distinct : Distinct circuit) (belongs : VectorCircuit p circuit) :
    circuit = [] := by
  cases circuit with
  | nil => rfl
  | cons node rest =>
    have none : node.reads = [] := List.eq_nil_iff_forall_not_mem.mpr fun i hi => by
      have := order.1 i hi
      omega
    have count := (distinct node List.mem_cons_self).1
    rw [none] at count
    rcases belongs node List.mem_cons_self with boot | ⟨gate, member, op⟩
    · rw [boot] at count
      cases count
    · have takes : (Operation.gate gate).arity ≠ 0 := by cases gate <;> decide
      rw [op] at count
      exact absurd count.symm takes

theorem forFour_of_belongs (belongs : VectorCircuit 4 circuit) : ∀ node ∈ circuit, node.op.ForFour := by
  intro node member
  rcases belongs node member with boot | ⟨gate, inside, op⟩
  · rw [boot]
    trivial
  · rw [op]
    obtain rfl : gate = .MAJORITY := by simpa [vectorGates] using inside
    rfl

/-- The last operation of a circuit returns a ciphertext for plaintext modulus four. -/
theorem four_of_composes (composes : Composes w plat round g EK sk p circuit inputs bits) (some_node : circuit ≠ []) :
    p = 4 := by
  obtain ⟨wires, run, all⟩ := composes
  obtain ⟨node, -, xs, ct, before, applied, rfl⟩ := evalM_last run some_node
  have reports : ∀ wire ∈ before ++ [ct], wire.p = p := by
    refine List.Forall₂.rec (motive := fun wires _ _ => ∀ wire ∈ wires, wire.p = p) (by simp) ?_ all
    intro wire m wires ms held _ rest
    exact List.forall_mem_cons.mpr ⟨held.1.ptModulus, rest⟩
  exact (reports ct (by simp)).symm.trans (run_four applied)

/-- Vector gates and `Bootstrap` compose for plaintext modulus four; for six and eight no circuit with an operation does. -/
theorem vector_circuits_compose_iff (sized : Sized w P) (hp : p = 4 ∨ p = 6 ∨ p = 8)
    (faithful : Faithful w plat round g EK (P.q / (16 * p)) z sk.signed) (key : sk.Generated w)
    (belongs : VectorCircuit p circuit) (order : Scoped bits.length circuit) (distinct : Distinct circuit)
    (fresh : List.Forall₂ (Fresh w sk p) inputs bits) :
    Composes w plat round g EK sk p circuit inputs bits ↔ p = 4 ∨ circuit = [] := by
  constructor
  · intro composes
    by_cases empty : circuit = []
    · exact .inr empty
    · exact .inl (four_of_composes composes empty)
  · intro condition
    have encrypted : List.Forall₂ (Encodes p sk.signed) inputs bits := fresh.imp fun ct m h => h.encodes
    obtain ⟨wires, run, all⟩ : ∃ wires,
        evalM Fault.outOfRange (fun op => op.run w plat round g EK) inputs circuit = .ok wires ∧
          List.Forall₂ (Encodes p sk.signed) wires (eval Operation.value bits circuit) := by
      rcases condition with rfl | rfl
      · have exact_bound : (P.q : ℚ) / (16 * (4 : ℕ)) = P.q / 64 := by norm_num
        rw [exact_bound] at faithful
        exact evalM_simulates Fault.outOfRange encrypted order
          (node_encodes sized faithful distinct (forFour_of_belongs belongs))
      · exact ⟨inputs, rfl, encrypted⟩
    refine ⟨wires, run, ?_⟩
    cases fresh with
    | nil =>
      have empty : circuit = [] := circuit_eq_nil order distinct belongs
      subst empty
      cases run
      exact .nil
    | cons first rest =>
      -- `Encrypt` has checked the modulus
      obtain ⟨e, a, made⟩ := first.made
      exact all.imp fun ct m h => ⟨h, encodes_decrypts sized key (encrypt_modulus_ok made) hp h⟩

end Circuits

/-! ### Encryptions without noise -/

def unitKey : LWEPrivateKey unitParams.n := ⟨fun _ => 1, 4096⟩

theorem unitKey_generated : unitKey.Generated .w64 := ⟨fun _ => show 1 < 4096 by decide, by decide⟩

/-- What `Encrypt` returns when it draws zeros. -/
def plainCt (p : ℕ) (m : Bool) : LWECiphertext unitParams.n :=
  { a := fun _ => 0, b := m.toNat * (256 / p), modulus := 256, p }

theorem plainCt_fresh {p : ℕ} (hp : p = 4 ∨ p = 6) (m : Bool) : Fresh .w64 unitKey p (plainCt p m) m where
  made := by
    refine ⟨0, fun _ => 0, ?_⟩
    rcases hp with rfl | rfl <;> cases m <;> rfl
  encodes := by
    have held : LWE.phase unitKey.signed (plainCt p m) = (m.toNat * (256 / p) : ℕ) := by simp [LWE.phase, plainCt]
    refine ⟨⟨fun _ => show 0 < 256 by decide, ?_⟩, rfl, rfl, 0, ?_⟩
    · show m.toNat * (256 / p) < 256
      rcases hp with rfl | rfl <;> cases m <;> decide
    · have q : (unitParams.q : ℚ) = 256 := by exact_mod_cast (rfl : unitParams.q = 256)
      rw [held, q]
      rcases hp with rfl | rfl <;> cases m <;> norm_num

theorem unit_majority_composes :
    Composes .w64 .threeDigits exactRound unitParams.rgsw.toGadget unitKeys unitKey 4
      [⟨.gate .MAJORITY, [0, 1, 2]⟩, ⟨.bootstrap, [3]⟩] [plainCt 4 true, plainCt 4 false, plainCt 4 true]
      [true, false, true] := by
  have fresh := plainCt_fresh (.inl rfl : 4 = 4 ∨ 4 = 6)
  have faithful := unit_faithful (show 2 ≤ (unitParams.q : ℚ) / (16 * (4 : ℕ)) by norm_num [unitParams])
    unitParams.rgsw.toGadget
  refine (vector_circuits_compose_iff unit_sized (.inl rfl) faithful unitKey_generated ?_ (by decide)
    (by unfold Distinct; decide) (.cons (fresh true) (.cons (fresh false) (.cons (fresh true) .nil)))).mpr (.inl rfl)
  intro node member
  rcases List.mem_cons.mp member with rfl | member
  · exact .inr ⟨.MAJORITY, by decide, rfl⟩
  · obtain rfl := List.mem_singleton.mp member
    exact .inl rfl

/-- AND3 of three fresh encryptions for plaintext modulus six. -/
theorem unit_and3_not_composes :
    List.Forall₂ (Fresh .w64 unitKey 6) [plainCt 6 true, plainCt 6 true, plainCt 6 true] [true, true, true] ∧
      ¬ Composes .w64 .threeDigits exactRound unitParams.rgsw.toGadget unitKeys unitKey 6
        [⟨.gate .AND3, [0, 1, 2]⟩] [plainCt 6 true, plainCt 6 true, plainCt 6 true] [true, true, true] := by
  have fresh := plainCt_fresh (.inr rfl : 6 = 4 ∨ 6 = 6) true
  refine ⟨.cons fresh (.cons fresh (.cons fresh .nil)), fun composes => ?_⟩
  exact absurd (four_of_composes composes (by simp)) (by decide)

end LWEGate
end MultiKeyFHE
