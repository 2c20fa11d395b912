import MultiKeyFHE.Gate.MKLWE
import MultiKeyFHE.Gate.MNTRU

/-!
# Copies of keys and ciphertexts

Copy construction, assignment and `save` / `load` of `MNTRUPrivateKeyImpl`, `MNTRUCiphertextImpl` and
`MKLWECiphertextImpl`. The move forms have the same bodies. A copied ciphertext has the default plaintext modulus, an
assigned or loaded one that of its target, and a loaded key has the party count of its target.
-/

namespace MultiKeyFHE
open NativeInteger

/-- The ways to make one object from another. The last two write into an object that exists. -/
inductive Transfer (Target : Type) where
  | copy
  | assign (target : Target)
  | saveLoad (target : Target)

/-! ### Private keys -/

namespace MNTRUPrivateKey
variable {parties n : ℕ}

abbrev Any : Type := (parties : ℕ) × (n : ℕ) × MNTRUPrivateKey parties n

def empty : Any := ⟨0, 0, ⟨fun u => u.elim0, fun u => u.elim0, 0, 0⟩⟩

def copy (rhs : MNTRUPrivateKey parties n) : MNTRUPrivateKey parties n := ⟨rhs.F, rhs.F_inv, rhs.modulus, rhs.k⟩

def assign (_target : Any) (rhs : MNTRUPrivateKey parties n) : MNTRUPrivateKey parties n :=
  ⟨rhs.F, rhs.F_inv, rhs.modulus, rhs.k⟩

/-- The matrices, whose vectors carry the modulus. -/
structure Archive (parties n : ℕ) where
  F : Fin parties → Fin n → Fin n → ℕ
  F_inv : Fin parties → Fin n → Fin n → ℕ
  modulus : ℕ

def save (sk : MNTRUPrivateKey parties n) : ℕ × Archive parties n := (serializedVersion, ⟨sk.F, sk.F_inv, sk.modulus⟩)

def load (target : Any) : ℕ × Archive parties n → Except Fault (MNTRUPrivateKey parties n)
  | (version, ar) => do
    checkVersion version
    return ⟨ar.F, ar.F_inv, ar.modulus, target.2.2.k⟩

def transfer (sk : MNTRUPrivateKey parties n) : Transfer Any → Except Fault (MNTRUPrivateKey parties n)
  | .copy => .ok (copy sk)
  | .assign target => .ok (assign target sk)
  | .saveLoad target => load target (save sk)

/-- A transfer that leaves `m_k` as it was. -/
def Keeps (sk : MNTRUPrivateKey parties n) : Transfer Any → Prop
  | .saveLoad target => target.2.2.k = sk.k
  | _ => True

theorem transfer_self {sk : MNTRUPrivateKey parties n} {t : Transfer Any} (keeps : sk.Keeps t) :
    sk.transfer t = .ok sk := by
  cases t with
  | copy => rfl
  | assign target => rfl
  | saveLoad target =>
    change Except.ok { sk with k := target.2.2.k } = Except.ok sk
    rw [show target.2.2.k = sk.k from keeps]

theorem keeps_of_transfer {sk sk' start : MNTRUPrivateKey parties n} {t : Transfer Any} (h : sk.transfer t = .ok sk')
    (same : sk'.k = start.k) : start.Keeps t := by
  cases t with
  | copy => trivial
  | assign target => trivial
  | saveLoad target =>
    cases h
    exact same

end MNTRUPrivateKey

/-! ### Ciphertexts -/

namespace MNTRUCiphertext
variable {k n : ℕ}

abbrev Any : Type := (k : ℕ) × (n : ℕ) × MNTRUCiphertext k n

def assign (target : Any) (rhs : MNTRUCiphertext k n) : MNTRUCiphertext k n := ⟨rhs.elements, rhs.modulus, target.2.2.p⟩

structure Archive (k n : ℕ) where
  elements : Fin k → Fin n → ℕ
  modulus : ℕ

def save (ct : MNTRUCiphertext k n) : ℕ × Archive k n := (serializedVersion, ⟨ct.elements, ct.modulus⟩)

def load (target : Any) : ℕ × Archive k n → Except Fault (MNTRUCiphertext k n)
  | (version, ar) => do
    checkVersion version
    return ⟨ar.elements, ar.modulus, target.2.2.p⟩

def transfer (ct : MNTRUCiphertext k n) : Transfer Any → Except Fault (MNTRUCiphertext k n)
  | .copy => .ok (MNTRU.copy ct)
  | .assign target => .ok (assign target ct)
  | .saveLoad target => load target (save ct)

def written : Transfer Any → ℕ
  | .copy => 4
  | .assign target | .saveLoad target => target.2.2.p

theorem transfer_eq (ct : MNTRUCiphertext k n) (t : Transfer Any) : ct.transfer t = .ok { ct with p := written t } := by
  cases t <;> rfl

end MNTRUCiphertext

namespace MKLWECiphertext
variable {k n : ℕ}

abbrev Any : Type := (k : ℕ) × (n : ℕ) × MKLWECiphertext k n

def assign (target : Any) (rhs : MKLWECiphertext k n) : MKLWECiphertext k n :=
  ⟨rhs.a, rhs.b, rhs.modulus, target.2.2.p⟩

structure Archive (k n : ℕ) where
  a : Fin k → Fin n → ℕ
  b : ℕ
  modulus : ℕ

def save (ct : MKLWECiphertext k n) : ℕ × Archive k n := (serializedVersion, ⟨ct.a, ct.b, ct.modulus⟩)

def load (target : Any) : ℕ × Archive k n → Except Fault (MKLWECiphertext k n)
  | (version, ar) => do
    checkVersion version
    return ⟨ar.a, ar.b, ar.modulus, target.2.2.p⟩

def transfer (ct : MKLWECiphertext k n) : Transfer Any → Except Fault (MKLWECiphertext k n)
  | .copy => .ok (MKLWE.copy ct)
  | .assign target => .ok (assign target ct)
  | .saveLoad target => load target (save ct)

def written : Transfer Any → ℕ
  | .copy => 4
  | .assign target | .saveLoad target => target.2.2.p

theorem transfer_eq (ct : MKLWECiphertext k n) (t : Transfer Any) : ct.transfer t = .ok { ct with p := written t } := by
  cases t <;> rfl

end MKLWECiphertext

/-! ### Compositions -/

namespace Transfers
variable {w : NativeSize} {p : UniEncParams w}

structure Objects (pn : MNTRUParams p) (pl : MKLWEParams p) where
  sk : MNTRUPrivateKey p.k pn.n
  ctN : MNTRUCiphertext p.k pn.n
  ctL : MKLWECiphertext p.k pl.n

inductive Act where
  | key (t : Transfer MNTRUPrivateKey.Any)
  | mntru (t : Transfer MNTRUCiphertext.Any)
  | mklwe (t : Transfer MKLWECiphertext.Any)

variable {pn : MNTRUParams p} {pl : MKLWEParams p}

def act (s : Objects pn pl) : Act → Except Fault (Objects pn pl)
  | .key t => do return { s with sk := ← s.sk.transfer t }
  | .mntru t => do return { s with ctN := ← s.ctN.transfer t }
  | .mklwe t => do return { s with ctL := ← s.ctL.transfer t }

/-- What the accessors, the decryptions and the bootstrapping read is the same in both states. -/
structure Unchanged (start s : Objects pn pl) : Prop where
  getk : s.sk.k = start.sk.k
  getF_col0 : (MNTRU.getF_col0 s.sk).map List.ofFn = (MNTRU.getF_col0 start.sk).map List.ofFn
  getF_inv_coli : ∀ i, (MNTRU.getF_inv_coli s.sk i).map List.ofFn = (MNTRU.getF_inv_coli start.sk i).map List.ofFn
  ptModulusN : s.ctN.p = start.ctN.p
  ptModulusL : s.ctL.p = start.ctL.p
  decrypt : ∀ m, MNTRU.decrypt w s.sk s.ctN m = MNTRU.decrypt w start.sk start.ctN m
  decrypt2 : ∀ m, MNTRU.decrypt2 w s.sk s.ctN m = MNTRU.decrypt2 w start.sk start.ctN m
  decryptL : ∀ keyModulus key m, MKLWE.decrypt w keyModulus key s.ctL m = MKLWE.decrypt w keyModulus key start.ctL m
  bootstrapN : ∀ gate EK, MNTRUGate.bootstrapGateCore gate EK s.ctN = MNTRUGate.bootstrapGateCore gate EK start.ctN
  bootstrapL : ∀ gate EK, MKLWEGate.bootstrapGateCore gate EK s.ctL = MKLWEGate.bootstrapGateCore gate EK start.ctL

/-- The step leaves the member that its `load`, copy or assignment does not carry at the value of `start`. -/
def Keeps (start : Objects pn pl) : Act → Prop
  | .key t => start.sk.Keeps t
  | .mntru t => MNTRUCiphertext.written t = start.ctN.p
  | .mklwe t => MKLWECiphertext.written t = start.ctL.p

theorem Unchanged.refl (s : Objects pn pl) : Unchanged s s :=
  ⟨rfl, rfl, fun _ => rfl, rfl, rfl, fun _ => rfl, fun _ => rfl, fun _ _ _ => rfl, fun _ _ => rfl, fun _ _ => rfl⟩

theorem act_self {start : Objects pn pl} {a : Act} (keeps : Keeps start a) : act start a = .ok start := by
  cases a with
  | key t =>
    rw [act, MNTRUPrivateKey.transfer_self keeps]
    rfl
  | mntru t =>
    rw [act, MNTRUCiphertext.transfer_eq, show MNTRUCiphertext.written t = start.ctN.p from keeps]
    rfl
  | mklwe t =>
    rw [act, MKLWECiphertext.transfer_eq, show MKLWECiphertext.written t = start.ctL.p from keeps]
    rfl

theorem keeps_of_act {start s s' : Objects pn pl} {a : Act} (h : act s a = .ok s') (same : Unchanged start s') :
    Keeps start a := by
  cases a with
  | key t =>
    rw [act] at h
    obtain ⟨sk', moved, h⟩ := Run.bind_ok h
    cases h
    exact MNTRUPrivateKey.keeps_of_transfer moved same.getk
  | mntru t =>
    rw [act, MNTRUCiphertext.transfer_eq] at h
    cases h
    exact same.ptModulusN
  | mklwe t =>
    rw [act, MKLWECiphertext.transfer_eq] at h
    cases h
    exact same.ptModulusL

/-- After every step of a composition everything is as at the start, exactly when each step keeps its member. -/
theorem composition_unchanged_iff (start : Objects pn pl) (acts : List Act) :
    (∀ done, done <+: acts → ∃ s, done.foldlM act start = .ok s ∧ Unchanged start s) ↔
      ∀ a ∈ acts, Keeps start a := by
  constructor
  · intro unchanged a member
    obtain ⟨done, rest, rfl⟩ := List.append_of_mem member
    obtain ⟨s', run, same⟩ := unchanged (done ++ [a]) ⟨rest, by simp⟩
    obtain ⟨s, -, step⟩ := Run.foldlM_concat_ok run
    exact keeps_of_act step same
  · intro keeps done front
    obtain ⟨s, run, rfl⟩ := Run.foldlM_ok (f := act) (l := done) (s := start) (fun _ s => s = start) rfl
      fun before a after s split now => by
        subst now
        have member : a ∈ acts := front.subset (split ▸ by simp)
        exact ⟨s, act_self (keeps a member), rfl⟩
    exact ⟨s, run, Unchanged.refl s⟩

theorem sixteen_le_base : 16 ≤ 64 := by decide

theorem base_le : 64 ≤ 2 ^ 15 := by decide

/-- The secret matrix one with an encryption of one of plaintext modulus four, and a ciphertext of modulus two. -/
def plainObjects : Objects MNTRUGate.plainMNTRU (MKLWEGate.plainMKLWE 64 sixteen_le_base base_le) where
  sk := MNTRUGate.plainKey
  ctN := { elements := fun _ _ => 2 ^ 10, modulus := 2 ^ 12 }
  ctL := { a := fun _ _ => 0, b := 0, modulus := 2 ^ 12, p := 2 }

/-- A key loaded into a new object decrypts the one to zero, and a copied ciphertext forgets its modulus. -/
theorem plainObjects_changed :
    (∃ s, [Act.key (.saveLoad MNTRUPrivateKey.empty)].foldlM act plainObjects = .ok s ∧
      MNTRU.decrypt2 .w64 plainObjects.sk plainObjects.ctN 4 = .ok 1 ∧ MNTRU.decrypt2 .w64 s.sk s.ctN 4 = .ok 0 ∧
      ¬ Unchanged plainObjects s) ∧
    ∃ s, [Act.mklwe .copy].foldlM act plainObjects = .ok s ∧ ¬ Unchanged plainObjects s := by
  refine ⟨⟨_, rfl, by decide +kernel, by decide +kernel, fun same => ?_⟩, ⟨_, rfl, fun same => ?_⟩⟩
  · exact absurd same.getk (by decide)
  · exact absurd same.ptModulusL (by decide)

end Transfers
end MultiKeyFHE
