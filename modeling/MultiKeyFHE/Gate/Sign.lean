import MultiKeyFHE.Gate.SingleKey

/-!
# Large-precision sign and digit decomposition

`EvalFloor`, `EvalSign` and `EvalDecomp`. The last two change the gadget base of the shared parameters in the middle
of their loop, so they are programs over the gadget, and they can throw after a change.
-/

namespace MultiKeyFHE
open NativeInteger NativeVector

namespace LWEGate
variable {P : SingleKeyParams} (w : NativeSize) (plat : Platform) (round : FloorRound)

/-! ### Floor -/

/-- A quarter of `q` or its negative, by the half of the circle. -/
def halfSign : Func := fun x q Q => if x < q >>> 1 then sub w Q (q >>> 2) else q >>> 2

def sawtooth : Func := fun x q Q =>
  if x < q >>> 2 then sub w (sub w Q (q >>> 1)) x
  else if q >>> 2 ≤ x ∧ x < mul w 3 (q >>> 2) then x
  else sub w (add w Q (q >>> 1)) x

/-- `ModSubEq` refuses a vector of another length. -/
def sameLength {n len : ℕ} (ct : LWECiphertext n) : Except Fault (LWECiphertext len) :=
  if h : n = len then .ok (h ▸ ct)
  else .error (.mathError "ModSubEq called on NativeVectorT's with different parameters.")

/-- One of the two passes of `EvalFloor`: `ct1` less what bootstrapping finds in its low part. -/
def floorPass {len : ℕ} (g : Gadget) (EK : EvalKeys P) (q mod : ℕ) (f : Func) (ct1 : LWECiphertext len) :
    Except Fault (LWECiphertext len) := do
  let ct1Modq ← LWE.changeModulus w q (LWE.copy ct1)
  let ct2 ← bootstrapFunc w plat round g EK ct1Modq f mod
  LWE.evalSubEq w ct1 (← sameLength ct2)

/-- `1 << count`. The one is an `int`, and what is left of its sign is extended when a native integer is made of it. -/
def oneShiftedBy (count : ℕ) : Except Fault ℕ :=
  if count < 31 then .ok (2 ^ count)
  else if count = 31 then .ok (2 ^ w.bits - 2 ^ 31)
  else .error .undefinedShift

/-- `roundbits == 0 ? LWEParams->Getq() : beta * (1 << roundbits + 1)`. -/
def floorModulus (q beta roundbits : ℕ) : Except Fault ℕ :=
  if roundbits = 0 then .ok q
  else do return mul w beta (← oneShiftedBy w ((roundbits + 1) % 2 ^ 32))

def evalFloor {len : ℕ} (g : Gadget) (EK : EvalKeys P) (ct : LWECiphertext len) (beta roundbits : ℕ) :
    Except Fault (LWECiphertext len) := do
  let q ← floorModulus w P.q beta roundbits
  let mod := ct.modulus
  let ct1 := LWE.evalAddConstEq w (LWE.copy ct) beta
  let ct1 ← floorPass w plat round g EK q mod (halfSign w) ct1
  floorPass w plat round g EK q mod (sawtooth w) ct1

variable {w} in
theorem changeModulus_ok {len mod : ℕ} {ct ct' : LWECiphertext len} (h : LWE.changeModulus w mod ct = .ok ct') :
    ¬ modulusTooLarge w mod := by
  intro large
  rw [LWE.changeModulus, setModulus, if_pos large] at h
  cases h

variable {w} in
theorem changeModulus_error {len mod : ℕ} {ct : LWECiphertext len} {e : Fault}
    (h : LWE.changeModulus w mod ct = .error e) : modulusTooLarge w mod := by
  by_contra small
  rw [LWE.changeModulus, setModulus, if_neg small] at h
  cases h

theorem evalFloor_passes {len : ℕ} {g : Gadget} {EK : EvalKeys P} {ct : LWECiphertext len} {q beta roundbits : ℕ}
    (h : floorModulus w P.q beta roundbits = .ok q) :
    evalFloor w plat round g EK ct beta roundbits = (do
      let ct1 ← floorPass w plat round g EK q ct.modulus (halfSign w) (LWE.evalAddConstEq w (LWE.copy ct) beta)
      floorPass w plat round g EK q ct.modulus (sawtooth w) ct1) := by
  rw [evalFloor, h]
  rfl

/-! ### Programs over the gadget in use -/

/-- A call leaves the gadget it has made also when it throws. Without a result the loop has not ended. -/
abbrev SignM (α : Type) : Type := Gadget → Option (Except Fault α × Gadget)

namespace SignM
variable {α β : Type}

def pure (a : α) : SignM α := fun g => some (.ok a, g)

def throw (e : Fault) : SignM α := fun g => some (.error e, g)

def bind (x : SignM α) (f : α → SignM β) : SignM β := fun g =>
  match x g with
  | none => none
  | some (.error e, g') => some (.error e, g')
  | some (.ok a, g') => f a g'

/-- A call that reads the gadget and leaves it. -/
def reading (call : Gadget → Except Fault α) : SignM α := fun g => some (call g, g)

def changeBaseG (base : ℕ) : SignM Unit := fun g => some (.ok (), g.changeBaseG plat base)

end SignM

/-! ### The two loops -/

def keyMissing (curBase : ℕ) : Fault := .openfheError ("ERROR: No key [" ++ toString curBase ++ "] found in the map")

/-- The base for a modulus of `binLog` bits, if it is to change. -/
def baseFor (binLog : ℕ) : Option ℕ :=
  if binLog ≤ 17 then some (2 ^ 27) else if binLog ≤ 26 then some (2 ^ 18) else none

/-- The part of the loop body for a map of three keys. The message names the base of the caller. -/
def followBase (EKs : KeyMap (EvalKeys P)) (curBase binLog : ℕ) (curEK : EvalKeys P) : SignM (EvalKeys P) :=
  if EKs.length = 3 then
    match baseFor binLog with
    | none => SignM.pure curEK
    | some base => SignM.bind (SignM.changeBaseG plat base) fun _ =>
      match EKs.get? base with
      | none => SignM.throw (keyMissing curBase)
      | some EK => SignM.pure EK
  else SignM.pure curEK

/-- How the loops of `EvalSign` and `EvalDecomp` differ: the next modulus, its logarithm, and what they store. -/
structure Rounds where
  next : ℕ → ℕ
  binLog : ℕ → ℕ
  stores : Bool

/-- `mod = (mod << 1) * beta / q` and `GetMSB(mod) - 1`. -/
def signRounds (q beta : ℕ) : Rounds := ⟨fun mod => mul w (wrap w (mod <<< 1)) beta / q, fun mod => mod.size - 1, false⟩

/-- `mod = mod / q * 2 * beta` and `ceil(log2(mod))`. -/
def decompRounds (q beta : ℕ) : Rounds := ⟨fun mod => mul w (mul w (mod / q) 2) beta, Nat.clog 2, true⟩

/-- What a round adds to `ret`. -/
def lowDigit {len : ℕ} (stores : Bool) (cttmp : LWECiphertext len) (ret : List (LWECiphertext len)) :
    Except Fault (List (LWECiphertext len)) :=
  if stores then do return ret ++ [← LWE.changeModulus w P.q (LWE.copy cttmp)] else .ok ret

/-- One round up to the change of the base. A modulus of zero stops the machine in `ModSwitch`. -/
def floorRound {len : ℕ} (r : Rounds) (beta mod : ℕ) (curEK : EvalKeys P) (cttmp : LWECiphertext len)
    (ret : List (LWECiphertext len)) (g : Gadget) : Except Fault (LWECiphertext len × List (LWECiphertext len)) := do
  let ret ← lowDigit (P := P) w r.stores cttmp ret
  let cttmp ← evalFloor w plat round g curEK cttmp beta 0
  if r.next mod = 0 then throw .divisionByZero
  return (LWE.modSwitch round (r.next mod) cttmp, ret)

/-- `while (mod > q)`, for at most `fuel` rounds. -/
def floorLoop {len : ℕ} (r : Rounds) (beta : ℕ) (EKs : KeyMap (EvalKeys P)) (curBase : ℕ) :
    ℕ → ℕ → EvalKeys P → LWECiphertext len → List (LWECiphertext len) →
      SignM (EvalKeys P × LWECiphertext len × List (LWECiphertext len))
  | 0, _, _, _, _ => fun _ => none
  | fuel + 1, mod, curEK, cttmp, ret =>
    if mod > P.q then
      SignM.bind (SignM.reading (floorRound w plat round r beta mod curEK cttmp ret)) fun s =>
      SignM.bind (followBase plat EKs curBase (r.binLog (r.next mod)) curEK) fun curEK =>
      floorLoop r beta EKs curBase fuel (r.next mod) curEK s.1 s.2
    else SignM.pure (curEK, cttmp, ret)

/-- The guards of both, which throw before anything has changed, and the loop. -/
def floorAll {len : ℕ} (r : Rounds) (name : String) (fuel : ℕ) (EKs : KeyMap (EvalKeys P)) (ct : LWECiphertext len)
    (beta curBase : ℕ) : SignM (EvalKeys P × LWECiphertext len × List (LWECiphertext len)) :=
  if ct.modulus ≤ P.q then
    SignM.throw (.notImplementedError ("ERROR: " ++ name ++
      " is only for large precision. For small precision, please use bootstrapping directly"))
  else
    match EKs.get? curBase with
    | none => SignM.throw (keyMissing curBase)
    | some curEK => floorLoop w plat round r beta EKs curBase fuel ct.modulus curEK (LWE.copy ct) []

def quarter : Func := fun x q Q => if x < q / 2 then Q / 4 else sub w Q (Q / 4)
def quarterNeg : Func := fun x q Q => if x < q / 2 then sub w Q (Q / 4) else Q / 4

/-- The last bootstrapping of `EvalSign`. -/
def lastSign {len : ℕ} (schemeSwitch : Bool) (beta : ℕ) (curEK : EvalKeys P) (cttmp : LWECiphertext len) (g : Gadget) :
    Except Fault (LWECiphertext P.n) := do
  let cttmp := LWE.evalAddConstEq w cttmp beta
  if schemeSwitch then bootstrapFunc w plat round g curEK cttmp (quarterNeg w) P.q
  else do return LWE.evalSubConstEq w (← bootstrapFunc w plat round g curEK cttmp (quarter w) P.q) (P.q >>> 2)

def evalSign {len : ℕ} (fuel : ℕ) (EKs : KeyMap (EvalKeys P)) (ct : LWECiphertext len) (beta : ℕ) (schemeSwitch : Bool) :
    SignM (LWECiphertext P.n) := fun g =>
  SignM.bind (floorAll w plat round (signRounds w P.q beta) "EvalSign" fuel EKs ct beta g.baseG) (fun s =>
    SignM.bind (SignM.reading (lastSign w plat round schemeSwitch beta s.1 s.2.1)) fun cttmp =>
    SignM.bind (SignM.changeBaseG plat g.baseG) fun _ => SignM.pure cttmp) g

def evalDecomp {len : ℕ} (fuel : ℕ) (EKs : KeyMap (EvalKeys P)) (ct : LWECiphertext len) (beta : ℕ) :
    SignM (List (LWECiphertext len)) := fun g =>
  SignM.bind (floorAll w plat round (decompRounds w P.q beta) "EvalDecomp" fuel EKs ct beta g.baseG) (fun s =>
    SignM.bind (SignM.changeBaseG plat g.baseG) fun _ => SignM.pure (s.2.2 ++ [s.2.1])) g

end LWEGate
end MultiKeyFHE
