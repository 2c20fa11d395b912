import MultiKeyFHE.Context.Keys

/-!
# Histories of a context

Any sequence of context operations. After a key generation the context should hold keys of that secret key under
the current parameters, and after `ClearBTKeys` none at all. Both depend on what the cache held before.
-/

namespace MultiKeyFHE
namespace BinFHEContext
open BinFHECryptoParams
variable {L M K : Type}

inductive Op (L M K : Type) where
  | generateNumbers (n N q Q : ℕ) (std : ℚ) (baseKS baseG baseR : ℕ) (keyDist : SecretKeyDist) (method : Method)
      (numAutoKeys : ℕ)
  | generatePrecision (set : ParamSet) (arbFunc : Bool) (logQ : ℕ) (N : ℤ) (method : Method) (timeOptimization : Bool)
  | generateParamSet (draw : PolyValues) (set : ParamSet) (method : Method)
  | generateContextParams (params : BinFHEContextParams) (method : Method)
  | btKeyGen (sk : L) (mode : KeygenMode)
  | mkbtKeyGen (sk : MultiSecret M K) (mode : KeygenMode)
  | btKeyLoad (key : RingGSWBTKey L)
  | btKeyMapLoadSingleElement (baseG : ℕ) (key : RingGSWBTKey L)
  | nbtKeyLoad (key : VectorNTRUBTKey L)
  | nbtKeyMapLoadSingleElement (baseG : ℕ) (key : VectorNTRUBTKey L)
  | clearBTKeys

/-- The end of every overload: `m_params` is assigned before the scheme object can refuse the method. -/
def install (c : BinFHEContext L M K) (made : Except Fault BinFHECryptoParams) (method : Method) :
    Except Fault Unit × BinFHEContext L M K :=
  match made with
  | .error e => (.error e, c)
  | .ok P =>
    match BinFHEScheme.construct method with
    | .error e => (.error e, { c with params := some P })
    | .ok scheme => (.ok (), { c with params := some P, binfhescheme := some scheme })

def commit (c : BinFHEContext L M K) (call : Except Fault (BinFHEContext L M K)) :
    Except Fault Unit × BinFHEContext L M K :=
  match call with
  | .error e => (.error e, c)
  | .ok c' => (.ok (), c')

section Step
variable (w : NativeSize) (plat : Platform)

/-- The overload for large precision keeps its last argument, also when it throws later on. -/
def generatePrecision (c : BinFHEContext L M K) (set : ParamSet) (arbFunc : Bool) (logQ : ℕ) (N : ℤ) (method : Method)
    (timeOptimization : Bool) : Except Fault Unit × BinFHEContext L M K :=
  match checkPrecision set logQ method with
  | .error e => (.error e, c)
  | .ok _ => install { c with timeOptimization } (ofPrecision w plat set arbFunc logQ N method timeOptimization) method

/-- One operation, with the state it leaves also when it throws. -/
def step (c : BinFHEContext L M K) : Op L M K → Except Fault Unit × BinFHEContext L M K
  | .generateNumbers n N q Q std baseKS baseG baseR keyDist method numAutoKeys =>
    install c (ofNumbers w plat n N q Q std baseKS baseG baseR keyDist method numAutoKeys) method
  | .generatePrecision set arbFunc logQ N method timeOptimization =>
    generatePrecision w plat c set arbFunc logQ N method timeOptimization
  | .generateParamSet draw set method => install c (ofParamSet w plat draw set method) method
  | .generateContextParams params method => install c (ofContextParams w plat params method) method
  | .btKeyGen sk mode => commit c (btKeyGen plat c sk mode)
  | .mkbtKeyGen sk _ => commit c (mkbtKeyGen plat c sk)
  | .btKeyLoad key => (.ok (), { c with BTKey := key })
  | .btKeyMapLoadSingleElement baseG key => (.ok (), { c with BTKey_map := c.BTKey_map.write key baseG })
  | .nbtKeyLoad key => (.ok (), { c with NBTKey := key })
  | .nbtKeyMapLoadSingleElement baseG key => (.ok (), { c with NBTKey_map := c.NBTKey_map.write key baseG })
  | .clearBTKeys => (.ok (), clearBTKeys c)

def reached (ops : List (Op L M K)) : BinFHEContext L M K := ops.foldl (fun c op => (step w plat c op).2) {}

end Step

/-! ### The law and its condition -/

/-- What should hold right after an operation has returned. -/
def Lawful (c : BinFHEContext L M K) : Op L M K → Prop
  | .btKeyGen sk _ => ∃ P mode, c.params = some P ∧ c.BTKey = generated P sk mode
  | .mkbtKeyGen sk _ => ∃ P, c.params = some P ∧ c.MKBTKey = generatedMulti P sk
  | .clearBTKeys => c.BTKey = {} ∧ c.BTKey_map = [] ∧ c.NBTKey = {} ∧ c.NBTKey_map = [] ∧ c.MKBTKey = {} ∧ c.MKBTKey_map = []
  | _ => True

/-- The states in which the operation keeps the law: the cache is passed over, or what it holds for the base in
use is right already; and there is no multi-key key to clear. -/
def Meets (c : BinFHEContext L M K) : Op L M K → Prop
  | .btKeyGen sk _ => ∀ P r, c.params = some P → P.RGSWParams = some r →
    Regenerates c.timeOptimization r.toGadget c.BTKey_map ∨
      ∃ mode, c.BTKey_map.get? r.baseG = some (generated P sk mode)
  | .mkbtKeyGen sk _ => ∀ P u, c.params = some P → P.UniEncParams = some u →
    Regenerates c.timeOptimization u.toGadget c.MKBTKey_map ∨ c.MKBTKey_map.get? u.baseG = some (generatedMulti P sk)
  | .clearBTKeys => c.MKBTKey = {} ∧ c.MKBTKey_map = []
  | _ => True

/-! ### Key generation -/

theorem generated_congr {P P' : BinFHECryptoParams} (same : P.read = P'.read) (sk : L) (mode : KeygenMode) :
    generated P sk mode = generated P' sk mode := by
  unfold generated
  rw [same]

theorem generatedMulti_congr {P P' : BinFHECryptoParams} (same : P.read = P'.read) (sk : MultiSecret M K) :
    generatedMulti P sk = generatedMulti P' sk := by
  unfold generatedMulti
  rw [same]

theorem generated_ne_empty (P : BinFHECryptoParams) (sk : L) (mode : KeygenMode) : generated P sk mode ≠ {} := by
  intro h
  cases congrArg RingGSWBTKey.BSkey h

theorem generatedMulti_ne_empty (P : BinFHECryptoParams) (sk : MultiSecret M K) : generatedMulti P sk ≠ {} := by
  intro h
  cases sk with
  | mntru sk => cases congrArg UniEncBTKey.BSkey h
  | mklwe sk => cases congrArg UniEncBTKey.BSkey h

theorem ofPointer_ok {α : Type} {p : Option α} {a : α} (h : ofPointer p = .ok a) : p = some a := by
  cases p with
  | none => cases h
  | some b =>
    cases h
    rfl

theorem keyGen_ok {scheme : BinFHEScheme} {P : BinFHECryptoParams} {sk : L} {mode : KeygenMode} {key : RingGSWBTKey L}
    (h : keyGen scheme P sk mode = .ok key) : key = generated P sk mode := by
  unfold keyGen at h
  obtain ⟨_, -, h⟩ := Run.bind_ok h
  obtain ⟨_, -, h⟩ := Run.bind_ok h
  obtain ⟨_, -, h⟩ := Run.bind_ok h
  cases h
  rfl

theorem mkKeyGen_ok {scheme : BinFHEScheme} {P : BinFHECryptoParams} {sk : MultiSecret M K} {key : UniEncBTKey M K}
    (h : mkKeyGen scheme P sk = .ok key) : key = generatedMulti P sk := by
  unfold mkKeyGen at h
  cases sk with
  | mntru sk =>
    obtain ⟨_, -, h⟩ := Run.bind_ok h
    obtain ⟨_, -, h⟩ := Run.bind_ok h
    obtain ⟨_, -, h⟩ := Run.bind_ok h
    cases h
    rfl
  | mklwe sk =>
    obtain ⟨_, -, h⟩ := Run.bind_ok h
    obtain ⟨_, -, h⟩ := Run.bind_ok h
    obtain ⟨_, -, h⟩ := Run.bind_ok h
    cases h
    rfl

theorem setRGSW_read {P : BinFHECryptoParams} {r : RingGSWCryptoParams} {g g' : Gadget} (same : g.read = g'.read) :
    (setRGSW P r g).read = (setRGSW P r g').read := by
  simp only [BinFHECryptoParams.read, setRGSW, Option.map_some, same]

theorem setUniEnc_read {P : BinFHECryptoParams} {u : UniEncCryptoParams} {g g' : Gadget} (same : g.read = g'.read) :
    (setUniEnc P u g).read = (setUniEnc P u g').read := by
  simp only [BinFHECryptoParams.read, setUniEnc, Option.map_some, same]

theorem keyGen_setRGSW {scheme : BinFHEScheme} {P : BinFHECryptoParams} {r : RingGSWCryptoParams} {g g' : Gadget}
    (same : g.read = g'.read) (sk : L) (mode : KeygenMode) :
    keyGen scheme (setRGSW P r g) sk mode = keyGen scheme (setRGSW P r g') sk mode := by
  unfold keyGen
  rw [generated_congr (setRGSW_read same)]
  rfl

theorem mkKeyGen_setUniEnc {scheme : BinFHEScheme} {P : BinFHECryptoParams} {u : UniEncCryptoParams} {g g' : Gadget}
    (same : g.read = g'.read) (sk : MultiSecret M K) :
    mkKeyGen scheme (setUniEnc P u g) sk = mkKeyGen scheme (setUniEnc P u g') sk := by
  unfold mkKeyGen
  rw [generatedMulti_congr (setUniEnc_read same)]
  rfl

theorem setRGSW_self {P : BinFHECryptoParams} {r : RingGSWCryptoParams} (present : P.RGSWParams = some r) :
    setRGSW P r r.toGadget = P := by
  unfold setRGSW
  rw [← present]

theorem setUniEnc_self {P : BinFHECryptoParams} {u : UniEncCryptoParams} (present : P.UniEncParams = some u) :
    setUniEnc P u u.toGadget = P := by
  unfold setUniEnc
  rw [← present]

section Law
variable {w : NativeSize} {plat : Platform} {c c' : BinFHEContext L M K}

def WellFormed (plat : Platform) (c : BinFHEContext L M K) : Prop := ∀ P, c.params = some P → Generated plat P

theorem btKeyGen_spec (wellFormed : c.WellFormed plat) {sk : L} {mode : KeygenMode}
    (h : btKeyGen plat c sk mode = .ok c') :
    ∃ P r P', c.params = some P ∧ P.RGSWParams = some r ∧ c'.params = some P' ∧ P'.read = P.read ∧ Generated plat P' ∧
      (Regenerates c.timeOptimization r.toGadget c.BTKey_map → c'.BTKey = generated P sk mode) ∧
      (¬ Regenerates c.timeOptimization r.toGadget c.BTKey_map → c'.BTKey = (c.BTKey_map.get? r.baseG).getD {}) := by
  unfold btKeyGen at h
  obtain ⟨P, params, h⟩ := Run.bind_ok h
  obtain ⟨r, present, h⟩ := Run.bind_ok h
  obtain ⟨⟨g, key, map⟩, renew, h⟩ := Run.bind_ok h
  cases h
  have params := ofPointer_ok params
  have present := ofPointer_ok present
  have made := wellFormed P params
  obtain ⟨reads, consistent, fresh, cached⟩ := renewKeys_spec (made.rgsw r present) (fun a b same => by
    simp only [keyGen_setRGSW same]) renew
  refine ⟨P, r, setRGSW P r g, params, present, rfl, ?_, ⟨?_, made.uniEnc, made.vntru⟩, ?_, cached⟩
  · rw [setRGSW_read reads, setRGSW_self present]
  · intro r' same
    cases same
    exact consistent
  · intro again
    obtain ⟨scheme, -, call⟩ := Run.bind_ok (fresh again)
    have := keyGen_ok call
    rwa [setRGSW_self present] at this

theorem mkbtKeyGen_spec (wellFormed : c.WellFormed plat) {sk : MultiSecret M K} (h : mkbtKeyGen plat c sk = .ok c') :
    ∃ P u P', c.params = some P ∧ P.UniEncParams = some u ∧ c'.params = some P' ∧ P'.read = P.read ∧ Generated plat P' ∧
      (Regenerates c.timeOptimization u.toGadget c.MKBTKey_map → c'.MKBTKey = generatedMulti P sk) ∧
      (¬ Regenerates c.timeOptimization u.toGadget c.MKBTKey_map →
        c'.MKBTKey = (c.MKBTKey_map.get? u.baseG).getD {}) := by
  unfold mkbtKeyGen at h
  obtain ⟨P, params, h⟩ := Run.bind_ok h
  obtain ⟨u, present, h⟩ := Run.bind_ok h
  obtain ⟨⟨g, key, map⟩, renew, h⟩ := Run.bind_ok h
  cases h
  have params := ofPointer_ok params
  have present := ofPointer_ok present
  have made := wellFormed P params
  obtain ⟨reads, consistent, fresh, cached⟩ := renewKeys_spec (made.uniEnc u present) (fun a b same => by
    simp only [mkKeyGen_setUniEnc same]) renew
  refine ⟨P, u, setUniEnc P u g, params, present, rfl, ?_, ⟨made.rgsw, ?_, made.vntru⟩, ?_, cached⟩
  · rw [setUniEnc_read reads, setUniEnc_self present]
  · intro u' same
    cases same
    exact consistent
  · intro again
    obtain ⟨scheme, -, call⟩ := Run.bind_ok (fresh again)
    have := mkKeyGen_ok call
    rwa [setUniEnc_self present] at this

theorem install_wellFormed (wellFormed : c.WellFormed plat) {made : Except Fault BinFHECryptoParams}
    (produced : ∀ P, made = .ok P → Generated plat P) (method : Method) : (install c made method).2.WellFormed plat := by
  unfold install
  cases made with
  | error e => exact wellFormed
  | ok P =>
    have now : ∀ P', some P = some P' → Generated plat P' := by
      intro P' same
      cases same
      exact produced P rfl
    cases BinFHEScheme.construct method with
    | error e => exact now
    | ok scheme => exact now

theorem commit_wellFormed (wellFormed : c.WellFormed plat) {call : Except Fault (BinFHEContext L M K)}
    (next : ∀ c', call = .ok c' → c'.WellFormed plat) : (commit c call).2.WellFormed plat := by
  unfold commit
  cases call with
  | error e => exact wellFormed
  | ok c' => exact next c' rfl

theorem commit_returned {call : Except Fault (BinFHEContext L M K)} (returned : (commit c call).1 = .ok ()) :
    call = .ok (commit c call).2 := by
  cases call with
  | error e => cases returned
  | ok c' => rfl

theorem generatePrecision_wellFormed (wellFormed : c.WellFormed plat) (set : ParamSet) (arbFunc : Bool) (logQ : ℕ) (N : ℤ)
    (method : Method) (timeOptimization : Bool) :
    (generatePrecision w plat c set arbFunc logQ N method timeOptimization).2.WellFormed plat := by
  unfold generatePrecision
  split
  · exact wellFormed
  · have kept : WellFormed plat { c with timeOptimization } := wellFormed
    exact install_wellFormed kept (fun P => ofPrecision_generated) method

theorem step_wellFormed (wellFormed : c.WellFormed plat) (op : Op L M K) : (step w plat c op).2.WellFormed plat := by
  cases op with
  | generateNumbers => exact install_wellFormed wellFormed (fun P => ofNumbers_generated) _
  | generatePrecision => exact generatePrecision_wellFormed wellFormed _ _ _ _ _ _
  | generateParamSet => exact install_wellFormed wellFormed (fun P => ofParamSet_generated) _
  | generateContextParams => exact install_wellFormed wellFormed (fun P => ofContextParams_generated) _
  | btKeyGen sk mode =>
    apply commit_wellFormed wellFormed
    intro c' call P same
    obtain ⟨_, _, P', _, _, params, _, produced, _⟩ := btKeyGen_spec wellFormed call
    cases params.symm.trans same
    exact produced
  | mkbtKeyGen sk mode =>
    apply commit_wellFormed wellFormed
    intro c' call P same
    obtain ⟨_, _, P', _, _, params, _, produced, _⟩ := mkbtKeyGen_spec wellFormed call
    cases params.symm.trans same
    exact produced
  | btKeyLoad | btKeyMapLoadSingleElement | nbtKeyLoad | nbtKeyMapLoadSingleElement | clearBTKeys => exact wellFormed

theorem reached_wellFormed (ops : List (Op L M K)) : (reached w plat ops).WellFormed plat := by
  unfold reached
  apply List.foldlRecOn (motive := fun c : BinFHEContext L M K => c.WellFormed plat)
  · intro P none
    cases none
  · intro c wellFormed op _
    exact step_wellFormed wellFormed op

theorem getD_empty_eq_iff {κ : Type} {map : KeyMap κ} {base : ℕ} {empty key : κ} (nonempty : key ≠ empty) :
    (map.get? base).getD empty = key ↔ map.get? base = some key := by
  cases map.get? base with
  | none => simp [Ne.symm nonempty]
  | some found => simp

theorem btKeyGen_lawful_iff (wellFormed : c.WellFormed plat) {sk : L} {mode : KeygenMode}
    (h : btKeyGen plat c sk mode = .ok c') : Lawful c' (.btKeyGen sk mode) ↔ Meets c (.btKeyGen sk mode) := by
  obtain ⟨P, r, P', params, present, params', reads, -, fresh, cached⟩ := btKeyGen_spec wellFormed h
  constructor
  · rintro ⟨Q, mode', now, key⟩ P₁ r₁ same₁ same₂
    cases params.symm.trans same₁
    cases present.symm.trans same₂
    cases params'.symm.trans now
    by_cases again : Regenerates c.timeOptimization r.toGadget c.BTKey_map
    · exact .inl again
    · rw [cached again, generated_congr reads, getD_empty_eq_iff (generated_ne_empty P sk mode')] at key
      exact .inr ⟨mode', key⟩
  · intro meets
    by_cases again : Regenerates c.timeOptimization r.toGadget c.BTKey_map
    · exact ⟨P', mode, params', by rw [fresh again, generated_congr reads]⟩
    · obtain ⟨mode', found⟩ := (meets P r params present).resolve_left again
      exact ⟨P', mode', params', by rw [cached again, found, Option.getD_some, generated_congr reads]⟩

theorem mkbtKeyGen_lawful_iff (wellFormed : c.WellFormed plat) {sk : MultiSecret M K} (mode : KeygenMode)
    (h : mkbtKeyGen plat c sk = .ok c') : Lawful c' (.mkbtKeyGen sk mode) ↔ Meets c (.mkbtKeyGen sk mode) := by
  obtain ⟨P, u, P', params, present, params', reads, -, fresh, cached⟩ := mkbtKeyGen_spec wellFormed h
  constructor
  · rintro ⟨Q, now, key⟩ P₁ u₁ same₁ same₂
    cases params.symm.trans same₁
    cases present.symm.trans same₂
    cases params'.symm.trans now
    by_cases again : Regenerates c.timeOptimization u.toGadget c.MKBTKey_map
    · exact .inl again
    · rw [cached again, generatedMulti_congr reads, getD_empty_eq_iff (generatedMulti_ne_empty P sk)] at key
      exact .inr key
  · intro meets
    by_cases again : Regenerates c.timeOptimization u.toGadget c.MKBTKey_map
    · exact ⟨P', params', by rw [fresh again, generatedMulti_congr reads]⟩
    · have found := (meets P u params present).resolve_left again
      exact ⟨P', params', by rw [cached again, found, Option.getD_some, generatedMulti_congr reads]⟩

/-- One operation keeps the law exactly when the context before it meets the condition. -/
theorem step_lawful_iff (wellFormed : c.WellFormed plat) {op : Op L M K} (returned : (step w plat c op).1 = .ok ()) :
    Lawful (step w plat c op).2 op ↔ Meets c op := by
  cases op with
  | btKeyGen sk mode => exact btKeyGen_lawful_iff wellFormed (commit_returned returned)
  | mkbtKeyGen sk mode => exact mkbtKeyGen_lawful_iff wellFormed mode (commit_returned returned)
  | clearBTKeys => exact ⟨fun law => ⟨law.2.2.2.2.1, law.2.2.2.2.2⟩, fun meets => ⟨rfl, rfl, rfl, rfl, meets.1, meets.2⟩⟩
  | generateNumbers | generatePrecision | generateParamSet | generateContextParams | btKeyLoad
  | btKeyMapLoadSingleElement | nbtKeyLoad | nbtKeyMapLoadSingleElement => exact Iff.rfl

end Law

theorem reached_concat (w : NativeSize) (plat : Platform) (done : List (Op L M K)) (op : Op L M K) :
    reached w plat (done ++ [op]) = (step w plat (reached w plat done) op).2 := by
  rw [reached, List.foldl_append]
  rfl

/-- Along every history, the law holds after each operation that returned exactly when each of them met its
condition. -/
theorem history_lawful_iff (w : NativeSize) (plat : Platform) (ops : List (Op L M K)) :
    (∀ done op, done ++ [op] <+: ops → (step w plat (reached w plat done) op).1 = .ok () →
      Lawful (reached w plat (done ++ [op])) op) ↔
    ∀ done op, done ++ [op] <+: ops → (step w plat (reached w plat done) op).1 = .ok () →
      Meets (reached w plat done) op := by
  constructor
  · intro lawful done op front returned
    have law := lawful done op front returned
    rw [reached_concat] at law
    exact (step_lawful_iff (reached_wellFormed done) returned).mp law
  · intro meets done op front returned
    rw [reached_concat]
    exact (step_lawful_iff (reached_wellFormed done) returned).mpr (meets done op front returned)

/-- The prime of 27 bits for the multi-key sets, its root of unity, and its digits to the bases `2^7` and `2^9`. -/
def mkntruPlatform : Platform where
  digitCount := fun _ base => if base = 2 ^ 9 then 3 else 4
  signDigits := fun _ _ => 4
  intermediatePrime := fun _ _ => .ok 134176769
  findRingDim := fun _ => .ok 2048
  ilNativeParams := fun order modulus => .ok ⟨order, modulus, 100530⟩

def twoSecrets : List (Op ℕ ℕ ℕ) :=
  [.generateParamSet ⟨134176769, List.replicate 2048 0⟩ .STD128_MKNTRU .MKNTRU,
    .mkbtKeyGen (.mntru 0) .SYM_ENCRYPT, .mkbtKeyGen (.mntru 1) .SYM_ENCRYPT, .clearBTKeys]

/-- The second key generation returns the key of the first secret, and it survives the clean up. -/
theorem twoSecrets_unlawful :
    (step .w64 mkntruPlatform (reached .w64 mkntruPlatform (twoSecrets.take 2)) (.mkbtKeyGen (.mntru 1) .SYM_ENCRYPT)).1 =
      .ok () ∧
    ¬ Lawful (reached .w64 mkntruPlatform (twoSecrets.take 3)) (.mkbtKeyGen (.mntru 1) .SYM_ENCRYPT) ∧
    ¬ Lawful (reached .w64 mkntruPlatform twoSecrets) .clearBTKeys := by
  refine ⟨rfl, ?_, ?_⟩
  · rintro ⟨P, -, key⟩
    cases congrArg (fun key => key.BSkey.map Origin.sk) key
  · rintro ⟨-, -, -, -, key, -⟩
    cases congrArg UniEncBTKey.BSkey key

end BinFHEContext
end MultiKeyFHE
