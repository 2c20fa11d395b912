import MultiKeyFHE.Context.KeyLifecycle

/-!
# Restoring a context

`BinFHECryptoParams` and `BinFHEContext` through `save` and `load`. The parameters write five of their six
pointers, and the context reads the method through two of them whatever it was created for.
-/

namespace MultiKeyFHE

/-- A saved shared pointer: a null pointer stays null, an object is loaded into a new one. -/
def loadPointer {α β : Type} (load : α → β → Except Fault α) (new : α) : Option β → Except Fault (Option α)
  | none => .ok none
  | some ar => do return some (← load new ar)

namespace BinFHECryptoParams
variable (w : NativeSize) (plat : Platform)

structure Archive where
  lweparams : Option (ℕ × LWECryptoParams.Archive)
  rgswparams : Option (ℕ × RingGSWCryptoParams.Archive)
  vntruparams : Option (ℕ × RingGSWCryptoParams.Archive)
  mntruparams : Option (ℕ × ℕ × LWECryptoParams.Archive)
  uniencparams : Option (ℕ × UniEncCryptoParams.Archive)

def save (P : BinFHECryptoParams) : ℕ × Archive :=
  (serializedVersion,
    { lweparams := P.LWEParams.map LWECryptoParams.save
      rgswparams := P.RGSWParams.map RingGSWCryptoParams.save
      vntruparams := P.VNTRUParams.map RingGSWCryptoParams.save
      mntruparams := P.MNTRUParams.map MultiUserParams.save
      uniencparams := P.UniEncParams.map UniEncCryptoParams.save })

def load (t : BinFHECryptoParams) : ℕ × Archive → Except Fault BinFHECryptoParams
  | (version, ar) => do
    checkVersion version
    let LWEParams ← loadPointer LWECryptoParams.load .default ar.lweparams
    let RGSWParams ← loadPointer (RingGSWCryptoParams.load plat) .default ar.rgswparams
    let VNTRUParams ← loadPointer (RingGSWCryptoParams.load plat) .default ar.vntruparams
    let MNTRUParams ← loadPointer MultiUserParams.load .default ar.mntruparams
    let UniEncParams ← loadPointer (UniEncCryptoParams.load w plat) .default ar.uniencparams
    return { t with LWEParams, RGSWParams, VNTRUParams, MNTRUParams, UniEncParams }

def present (P : BinFHECryptoParams) : List Bool :=
  [P.LWEParams.isSome, P.RGSWParams.isSome, P.VNTRUParams.isSome, P.MNTRUParams.isSome, P.MKLWEParams.isSome,
    P.UniEncParams.isSome]

end BinFHECryptoParams

theorem loadPointer_save {α β : Type} (load : α → β → Except Fault α) (save : α → β) (new : α)
    (loads : ∀ a, ∃ b, load new (save a) = .ok b) (p : Option α) :
    ∃ p', loadPointer load new (p.map save) = .ok p' ∧ p'.isSome = p.isSome := by
  cases p with
  | none => exact ⟨none, rfl, rfl⟩
  | some a =>
    obtain ⟨b, loaded⟩ := loads a
    refine ⟨some b, ?_, rfl⟩
    rw [Option.map_some, loadPointer, loaded]
    rfl

namespace BinFHECryptoParams
variable {w : NativeSize} {plat : Platform}

/-- The parameters alone come back, but for the MKLWE object: it is the target's. -/
theorem load_save_present (t P : BinFHECryptoParams) :
    ∃ P', load w plat t (save P) = .ok P' ∧ P'.MKLWEParams = t.MKLWEParams ∧
      P'.present = { P with MKLWEParams := t.MKLWEParams }.present := by
  obtain ⟨l, lwe, sameLWE⟩ := loadPointer_save LWECryptoParams.load LWECryptoParams.save .default
    (fun a => ⟨_, rfl⟩) P.LWEParams
  obtain ⟨r, rgsw, sameRGSW⟩ := loadPointer_save (RingGSWCryptoParams.load plat) RingGSWCryptoParams.save .default
    (fun a => ⟨_, rfl⟩) P.RGSWParams
  obtain ⟨v, vntru, sameVNTRU⟩ := loadPointer_save (RingGSWCryptoParams.load plat) RingGSWCryptoParams.save .default
    (fun a => ⟨_, rfl⟩) P.VNTRUParams
  obtain ⟨m, mntru, sameMNTRU⟩ := loadPointer_save MultiUserParams.load MultiUserParams.save .default
    (fun a => ⟨_, rfl⟩) P.MNTRUParams
  obtain ⟨u, unienc, sameUniEnc⟩ := loadPointer_save (UniEncCryptoParams.load w plat) UniEncCryptoParams.save .default
    (fun a => ⟨_, rfl⟩) P.UniEncParams
  refine ⟨⟨l, r, v, m, t.MKLWEParams, u⟩, ?_, rfl, ?_⟩
  · simp only [save, load, lwe, rgsw, vntru, mntru, unienc]
    rfl
  · simp only [present, sameLWE, sameRGSW, sameVNTRU, sameMNTRU, sameUniEnc]

end BinFHECryptoParams

namespace BinFHEContext
open BinFHECryptoParams
variable {L M K : Type}

def save (c : BinFHEContext L M K) : ℕ × Option (ℕ × BinFHECryptoParams.Archive) :=
  (serializedVersion, c.params.map BinFHECryptoParams.save)

/-- `load`. The last statement reads a method and drops it. -/
def load (w : NativeSize) (plat : Platform) (t : BinFHEContext L M K) :
    ℕ × Option (ℕ × BinFHECryptoParams.Archive) → Except Fault (BinFHEContext L M K)
  | (version, ar) => do
    checkVersion version
    let params ← loadPointer (BinFHECryptoParams.load w plat) {} ar
    let P ← ofPointer params
    let RGSWParams ← ofPointer P.RGSWParams
    let scheme ← BinFHEScheme.construct RGSWParams.method
    let VNTRUParams ← ofPointer P.VNTRUParams
    let _ := VNTRUParams.method
    return { t with params, binfhescheme := some scheme }

/-- The same parameter objects are there, and the scheme is the one for the same method. -/
structure Restored (c t' : BinFHEContext L M K) : Prop where
  params : t'.params.map present = c.params.map present
  scheme : t'.binfhescheme = c.binfhescheme

variable {w : NativeSize} {plat : Platform} {c t t' : BinFHEContext L M K}

theorem load_save_vntru (h : load w plat t (save c) = .ok t') :
    ∃ P, c.params = some P ∧ P.VNTRUParams.isSome = true := by
  unfold load save at h
  obtain ⟨-, -, h⟩ := Run.bind_ok h
  obtain ⟨params, loaded, h⟩ := Run.bind_ok h
  obtain ⟨P', pointer, h⟩ := Run.bind_ok h
  obtain ⟨r, -, h⟩ := Run.bind_ok h
  obtain ⟨scheme, -, h⟩ := Run.bind_ok h
  obtain ⟨v, vntru, -⟩ := Run.bind_ok h
  cases saved : c.params with
  | none =>
    rw [saved] at loaded
    cases loaded
    cases pointer
  | some P =>
    refine ⟨P, rfl, ?_⟩
    obtain ⟨Q, same, -, present⟩ := @load_save_present w plat {} P
    rw [saved, Option.map_some, loadPointer, same] at loaded
    cases loaded
    cases pointer
    have := ofPointer_ok vntru
    simp only [BinFHECryptoParams.present, List.cons.injEq] at present
    rw [← present.2.2.1, this]
    rfl

/-- No context that was ever created comes back. -/
theorem context_never_restored (ops : List (Op L M K)) (t : BinFHEContext L M K) :
    ¬ ∃ t', load w plat t (save (reached w plat ops)) = .ok t' ∧ Restored (reached w plat ops) t' := by
  rintro ⟨t', loaded, -⟩
  obtain ⟨P, params, vntru⟩ := load_save_vntru loaded
  rw [(reached_wellFormed ops P params).vntru] at vntru
  cases vntru

/-- The parameters for `MKNTRU_LWE` have no RingGSW object, through which the method is read. -/
theorem mkntru_lwe_not_restored :
    let generate : Op ℕ ℕ ℕ :=
      .generateParamSet ⟨134176769, List.replicate 2048 0⟩ .STD128_MKNTRU_LWE .MKNTRU_LWE
    let c := reached .w64 mkntruPlatform [generate]
    (step .w64 mkntruPlatform {} generate).1 = .ok () ∧
    load .w64 mkntruPlatform ({} : BinFHEContext ℕ ℕ ℕ) (save c) = .error .nullDereference ∧
    ¬ ∃ t', load .w64 mkntruPlatform {} (save c) = .ok t' ∧ Restored c t' := by
  refine ⟨rfl, rfl, ?_⟩
  rintro ⟨t', loaded, -⟩
  cases loaded

end BinFHEContext
end MultiKeyFHE
