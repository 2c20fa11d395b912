import MultiKeyFHE.Context.Generate
import MultiKeyFHE.Library.Run

/-!
# Bootstrapping keys of a context

`BinFHEContext` with the operations that create, load and clear bootstrapping keys. The key maps act as a cache
whose entries are named by the gadget base alone. A key is represented by what it was generated from.
-/

namespace MultiKeyFHE

def BinFHECryptoParams.read (P : BinFHECryptoParams) : BinFHECryptoParams :=
  { P with
    RGSWParams := P.RGSWParams.map fun r => { r with toGadget := r.toGadget.read }
    UniEncParams := P.UniEncParams.map fun u => { u with toGadget := u.toGadget.read } }

/-- The call of a generator that an object comes from. -/
structure Origin (S : Type) where
  params : BinFHECryptoParams
  sk : S

structure RingGSWBTKey (L : Type) where
  BSkey : Option (Origin L) := none
  KSkey : Option (Origin L) := none
  Pkey : Option (Origin L) := none

abbrev VectorNTRUBTKey (L : Type) : Type := RingGSWBTKey L

inductive MultiSecret (M K : Type) where
  | mntru (sk : M)
  | mklwe (sk : K)

structure UniEncBTKey (M K : Type) where
  BSkey : Option (Origin (MultiSecret M K)) := none
  KSkey : Option (Origin (MultiSecret M K)) := none
  KSkey2 : Option (Origin (MultiSecret M K)) := none
  LKSkey : Option (Origin (MultiSecret M K)) := none
  Pkey : Option (Origin (MultiSecret M K)) := none
  f : Option (Origin (MultiSecret M K)) := none
  fvec : Option (Origin (MultiSecret M K)) := none
  F_col0 : Option (Origin (MultiSecret M K)) := none
  lwesk : Option (Origin (MultiSecret M K)) := none

structure BinFHEContext (L M K : Type) where
  params : Option BinFHECryptoParams := none
  binfhescheme : Option BinFHEScheme := none
  BTKey : RingGSWBTKey L := {}
  BTKey_map : KeyMap (RingGSWBTKey L) := []
  timeOptimization : Bool := false
  NBTKey : VectorNTRUBTKey L := {}
  NBTKey_map : KeyMap (VectorNTRUBTKey L) := []
  MKBTKey : UniEncBTKey M K := {}
  MKBTKey_map : KeyMap (UniEncBTKey M K) := []

namespace BinFHEContext
variable {L M K : Type}

/-! ### Key generation -/

def ofPointer {α : Type} : Option α → Except Fault α
  | some a => .ok a
  | none => .error .nullDereference

def generated (P : BinFHECryptoParams) (sk : L) (mode : KeygenMode) : RingGSWBTKey L :=
  let origin := some ⟨P.read, sk⟩
  { BSkey := origin, KSkey := origin, Pkey := if mode = .PUB_ENCRYPT then origin else none }

def generatedMulti (P : BinFHECryptoParams) (sk : MultiSecret M K) : UniEncBTKey M K :=
  let origin := some ⟨P.read, sk⟩
  match sk with
  | .mntru _ => { BSkey := origin, KSkey2 := origin, Pkey := origin, f := origin, fvec := origin, F_col0 := origin }
  | .mklwe _ => { BSkey := origin, LKSkey := origin, Pkey := origin, f := origin, fvec := origin, lwesk := origin }

def keyGen (scheme : BinFHEScheme) (P : BinFHECryptoParams) (sk : L) (mode : KeygenMode) :
    Except Fault (RingGSWBTKey L) := do
  let _ ← ofPointer P.LWEParams
  let _ ← ofPointer P.RGSWParams
  let _ ← ofPointer scheme.ACCscheme
  return generated P sk mode

def mkKeyGen (scheme : BinFHEScheme) (P : BinFHECryptoParams) (sk : MultiSecret M K) :
    Except Fault (UniEncBTKey M K) := do
  match sk with
  | .mntru _ => let _ ← ofPointer P.MNTRUParams
  | .mklwe _ => let _ ← ofPointer P.MKLWEParams
  let _ ← ofPointer P.UniEncParams
  let _ ← ofPointer scheme.UniEncACCscheme
  return generatedMulti P sk

variable (plat : Platform)

/-- The loop over the bases of the table: it changes the base and generates the key of each. -/
def renewAll {κ : Type} (gen : Gadget → Except Fault κ) (g : Gadget) (map : KeyMap κ) :
    Except Fault (Gadget × KeyMap κ) :=
  g.Gpower_map.keys.foldlM (fun s base => do
    let g := s.1.changeBaseG plat base
    let key ← gen g
    return (g, s.2.write key base)) (g, map)

def renewTable {κ : Type} (timeOptimization : Bool) (gen : Gadget → Except Fault κ) (g : Gadget) (map : KeyMap κ) :
    Except Fault (Gadget × KeyMap κ) :=
  if timeOptimization then do
    let s ← renewAll plat gen g map
    return (s.1.changeBaseG plat g.baseG, s.2)
  else .ok (g, map)

/-- The last branch. The subscript inserts an empty key where the map has none. -/
def selectKey {κ : Type} (gen : Gadget → Except Fault κ) (empty : κ) (temp : ℕ) (g : Gadget) (map : KeyMap κ) :
    Except Fault (Gadget × κ × KeyMap κ) :=
  if map ≠ [] then .ok (g, (map.get? temp).getD empty, map.touch empty temp)
  else do
    let key ← gen g
    return (g, key, map.write key temp)

def renewKeys {κ : Type} (timeOptimization : Bool) (gen : Gadget → Except Fault κ) (empty : κ) (g : Gadget)
    (map : KeyMap κ) : Except Fault (Gadget × κ × KeyMap κ) := do
  let s ← renewTable plat timeOptimization gen g map
  selectKey gen empty g.baseG s.1 s.2

def setRGSW (P : BinFHECryptoParams) (r : RingGSWCryptoParams) (g : Gadget) : BinFHECryptoParams :=
  { P with RGSWParams := some { r with toGadget := g } }

def setUniEnc (P : BinFHECryptoParams) (u : UniEncCryptoParams) (g : Gadget) : BinFHECryptoParams :=
  { P with UniEncParams := some { u with toGadget := g } }

def btKeyGen (c : BinFHEContext L M K) (sk : L) (mode : KeygenMode) : Except Fault (BinFHEContext L M K) := do
  let P ← ofPointer c.params
  let r ← ofPointer P.RGSWParams
  let gen := fun g => do keyGen (← ofPointer c.binfhescheme) (setRGSW P r g) sk mode
  let (g, key, map) ← renewKeys plat c.timeOptimization gen {} r.toGadget c.BTKey_map
  return { c with params := some (setRGSW P r g), BTKey := key, BTKey_map := map }

def mkbtKeyGen (c : BinFHEContext L M K) (sk : MultiSecret M K) : Except Fault (BinFHEContext L M K) := do
  let P ← ofPointer c.params
  let u ← ofPointer P.UniEncParams
  let gen := fun g => do mkKeyGen (← ofPointer c.binfhescheme) (setUniEnc P u g) sk
  let (g, key, map) ← renewKeys plat c.timeOptimization gen {} u.toGadget c.MKBTKey_map
  return { c with params := some (setUniEnc P u g), MKBTKey := key, MKBTKey_map := map }

def clearBTKeys (c : BinFHEContext L M K) : BinFHEContext L M K :=
  { c with BTKey := {}, BTKey_map := [], NBTKey := {}, NBTKey_map := [] }

/-! ### When a key is generated anew -/

/-- The key for the base in use is generated by this call. With a table to go through, that base must be in it;
otherwise the map must be empty. -/
def Regenerates {κ : Type} (timeOptimization : Bool) (g : Gadget) (map : KeyMap κ) : Prop :=
  if timeOptimization = true ∧ g.Gpower_map ≠ [] then g.baseG ∈ g.Gpower_map.keys else map = []

section Renew
variable {plat} {κ : Type} {gen : Gadget → Except Fault κ} {empty : κ} {g g' : Gadget} {map map' : KeyMap κ} {key : κ}

/-- What holds of the gadget and the map when the bases in `done` have had their turn. -/
structure Renewing (plat : Platform) (gen : Gadget → Except Fault κ) (g : Gadget) (map : KeyMap κ) (done : List ℕ)
    (s : Gadget × KeyMap κ) : Prop where
  Q : s.1.Q = g.Q
  table : s.1.Gpower_map = g.Gpower_map
  consistent : s.1.Consistent plat
  renewed : ∀ base ∈ done, ∃ at' key, at'.read = (g.changeBaseG plat base).read ∧ gen at' = .ok key ∧
    s.2.get? base = some key
  kept : ∀ base, base ∉ done → s.2.get? base = map.get? base
  filled : done ≠ [] → s.2 ≠ []

theorem renewAll_spec (consistent : g.Consistent plat) {s : Gadget × KeyMap κ} (h : renewAll plat gen g map = .ok s) :
    Renewing plat gen g map g.Gpower_map.keys s := by
  unfold renewAll at h
  refine Run.foldlM_inv (Renewing plat gen g map) h
    ⟨rfl, rfl, consistent, fun _ none => absurd none List.not_mem_nil, fun _ _ => rfl, fun none => absurd rfl none⟩ ?_
  intro done base s s' tabulated before once
  obtain ⟨key, made, once⟩ := Run.bind_ok once
  cases once
  have filled : s.1.Gpower_map ≠ [] := by
    rw [before.table]
    rintro nil
    rw [nil] at tabulated
    cases tabulated
  have sameRead : (s.1.changeBaseG plat base).read = (g.changeBaseG plat base).read := by
    rw [before.consistent.read_changeBaseG filled, consistent.read_changeBaseG (before.table ▸ filled), before.Q,
      before.table]
  have table : (s.1.changeBaseG plat base).Gpower_map = s.1.Gpower_map :=
    Gadget.changeBaseG_map (before.table ▸ tabulated)
  refine ⟨(Gadget.changeBaseG_Q base).trans before.Q, table.trans before.table, before.consistent.changeBaseG base,
    ?_, ?_, fun _ => KeyMap.write_ne_nil⟩
  · intro other member
    by_cases same : other = base
    · subst same
      exact ⟨_, key, sameRead, made, KeyMap.get?_write_self⟩
    · have earlier : other ∈ done := by simpa [same] using member
      obtain ⟨at', old, reads, was, stored⟩ := before.renewed other earlier
      exact ⟨at', old, reads, was, (KeyMap.get?_write_other same).trans stored⟩
  · intro other outside
    have : other ∉ done ∧ other ≠ base := by simpa using outside
    exact (KeyMap.get?_write_other this.2).trans (before.kept other this.1)

theorem selectKey_spec {temp : ℕ} (h : selectKey gen empty temp g map = .ok (g', key, map')) :
    g' = g ∧ (map ≠ [] → key = (map.get? temp).getD empty) ∧ (map = [] → gen g = .ok key) := by
  unfold selectKey at h
  split at h
  · rename_i filled
    cases h
    exact ⟨rfl, fun _ => rfl, fun none => absurd none filled⟩
  · rename_i none
    obtain ⟨made, call, h⟩ := Run.bind_ok h
    cases h
    exact ⟨rfl, fun filled => absurd filled none, fun _ => call⟩

/-- Going through the table ends at the base it started from, with the key of that base renewed if it is listed. -/
theorem renewTable_walks (consistent : g.Consistent plat) (table : g.Gpower_map ≠ [])
    (h : renewTable plat true gen g map = .ok (g', map')) :
    g'.read = g.read ∧ g'.Consistent plat ∧ map' ≠ [] ∧
      (g.baseG ∈ g.Gpower_map.keys → ∃ at' key, at'.read = g.read ∧ gen at' = .ok key ∧ map'.get? g.baseG = some key) ∧
      (g.baseG ∉ g.Gpower_map.keys → map'.get? g.baseG = map.get? g.baseG) := by
  unfold renewTable at h
  obtain ⟨⟨g₁, map₁⟩, loop, h⟩ := Run.bind_ok h
  cases h
  have done := renewAll_spec consistent loop
  refine ⟨?_, done.consistent.changeBaseG _, ?_, ?_, done.kept _⟩
  · rw [done.consistent.read_changeBaseG (done.table ▸ table), done.Q, done.table,
      ← consistent.read_changeBaseG table, Gadget.changeBaseG_self]
  · exact done.filled fun none => table (List.map_eq_nil_iff.mp none)
  · intro listed
    obtain ⟨at', key, reads, made, stored⟩ := done.renewed _ listed
    rw [Gadget.changeBaseG_self] at reads
    exact ⟨at', key, reads, made, stored⟩

theorem renewTable_stays {timeOptimization : Bool} (stays : ¬ (timeOptimization = true ∧ g.Gpower_map ≠ []))
    (h : renewTable plat timeOptimization gen g map = .ok (g', map')) : g' = g ∧ map' = map := by
  unfold renewTable at h
  by_cases on : timeOptimization = true
  · have nil : g.Gpower_map = [] := by
      by_contra table
      exact stays ⟨on, table⟩
    rw [if_pos on, renewAll, nil] at h
    cases h
    exact ⟨Gadget.changeBaseG_self, rfl⟩
  · rw [if_neg on] at h
    cases h
    exact ⟨rfl, rfl⟩

theorem renewKeys_spec (consistent : g.Consistent plat) (stable : ∀ a b : Gadget, a.read = b.read → gen a = gen b)
    {timeOptimization : Bool} (h : renewKeys plat timeOptimization gen empty g map = .ok (g', key, map')) :
    g'.read = g.read ∧ g'.Consistent plat ∧
      (Regenerates timeOptimization g map → gen g = .ok key) ∧
      (¬ Regenerates timeOptimization g map → key = (map.get? g.baseG).getD empty) := by
  unfold renewKeys at h
  obtain ⟨⟨g₁, map₁⟩, front, h⟩ := Run.bind_ok h
  obtain ⟨rfl, fromMap, fresh⟩ := selectKey_spec h
  unfold Regenerates
  by_cases walks : timeOptimization = true ∧ g.Gpower_map ≠ []
  · obtain ⟨rfl, table⟩ := walks
    obtain ⟨reads, consistent', filled, renewed, kept⟩ := renewTable_walks consistent table front
    rw [if_pos ⟨rfl, table⟩]
    refine ⟨reads, consistent', ?_, ?_⟩
    · intro listed
      obtain ⟨at', made, reads, call, stored⟩ := renewed listed
      rw [← stable _ _ reads, call, fromMap filled, stored, Option.getD_some]
    · intro missing
      rw [fromMap filled, kept missing]
  · obtain ⟨rfl, rfl⟩ := renewTable_stays walks front
    rw [if_neg walks]
    exact ⟨rfl, consistent, fresh, fromMap⟩

end Renew
end BinFHEContext
end MultiKeyFHE
