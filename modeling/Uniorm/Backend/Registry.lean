import Mathlib.Data.List.AList
import Mathlib.Data.Char
import Mathlib.Data.List.Lex
import Mathlib.Data.List.Sort
import Uniorm.Connection.Target
import Uniorm.Foundation.Transition

/-! # The registry of backends and its plugins

Factories are registered under schemes, by the program or by a library that is loaded when a scheme
is missed. Every function of the registry runs under its mutex for as long as it looks at the map.
The loader runs between two such sections, so two threads can load one library for one scheme, and
the register function of a library calls back into the registry. A library stays loaded while its
handles are not closed; a factory runs code of the library it comes from.
-/
namespace Uniorm.Backend
open Foundation Connection

/-- What `dlsym` finds in a library: what its abi function returns, and the calls of
`register_backend` that its register function makes. -/
structure Library (F : Type*) where
  abiVersion : Option ℕ
  register : Option (List (Text × F))

/-- What the loader reads of its surroundings. -/
structure Site (F : Type*) where
  /-- `UNIORM_PLUGIN_PATH` in the environment -/
  pluginPath : Option Text
  /-- `UNIORM_PLUGIN_DIR` of the build -/
  builtDir : Option Text
  /-- `UNIORM_ABI_VERSION` of the core -/
  abiVersion : ℕ
  library : Text → Library F
  /-- Whether a factory is not an empty function. -/
  callable : F → Bool

/-- A registered factory, with the file of the library whose code it runs if that is a plugin. -/
structure Factory (F : Type*) where
  make : F
  code : Option Text
  deriving DecidableEq

/-- `backends_` -/
abbrev Backends (F : Type*) := AList fun _ : Text => Factory F

def abiSymbol : Text := "uniorm_plugin_abi_version".toList

def registerSymbol : Text := "uniorm_plugin_register".toList

def noDirectoryNote : Text :=
  "no plugin directory configured (set UNIORM_PLUGIN_PATH or build with UNIORM_PLUGIN_DIR)".toList

/-- What `dlerror` says, if it says anything. -/
def said (error : Option Text) : Text := error.getD "(no message)".toList

def openNote (path : Text) (error : Option Text) : Text :=
  "dlopen(".toList ++ path ++ ") failed: ".toList ++ said error

def symbolNote (path symbol : Text) (error : Option Text) : Text :=
  "dlsym(".toList ++ path ++ ", ".toList ++ symbol ++ ") failed: ".toList ++ said error

def abiNote (path : Text) (pluginAbi coreAbi : ℕ) : Text :=
  "plugin ABI ".toList ++ Nat.toDigits 10 pluginAbi ++ " incompatible with core ABI ".toList ++
    Nat.toDigits 10 coreAbi ++ " (".toList ++ path ++ ")".toList

namespace Site
variable {F : Type*} (site : Site F)

def pluginDir : Text :=
  match site.pluginPath with
  | some (c :: cs) => c :: cs
  | _ => site.builtDir.getD []

def path (scheme : Text) : Text :=
  let dir := site.pluginDir
  (if dir.getLast? = some '/' ∨ dir.getLast? = some '\\' then dir else dir ++ ['/']) ++
    "libuniorm_".toList ++ scheme ++ ".so".toList

/-- The file that `dlopen` is asked for. -/
def file (scheme : Text) : Text := (site.path scheme).takeWhile (· ≠ '\x00')

/-- What comes of a handle: the calls that the register function makes, or the note that the handle
is closed with. -/
def inspect (scheme : Text) (error : Option Text) : Except Text (List (Text × F)) :=
  let library := site.library (site.file scheme)
  match library.abiVersion with
  | none => .error (symbolNote (site.path scheme) abiSymbol error)
  | some pluginAbi =>
    if pluginAbi ≠ site.abiVersion then
      .error (abiNote (site.path scheme) pluginAbi site.abiVersion)
    else match library.register with
      | none => .error (symbolNote (site.path scheme) registerSymbol error)
      | some calls => .ok calls

end Site

/-- `register_backend`; `none` stands for its exception. -/
def registerBackend {F : Type*} (backends : Backends F) (scheme : Text) (f : Factory F) :
    Option (Backends F) :=
  if (backends.lookup scheme).isSome then none else some (backends.insert scheme f)

def schemes {F : Type*} (backends : Backends F) : List Text :=
  backends.keys.insertionSort (· ≤ ·)

/-- The text of `unknown_scheme`. -/
def unknownMessage (scheme : Text) (names : List Text) (loadNote : Text) : Text :=
  "no backend registered for scheme '".toList ++ scheme ++ "' (registered:".toList ++
    names.flatMap (' ' :: ·) ++ [')'] ++ if loadNote = [] then [] else "; ".toList ++ loadNote

/-- Where a thread is in the registry, and what its last call came to. -/
inductive PC (F : Type*) where
  | idle
  | adding (scheme : Text) (f : F)
  | added (scheme : Text) (done : Bool)
  | asking (scheme : Text)
  | answered (scheme : Text) (known : Bool)
  | listing
  | listed (names : List Text)
  | unnamed
  | finding (scheme : Text)
  | loading (scheme : Text)
  | opened (scheme : Text)
  | registering (scheme : Text) (calls : List (Text × F))
  | rechecking (scheme : Text)
  | reporting (scheme : Text) (loadNote : Text)
  | returned (scheme : Text) (f : Factory F)
  | unknown (scheme : Text) (message : Text)

/-- The calls a program makes. -/
inductive Call (F : Type*) where
  | registerBackend (scheme : Text) (f : F)
  | contains (scheme : Text)
  | schemes
  | create (connectionString : Text)
  | createForScheme (scheme : Text)

variable {T F : Type*}

/-- `create` and `create_for_scheme` end at one lookup. -/
def Call.start : Call F → PC F
  | .registerBackend scheme f => .adding scheme f
  | .contains scheme => .asking scheme
  | .schemes => .listing
  | .create connectionString => .finding (parseScheme connectionString).scheme
  | .createForScheme scheme => if scheme = [] then .unnamed else .finding (toLower scheme)

namespace PC

/-- Not in a call. -/
def atRest : PC F → Bool
  | idle | added _ _ | answered _ _ | listed _ | unnamed | returned _ _ | unknown _ _ => true
  | _ => false

/-- At a section under the mutex. -/
def locks : PC F → Bool
  | adding _ _ | asking _ | listing | finding _ | registering _ (_ :: _) | rechecking _
  | reporting _ _ => true
  | _ => false

def inside (site : Site F) (backends : Backends F) : PC F → Backends F × PC F
  | adding scheme f =>
    match registerBackend backends scheme ⟨f, none⟩ with
    | some backends' => (backends', added scheme true)
    | none => (backends, added scheme false)
  | asking scheme => (backends, answered scheme (backends.lookup scheme).isSome)
  | listing => (backends, listed (schemes backends))
  | finding scheme =>
    match backends.lookup scheme with
    | some f => (backends, if site.callable f.make then returned scheme f else loading scheme)
    | none => (backends, loading scheme)
  | registering scheme ((name, f) :: calls) =>
    match registerBackend backends name ⟨f, some (site.file scheme)⟩ with
    | some backends' => (backends', registering scheme calls)
    -- the exception leaves the register function and is caught: the map has the entry either way
    | none => (backends, rechecking scheme)
  | rechecking scheme =>
    match backends.lookup scheme with
    | some f => (backends, returned scheme f)
    | none => (backends, reporting scheme [])
  | reporting scheme loadNote =>
    (backends, unknown scheme (unknownMessage scheme (schemes backends) loadNote))
  | pc => (backends, pc)

end PC

/-- The registry and the threads that use it. -/
structure Registry (T F : Type*) where
  /-- The thread that holds `mu_`. -/
  holder : Option T
  backends : Backends F
  /-- How often a library was opened and not closed. -/
  handles : Text → ℕ
  /-- How many of these handles are kept for good. -/
  kept : Text → ℕ
  pc : T → PC F

/-- The steps of the threads. -/
inductive RegistryEvent (T F : Type*) where
  | call (t : T) (c : Call F)
  | enter (t : T)
  | leave (t : T)
  | dlopen (t : T)
  | dlsym (t : T)
  | finish (t : T)

namespace Registry

def start : Registry T F := ⟨none, ∅, fun _ => 0, fun _ => 0, fun _ => .idle⟩

variable [DecidableEq T]

def setPC (s : Registry T F) (t : T) (pc : PC F) : Registry T F :=
  { s with pc := Function.update s.pc t pc }

@[simp] theorem setPC_pc (s : Registry T F) (t : T) (pc : PC F) :
    (s.setPC t pc).pc = Function.update s.pc t pc := rfl

end Registry

open Registry in
inductive RegistryStep [DecidableEq T] (site : Site F) :
    Registry T F → RegistryEvent T F → Registry T F → Prop where
  | call (s : Registry T F) (t : T) (c : Call F) (hpc : (s.pc t).atRest = true) :
      RegistryStep site s (.call t c) (s.setPC t c.start)
  | enter (s : Registry T F) (t : T) (hpc : (s.pc t).locks = true) (hfree : s.holder = none) :
      RegistryStep site s (.enter t) { s with holder := some t }
  | leave (s : Registry T F) (t : T) (hholds : s.holder = some t) :
      RegistryStep site s (.leave t)
        { s.setPC t ((s.pc t).inside site s.backends).2 with
          holder := none, backends := ((s.pc t).inside site s.backends).1 }
  | noDirectory (s : Registry T F) (t : T) (scheme : Text) (hpc : s.pc t = .loading scheme)
      (hdir : site.pluginDir = []) :
      RegistryStep site s (.dlopen t) (s.setPC t (.reporting scheme noDirectoryNote))
  | notOpened (s : Registry T F) (t : T) (scheme : Text) (error : Option Text)
      (hpc : s.pc t = .loading scheme) (hdir : site.pluginDir ≠ []) :
      RegistryStep site s (.dlopen t)
        (s.setPC t (.reporting scheme (openNote (site.path scheme) error)))
  | opened (s : Registry T F) (t : T) (scheme : Text) (hpc : s.pc t = .loading scheme)
      (hdir : site.pluginDir ≠ []) :
      RegistryStep site s (.dlopen t)
        { s.setPC t (.opened scheme) with
          handles := Function.update s.handles (site.file scheme)
            (s.handles (site.file scheme) + 1) }
  /-- The handle is closed. -/
  | refused (s : Registry T F) (t : T) (scheme : Text) (error : Option Text) (note : Text)
      (hpc : s.pc t = .opened scheme) (hnote : site.inspect scheme error = .error note) :
      RegistryStep site s (.dlsym t)
        { s.setPC t (.reporting scheme note) with
          handles := Function.update s.handles (site.file scheme)
            (s.handles (site.file scheme) - 1) }
  | accepted (s : Registry T F) (t : T) (scheme : Text) (error : Option Text)
      (calls : List (Text × F)) (hpc : s.pc t = .opened scheme)
      (hcalls : site.inspect scheme error = .ok calls) :
      RegistryStep site s (.dlsym t)
        { s.setPC t (.registering scheme calls) with
          kept := Function.update s.kept (site.file scheme) (s.kept (site.file scheme) + 1) }
  /-- The register function returns. -/
  | finish (s : Registry T F) (t : T) (scheme : Text) (hpc : s.pc t = .registering scheme []) :
      RegistryStep site s (.finish t) (s.setPC t (.rechecking scheme))

def registering (T : Type*) {F : Type*} [DecidableEq T] (site : Site F) :
    System (Registry T F) (RegistryEvent T F) where
  init s := s = Registry.start
  step := RegistryStep site

namespace Site
variable (site : Site F)

def Registers (scheme : Text) (calls : List (Text × F)) : Prop :=
  ∃ error, site.inspect scheme error = .ok calls

/-- The library for a scheme registers it, and nothing in front of it. -/
def Serves (scheme : Text) : Prop :=
  site.pluginDir ≠ [] ∧ ∃ f calls, site.Registers scheme ((scheme, f) :: calls)

/-- Why a scheme is missing, in the words of the loader. -/
inductive Explains (scheme : Text) : Text → Prop where
  | noDirectory (h : site.pluginDir = []) : Explains scheme noDirectoryNote
  | notOpened (error : Option Text) : Explains scheme (openNote (site.path scheme) error)
  | refused {error : Option Text} {note : Text} (h : site.inspect scheme error = .error note) :
    Explains scheme note
  | elsewhere {calls : List (Text × F)} (h : site.Registers scheme calls)
    (hfirst : ∀ f, calls.head? ≠ some (scheme, f)) : Explains scheme []

variable {site} {scheme : Text}

theorem Registers.inspect_eq {calls : List (Text × F)} (h : site.Registers scheme calls)
    (error : Option Text) : site.inspect scheme error = .ok calls := by
  obtain ⟨error', h⟩ := h
  simp only [inspect] at h ⊢
  split at h
  · cases h
  · split at h
    · cases h
    · split at h
      · cases h
      · simp_all

theorem Registers.unique {calls calls' : List (Text × F)} (h : site.Registers scheme calls)
    (h' : site.Registers scheme calls') : calls = calls' := by
  obtain ⟨error, h'⟩ := h'
  exact Except.ok.inj ((h.inspect_eq error).symm.trans h')

/-- A good plugin is only missed when it cannot be opened. -/
theorem Explains.of_serves {note : Text} (h : site.Explains scheme note)
    (hserves : site.Serves scheme) : ∃ error, note = openNote (site.path scheme) error := by
  obtain ⟨hdir, f, calls, hcalls⟩ := hserves
  cases h with
  | noDirectory hnone => exact absurd hnone hdir
  | notOpened error => exact ⟨error, rfl⟩
  | refused hnote =>
    rw [hcalls.inspect_eq] at hnote
    cases hnote
  | elsewhere hother hfirst =>
    obtain rfl := hcalls.unique hother
    exact absurd rfl (hfirst f)

end Site

/-- Every entry stays, with its factory. -/
def Grows (backends backends' : Backends F) : Prop :=
  ∀ scheme f, backends.lookup scheme = some f → backends'.lookup scheme = some f

theorem Grows.refl (backends : Backends F) : Grows backends backends := fun _ _ h => h

theorem Grows.isSome {backends backends' : Backends F} (h : Grows backends backends')
    {scheme : Text} (hsome : (backends.lookup scheme).isSome = true) :
    (backends'.lookup scheme).isSome = true := by
  obtain ⟨f, hf⟩ := Option.isSome_iff_exists.mp hsome
  rw [h scheme f hf]
  rfl

theorem registerBackend_eq_some {backends backends' : Backends F} {scheme : Text} {f : Factory F}
    (h : registerBackend backends scheme f = some backends') :
    backends.lookup scheme = none ∧ backends' = backends.insert scheme f := by
  rw [registerBackend] at h
  split at h
  · cases h
  · next hnone => exact ⟨by simpa using hnone, (Option.some.inj h).symm⟩

theorem registerBackend_eq_none {backends : Backends F} {scheme : Text} {f : Factory F}
    (h : registerBackend backends scheme f = none) : (backends.lookup scheme).isSome = true := by
  rw [registerBackend] at h
  split at h
  · assumption
  · cases h

theorem grows_insert {backends : Backends F} {scheme : Text} (h : backends.lookup scheme = none)
    (f : Factory F) : Grows backends (backends.insert scheme f) := by
  intro name g hg
  have hne : name ≠ scheme := by
    rintro rfl
    rw [h] at hg
    cases hg
  rw [AList.lookup_insert_ne hne]
  exact hg

theorem mem_schemes {backends : Backends F} {scheme : Text} :
    scheme ∈ schemes backends ↔ (backends.lookup scheme).isSome = true := by
  rw [schemes, List.mem_insertionSort, AList.lookup_isSome]
  rfl

theorem pairwise_schemes (backends : Backends F) : (schemes backends).Pairwise (· < ·) := by
  have hsorted : (schemes backends).Pairwise (· ≤ ·) := List.pairwise_insertionSort _ _
  have hnodup : (schemes backends).Nodup :=
    (List.perm_insertionSort _ _).nodup_iff.mpr backends.keys_nodup
  exact hsorted.imp₂ (fun _ _ hle hne => lt_of_le_of_ne hle hne) hnodup

namespace PC

/-- The handle a thread holds and may close. -/
def holds (site : Site F) (file : Text) : PC F → ℕ
  | opened scheme => if site.file scheme = file then 1 else 0
  | _ => 0

/-- What is known of the map at a place. -/
def Stands (site : Site F) (backends : Backends F) (kept : Text → ℕ) : PC F → Prop
  | registering scheme calls => 0 < kept (site.file scheme) ∧ ∃ made,
    site.Registers scheme (made ++ calls) ∧ ∀ c ∈ made, (backends.lookup c.1).isSome = true
  | rechecking scheme => ∃ calls, site.Registers scheme calls ∧
    ∀ c, calls.head? = some c → (backends.lookup c.1).isSome = true
  | reporting scheme loadNote => site.Explains scheme loadNote
  | returned scheme f => backends.lookup scheme = some f
  | unknown scheme message => ∃ names loadNote, message = unknownMessage scheme names loadNote ∧
    names.Pairwise (· < ·) ∧ site.Explains scheme loadNote
  | _ => True

variable {site : Site F} {backends backends' : Backends F} {kept kept' : Text → ℕ} {pc : PC F}

theorem Stands.mono (h : pc.Stands site backends kept) (hgrows : Grows backends backends')
    (hkept : ∀ file, kept file ≤ kept' file) : pc.Stands site backends' kept' := by
  cases pc with
  | registering scheme calls =>
    obtain ⟨hpos, made, hcalls, hmade⟩ := h
    exact ⟨hpos.trans_le (hkept _), made, hcalls, fun c hc => hgrows.isSome (hmade c hc)⟩
  | rechecking scheme =>
    obtain ⟨calls, hcalls, hfirst⟩ := h
    exact ⟨calls, hcalls, fun c hc => hgrows.isSome (hfirst c hc)⟩
  | returned scheme f => exact hgrows scheme f h
  | _ => exact h

/-- One call of the register function is over, whether it was an exception or not. -/
theorem Stands.rechecking_of_called {scheme name : Text} {f : F} {calls : List (Text × F)}
    (h : (registering scheme ((name, f) :: calls)).Stands site backends kept)
    (hsome : (backends.lookup name).isSome = true) :
    (rechecking scheme).Stands site backends kept := by
  obtain ⟨-, made, hcalls, hmade⟩ := h
  refine ⟨_, hcalls, fun c hc => ?_⟩
  cases made with
  | nil =>
    obtain rfl := Option.some.inj hc
    exact hsome
  | cons m made =>
    obtain rfl := Option.some.inj hc
    exact hmade m List.mem_cons_self

/-- What one section does: entries stay, a new one runs code of a library that is kept, and the
thread stands behind it. -/
theorem Stands.inside (h : pc.Stands site backends kept) :
    Grows backends (pc.inside site backends).1 ∧
    (∀ scheme f file, (pc.inside site backends).1.lookup scheme = some f → f.code = some file →
      backends.lookup scheme = some f ∨ 0 < kept file) ∧
    (pc.inside site backends).2.Stands site (pc.inside site backends).1 kept := by
  have hstays : ∀ pc' : PC F, pc.inside site backends = (backends, pc') →
      pc'.Stands site backends kept → Grows backends (pc.inside site backends).1 ∧
      (∀ scheme f file, (pc.inside site backends).1.lookup scheme = some f → f.code = some file →
        backends.lookup scheme = some f ∨ 0 < kept file) ∧
      (pc.inside site backends).2.Stands site (pc.inside site backends).1 kept := by
    intro pc' hpc hstands
    rw [hpc]
    exact ⟨.refl _, fun _ _ _ hf _ => .inl hf, hstands⟩
  cases pc with
  | adding scheme f =>
    cases hadd : registerBackend backends scheme ⟨f, none⟩ with
    | none => exact hstays (added scheme false) (by rw [PC.inside, hadd]) trivial
    | some backends' =>
      obtain ⟨hnone, rfl⟩ := registerBackend_eq_some hadd
      rw [PC.inside, hadd]
      refine ⟨grows_insert hnone _, fun name g file hg hfile => ?_, trivial⟩
      by_cases hname : name = scheme
      · subst hname
        obtain rfl := Option.some.inj ((AList.lookup_insert _).symm.trans hg)
        cases hfile
      · rw [AList.lookup_insert_ne hname] at hg
        exact .inl hg
  | finding scheme =>
    cases hfind : backends.lookup scheme with
    | none => exact hstays (loading scheme) (by rw [PC.inside, hfind]) trivial
    | some f =>
      refine hstays (if site.callable f.make then returned scheme f else loading scheme)
        (by rw [PC.inside, hfind]) ?_
      split
      · exact hfind
      · trivial
  | registering scheme calls =>
    cases calls with
    | nil => exact hstays (registering scheme []) rfl h
    | cons c calls =>
      obtain ⟨name, f⟩ := c
      cases hadd : registerBackend backends name ⟨f, some (site.file scheme)⟩ with
      | none =>
        exact hstays (rechecking scheme) (by rw [PC.inside, hadd])
          (h.rechecking_of_called (registerBackend_eq_none hadd))
      | some backends' =>
        obtain ⟨hnone, rfl⟩ := registerBackend_eq_some hadd
        obtain ⟨hpos, made, hcalls, hmade⟩ := h
        have hgrows := grows_insert hnone ⟨f, some (site.file scheme)⟩
        rw [PC.inside, hadd]
        refine ⟨hgrows, fun other g file hg hfile => ?_, hpos, made ++ [(name, f)], ?_, ?_⟩
        · by_cases hname : other = name
          · subst hname
            obtain rfl := Option.some.inj ((AList.lookup_insert _).symm.trans hg)
            obtain rfl := Option.some.inj hfile
            exact .inr hpos
          · rw [AList.lookup_insert_ne hname] at hg
            exact .inl hg
        · rw [List.append_assoc]
          exact hcalls
        · intro c hc
          rcases List.mem_append.mp hc with hc | hc
          · exact hgrows.isSome (hmade c hc)
          · rw [List.mem_singleton.mp hc, AList.lookup_insert]
            rfl
  | rechecking scheme =>
    cases hfind : backends.lookup scheme with
    | some f => exact hstays (returned scheme f) (by rw [PC.inside, hfind]) hfind
    | none =>
      refine hstays (reporting scheme []) (by rw [PC.inside, hfind]) ?_
      obtain ⟨calls, hcalls, hfirst⟩ := h
      refine .elsewhere hcalls fun f hf => ?_
      have hsome := hfirst _ hf
      rw [hfind] at hsome
      cases hsome
  | reporting scheme loadNote =>
    exact hstays _ rfl ⟨schemes backends, loadNote, rfl, pairwise_schemes backends, h⟩
  | asking scheme => exact hstays _ rfl trivial
  | listing => exact hstays _ rfl trivial
  | _ => exact hstays _ rfl h

theorem reporting_of_inside {scheme message : Text} (hlocks : pc.locks = true)
    (h : (pc.inside site backends).2 = unknown scheme message) : ∃ loadNote,
    pc = reporting scheme loadNote ∧
      message = unknownMessage scheme (schemes backends) loadNote := by
  cases pc with
  | reporting name loadNote =>
    obtain ⟨rfl, rfl⟩ := PC.unknown.inj h
    exact ⟨loadNote, rfl, rfl⟩
  | finding name =>
    rw [PC.inside] at h
    split at h
    · dsimp only at h
      split at h <;> cases h
    · cases h
  | registering name calls =>
    cases calls with
    | nil => cases hlocks
    | cons c calls =>
      rw [PC.inside] at h
      split at h <;> cases h
  | adding name f =>
    rw [PC.inside] at h
    split at h <;> cases h
  | rechecking name =>
    rw [PC.inside] at h
    split at h <;> cases h
  | asking name => cases h
  | listing => cases h
  | _ => cases hlocks

theorem holds_inside (site : Site F) (backends : Backends F) (file : Text)
    (hlocks : pc.locks = true) :
    pc.holds site file = 0 ∧ (pc.inside site backends).2.holds site file = 0 := by
  constructor
  · cases pc with
    | opened scheme => cases hlocks
    | _ => rfl
  · cases pc with
    | finding scheme =>
      rw [PC.inside]
      split
      · dsimp only
        split <;> rfl
      · rfl
    | registering scheme calls =>
      cases calls with
      | nil => cases hlocks
      | cons c calls =>
        rw [PC.inside]
        split <;> rfl
    | adding scheme f =>
      rw [PC.inside]
      split <;> rfl
    | rechecking scheme =>
      rw [PC.inside]
      split <;> rfl
    | opened scheme => cases hlocks
    | _ => rfl

theorem holds_start (c : Call F) (file : Text) : c.start.holds site file = 0 := by
  cases c with
  | createForScheme scheme =>
    rw [Call.start]
    split <;> rfl
  | _ => rfl

theorem stands_start (c : Call F) : c.start.Stands site backends kept := by
  cases c with
  | createForScheme scheme =>
    rw [Call.start]
    split <;> trivial
  | _ => trivial

end PC

namespace Registry
variable [DecidableEq T] {site : Site F} {s s' : Registry T F} {a : RegistryEvent T F}

/-- What holds between any two steps. -/
structure Sound [Fintype T] (site : Site F) (s : Registry T F) : Prop where
  locks : ∀ t, s.holder = some t → (s.pc t).locks = true
  counted : ∀ file, s.handles file = ∑ t, (s.pc t).holds site file + s.kept file
  coded : ∀ scheme f file, s.backends.lookup scheme = some f → f.code = some file →
    0 < s.kept file
  stands : ∀ t, (s.pc t).Stands site s.backends s.kept

/-- What no step takes back. -/
structure Keeps (s s' : Registry T F) : Prop where
  backends : Grows s.backends s'.backends
  kept : ∀ file, s.kept file ≤ s'.kept file

theorem le_update_succ (kept : Text → ℕ) (file other : Text) :
    kept other ≤ Function.update kept file (kept file + 1) other := by
  rw [Function.update_apply]
  split
  · next h => exact h ▸ Nat.le_succ _
  · exact le_rfl

theorem keeps_step (hstands : ∀ t, (s.pc t).Stands site s.backends s.kept)
    (hs : RegistryStep site s a s') : Keeps s s' := by
  cases hs with
  | leave t hholds => exact ⟨(hstands t).inside.1, fun _ => le_rfl⟩
  | accepted t scheme error calls hpc hcalls => exact ⟨.refl _, le_update_succ _ _⟩
  | _ => exact ⟨.refl _, fun _ => le_rfl⟩

/-- A thread that goes on holds no more and no fewer handles, or the count changes with it. -/
theorem sum_holds_setPC [Fintype T] (site : Site F) (s : Registry T F) (t : T) (pc : PC F)
    (file : Text) :
    ∑ i, ((s.setPC t pc).pc i).holds site file + (s.pc t).holds site file =
      ∑ i, (s.pc i).holds site file + pc.holds site file :=
  sum_update_add (PC.holds site file) s.pc t pc

variable [Fintype T]

theorem sum_holds_of_eq {t : T} {pc : PC F} {file : Text}
    (h : pc.holds site file = (s.pc t).holds site file) :
    ∑ i, ((s.setPC t pc).pc i).holds site file = ∑ i, (s.pc i).holds site file := by
  have hsum := sum_holds_setPC site s t pc file
  omega

omit [DecidableEq T] in
theorem sound_start (site : Site F) : (start : Registry T F).Sound site where
  locks t h := by cases h
  counted file := by simp [start, PC.holds]
  coded scheme f file h := by cases h
  stands t := trivial

/-- A thread that has gone on stands, and the others do still. -/
theorem Sound.stands_setPC (h : s.Sound site) {t : T} {pc : PC F}
    {backends : Backends F} {kept : Text → ℕ} (hgrows : Grows s.backends backends)
    (hkept : ∀ file, s.kept file ≤ kept file) (hpc : pc.Stands site backends kept) (u : T) :
    ((s.setPC t pc).pc u).Stands site backends kept := by
  rw [setPC_pc, Function.update_apply]
  split
  · exact hpc
  · exact (h.stands u).mono hgrows hkept

omit [Fintype T] in
theorem locks_setPC {t u : T} {pc : PC F} (h : (s.pc u).locks = true)
    (hpc : (s.pc t).locks = false) : ((s.setPC t pc).pc u).locks = true := by
  rw [setPC_pc, Function.update_of_ne]
  · exact h
  · rintro rfl
    rw [h] at hpc
    cases hpc

/-- One step of a thread that leaves the map as it is. -/
theorem Sound.setPC (h : s.Sound site) {t : T} {pc : PC F} (hlocks : (s.pc t).locks = false)
    (hholds : ∀ file, pc.holds site file = (s.pc t).holds site file)
    (hpc : pc.Stands site s.backends s.kept) : (s.setPC t pc).Sound site where
  locks u hu := locks_setPC (h.locks u hu) hlocks
  counted file := by
    rw [sum_holds_of_eq (hholds file)]
    exact h.counted file
  coded := h.coded
  stands := h.stands_setPC (.refl _) (fun _ => le_rfl) hpc

theorem Sound.leave (h : s.Sound site) {t : T} (hholds : s.holder = some t) :
    Sound site { s.setPC t ((s.pc t).inside site s.backends).2 with
      holder := none, backends := ((s.pc t).inside site s.backends).1 } := by
  obtain ⟨hgrows, hcoded, hstands⟩ := (h.stands t).inside
  refine ⟨fun u hu => (by cases hu), fun file => ?_, fun scheme f file hf hfile => ?_,
    h.stands_setPC hgrows (fun _ => le_rfl) hstands⟩
  · obtain ⟨hbefore, hafter⟩ := PC.holds_inside site s.backends file
      (h.locks t hholds)
    change s.handles file = ∑ i, ((s.setPC t _).pc i).holds site file + s.kept file
    rw [sum_holds_of_eq (hafter.trans hbefore.symm)]
    exact h.counted file
  · rcases hcoded scheme f file hf hfile with hold | hpos
    · exact h.coded scheme f file hold hfile
    · exact hpos

theorem Sound.opened (h : s.Sound site) {t : T} {scheme : Text} (hpc : s.pc t = .loading scheme) :
    Sound site { s.setPC t (.opened scheme) with
      handles := Function.update s.handles (site.file scheme)
        (s.handles (site.file scheme) + 1) } where
  locks u hu := locks_setPC (h.locks u hu) (by rw [hpc]; rfl)
  counted file := by
    have hsum : ∑ i, ((s.setPC t (.opened scheme)).pc i).holds site file =
        ∑ i, (s.pc i).holds site file + (if site.file scheme = file then 1 else 0) := by
      have hsum := sum_holds_setPC site s t (.opened scheme) file
      rwa [hpc] at hsum
    have hold := h.counted file
    change Function.update s.handles _ _ file =
      ∑ i, ((s.setPC t (.opened scheme)).pc i).holds site file + s.kept file
    by_cases hfile : site.file scheme = file
    · subst hfile
      rw [if_pos rfl] at hsum
      rw [Function.update_self]
      omega
    · rw [if_neg hfile] at hsum
      rw [Function.update_of_ne (Ne.symm hfile)]
      omega
  coded := h.coded
  stands := h.stands_setPC (.refl _) (fun _ => le_rfl) trivial

theorem Sound.refused (h : s.Sound site) {t : T} {scheme : Text} {error : Option Text}
    {note : Text} (hpc : s.pc t = .opened scheme)
    (hnote : site.inspect scheme error = .error note) :
    Sound site { s.setPC t (.reporting scheme note) with
      handles := Function.update s.handles (site.file scheme)
        (s.handles (site.file scheme) - 1) } where
  locks u hu := locks_setPC (h.locks u hu) (by rw [hpc]; rfl)
  counted file := by
    have hsum : ∑ i, ((s.setPC t (.reporting scheme note)).pc i).holds site file +
        (if site.file scheme = file then 1 else 0) =
        ∑ i, (s.pc i).holds site file := by
      have hsum := sum_holds_setPC site s t (.reporting scheme note) file
      rwa [hpc] at hsum
    have hold := h.counted file
    change Function.update s.handles _ _ file =
      ∑ i, ((s.setPC t (.reporting scheme note)).pc i).holds site file + s.kept file
    by_cases hfile : site.file scheme = file
    · subst hfile
      rw [if_pos rfl] at hsum
      rw [Function.update_self]
      omega
    · rw [if_neg hfile] at hsum
      rw [Function.update_of_ne (Ne.symm hfile)]
      omega
  coded := h.coded
  stands := h.stands_setPC (.refl _) (fun _ => le_rfl) (.refused hnote)

theorem Sound.accepted (h : s.Sound site) {t : T} {scheme : Text} {error : Option Text}
    {calls : List (Text × F)} (hpc : s.pc t = .opened scheme)
    (hcalls : site.inspect scheme error = .ok calls) :
    Sound site { s.setPC t (.registering scheme calls) with
      kept := Function.update s.kept (site.file scheme) (s.kept (site.file scheme) + 1) } where
  locks u hu := locks_setPC (h.locks u hu) (by rw [hpc]; rfl)
  counted file := by
    have hsum : ∑ i, ((s.setPC t (.registering scheme calls)).pc i).holds site file +
        (if site.file scheme = file then 1 else 0) =
        ∑ i, (s.pc i).holds site file := by
      have hsum := sum_holds_setPC site s t (.registering scheme calls) file
      rwa [hpc] at hsum
    have hold := h.counted file
    change s.handles file = ∑ i, ((s.setPC t (.registering scheme calls)).pc i).holds site file +
      Function.update s.kept _ _ file
    by_cases hfile : site.file scheme = file
    · subst hfile
      rw [if_pos rfl] at hsum
      rw [Function.update_self]
      omega
    · rw [if_neg hfile] at hsum
      rw [Function.update_of_ne (Ne.symm hfile)]
      omega
  coded name f file hf hfile := (h.coded name f file hf hfile).trans_le (le_update_succ _ _ _)
  stands := by
    refine h.stands_setPC (.refl _) (le_update_succ _ _) ⟨?_, [], ⟨error, hcalls⟩, ?_⟩
    · change 0 < Function.update s.kept (site.file scheme) _ (site.file scheme)
      rw [Function.update_self]
      exact Nat.succ_pos _
    · exact fun c hc => (List.not_mem_nil hc).elim

theorem Sound.finish (h : s.Sound site) {t : T} {scheme : Text}
    (hpc : s.pc t = .registering scheme []) : (s.setPC t (.rechecking scheme)).Sound site := by
  refine h.setPC (by rw [hpc]; rfl) (fun _ => by rw [hpc]; rfl) ?_
  have hstands := h.stands t
  rw [hpc] at hstands
  obtain ⟨-, made, hcalls, hmade⟩ := hstands
  rw [List.append_nil] at hcalls
  exact ⟨made, hcalls, fun c hc => hmade c (List.mem_of_head? hc)⟩

theorem Sound.step (h : s.Sound site) (hs : RegistryStep site s a s') : s'.Sound site := by
  cases hs with
  | call t c hpc =>
    refine h.setPC ?_ (fun file => ?_) (PC.stands_start c)
    · generalize s.pc t = pc at hpc
      cases pc <;> first | rfl | cases hpc
    · rw [PC.holds_start]
      generalize s.pc t = pc at hpc
      cases pc <;> first | rfl | cases hpc
  | enter t hpc hfree =>
    refine ⟨fun u hu => ?_, h.counted, h.coded, h.stands⟩
    obtain rfl := Option.some.inj hu
    exact hpc
  | leave t hholds => exact h.leave hholds
  | noDirectory t scheme hpc hdir =>
    exact h.setPC (by rw [hpc]; rfl) (fun _ => by rw [hpc]; rfl) (.noDirectory hdir)
  | notOpened t scheme error hpc hdir =>
    exact h.setPC (by rw [hpc]; rfl) (fun _ => by rw [hpc]; rfl) (.notOpened error)
  | opened t scheme hpc hdir => exact h.opened hpc
  | refused t scheme error note hpc hnote => exact h.refused hpc hnote
  | accepted t scheme error calls hpc hcalls => exact h.accepted hpc hcalls
  | finish t scheme hpc => exact h.finish hpc

theorem sound_of_reach (h : (registering T site).Reachable s) : s.Sound site :=
  h.invariant (by rintro _ rfl; exact sound_start site) fun _ _ _ _ hsound _ hs => hsound.step hs

/-- The states that a run goes on to. -/
def Later (site : Site F) : Registry T F → Registry T F → Prop :=
  Relation.ReflTransGen fun s s' => ∃ a, RegistryStep site s a s'

theorem Sound.later (h : s.Sound site) (hlater : Later site s s') :
    s'.Sound site ∧ Grows s.backends s'.backends := by
  induction hlater with
  | refl => exact ⟨h, .refl _⟩
  | tail _ hstep ih =>
    obtain ⟨a, hs⟩ := hstep
    obtain ⟨hsound, hgrows⟩ := ih
    exact ⟨hsound.step hs, fun scheme f hf => (keeps_step hsound.stands hs).backends scheme f
      (hgrows scheme f hf)⟩

/-- The message a thread is left with was written in a section of its own, of the map as it was
there. -/
structure Reported (site : Site F) (s : Registry T F) (t : T) (scheme message : Text)
    (s₀ : Registry T F) (loadNote : Text) : Prop where
  reached : (registering T site).Reachable s₀
  later : Later site s₀ s
  holds : s₀.holder = some t
  reports : s₀.pc t = .reporting scheme loadNote
  message : message = unknownMessage scheme (schemes s₀.backends) loadNote

theorem exists_reported (h : (registering T site).Reachable s) (t : T) {scheme message : Text}
    (hpc : s.pc t = .unknown scheme message) :
    ∃ s₀ loadNote, Reported site s t scheme message s₀ loadNote := by
  induction h with
  | start h =>
    obtain rfl := h
    cases hpc
  | @next s s' a hr _ hs ih =>
    have hold : s.pc t = .unknown scheme message →
        ∃ s₀ loadNote, Reported site s' t scheme message s₀ loadNote := fun hold => by
      obtain ⟨s₀, loadNote, hrep⟩ := ih hold
      exact ⟨s₀, loadNote, { hrep with later := hrep.later.tail ⟨a, hs⟩ }⟩
    have hset : ∀ (u : T) (pc : PC F), (∀ name text, pc ≠ .unknown name text) →
        Function.update s.pc u pc t = .unknown scheme message → s.pc t = .unknown scheme message := by
      intro u pc hne hupdate
      by_cases htu : t = u
      · subst htu
        rw [Function.update_self] at hupdate
        exact absurd hupdate (hne _ _)
      · rwa [Function.update_of_ne htu] at hupdate
    cases hs with
    | call u c =>
      refine hold (hset u _ (fun name text hstart => ?_) hpc)
      cases c with
      | createForScheme wanted =>
        rw [Call.start] at hstart
        split at hstart <;> cases hstart
      | _ => cases hstart
    | enter u => exact hold hpc
    | leave u hholds =>
      by_cases htu : t = u
      · subst htu
        have hinside : ((s.pc t).inside site s.backends).2 = .unknown scheme message := by
          rw [← hpc]
          exact (Function.update_self t ((s.pc t).inside site s.backends).2 s.pc).symm
        obtain ⟨loadNote, hreports, hmessage⟩ :=
          PC.reporting_of_inside ((sound_of_reach hr).locks t hholds) hinside
        exact ⟨s, loadNote, hr, .single ⟨_, .leave s t hholds⟩, hholds, hreports, hmessage⟩
      · exact hold ((Function.update_of_ne htu _ _).symm.trans hpc)
    | noDirectory u => exact hold (hset u _ (by simp) hpc)
    | notOpened u => exact hold (hset u _ (by simp) hpc)
    | opened u => exact hold (hset u _ (by simp) hpc)
    | refused u => exact hold (hset u _ (by simp) hpc)
    | accepted u => exact hold (hset u _ (by simp) hpc)
    | finish u => exact hold (hset u _ (by simp) hpc)

omit [DecidableEq T] in
theorem Sound.loaded (h : s.Sound site) {scheme : Text} {f : Factory F} {file : Text}
    (hf : s.backends.lookup scheme = some f) (hfile : f.code = some file) : 0 < s.handles file := by
  rw [h.counted]
  exact (h.coded scheme f file hf hfile).trans_le (Nat.le_add_left _ _)

end Registry

namespace RegistryEvent

def thread : RegistryEvent T F → T
  | call t _ | enter t | leave t | dlopen t | dlsym t | finish t => t

def isCall : RegistryEvent T F → Bool
  | call _ _ => true
  | _ => false

end RegistryEvent

def Site.callCount (site : Site F) (scheme : Text) : ℕ :=
  ((site.library (site.file scheme)).register.getD []).length

theorem Site.callCount_of_inspect {site : Site F} {scheme : Text} {error : Option Text}
    {calls : List (Text × F)} (h : site.inspect scheme error = .ok calls) :
    site.callCount scheme = calls.length := by
  simp only [Site.inspect] at h
  split at h
  · cases h
  · split at h
    · cases h
    · split at h
      · cases h
      · next hregister =>
        rw [Site.callCount, hregister, ← Except.ok.inj h]
        rfl

def PC.left (site : Site F) : PC F → ℕ
  | adding _ _ | asking _ | listing | reporting _ _ => 2
  | rechecking _ => 4
  | registering _ calls => 2 * calls.length + 5
  | opened scheme => 2 * site.callCount scheme + 6
  | loading scheme => 2 * site.callCount scheme + 7
  | finding scheme => 2 * site.callCount scheme + 9
  | _ => 0

theorem PC.left_inside (site : Site F) (backends : Backends F) {pc : PC F}
    (h : pc.locks = true) : (pc.inside site backends).2.left site + 2 ≤ pc.left site := by
  cases pc with
  | adding scheme f =>
    rw [PC.inside]
    split <;> exact le_rfl
  | finding scheme =>
    rw [PC.inside]
    split
    · dsimp only
      split
      · exact Nat.le_add_left _ _
      · exact le_rfl
    · exact le_rfl
  | registering scheme calls =>
    cases calls with
    | nil => cases h
    | cons c calls =>
      rw [PC.inside]
      split
      · exact (Nat.add_right_comm _ _ _).le
      · change 4 + 2 ≤ 2 * (calls.length + 1) + 5
        omega
  | rechecking scheme =>
    rw [PC.inside]
    split
    · exact Nat.le_add_left _ _
    · exact le_rfl
  | asking scheme => exact le_rfl
  | listing => exact le_rfl
  | reporting scheme loadNote => exact le_rfl
  | _ => cases h

namespace Registry
variable [DecidableEq T] {site : Site F} {s s' : Registry T F} {a : RegistryEvent T F}

def left (site : Site F) (s : Registry T F) (t : T) : ℕ :=
  (s.pc t).left site - if s.holder = some t then 1 else 0

theorem left_of_ne {t u : T} {pc : PC F} (h : u ≠ t) :
    left site (s.setPC t pc) u = left site s u := by
  rw [left, left, setPC_pc, Function.update_of_ne h]
  rfl

theorem left_self {t : T} {pc : PC F} (h : s.holder ≠ some t) :
    left site (s.setPC t pc) t = pc.left site := by
  have hholder : (s.setPC t pc).holder ≠ some t := h
  rw [left, setPC_pc, Function.update_self, if_neg hholder]
  rfl

theorem left_of_not_holds {t : T} (h : s.holder ≠ some t) :
    left site s t = (s.pc t).left site := by
  rw [left, if_neg h]
  rfl

/-- A step of a thread that is not at a section brings it nearer to the end of its call. -/
theorem left_setPC {t : T} {pc : PC F} (hlocks : ∀ u, s.holder = some u → (s.pc u).locks = true)
    (hpc : (s.pc t).locks = false) (hlt : pc.left site < (s.pc t).left site) :
    left site (s.setPC t pc) t < left site s t ∧
      ∀ u ≠ t, left site (s.setPC t pc) u = left site s u := by
  have hnot : s.holder ≠ some t := by
    intro hholds
    rw [hlocks t hholds] at hpc
    cases hpc
  refine ⟨?_, fun u hu => left_of_ne hu⟩
  rw [left_self hnot, left_of_not_holds hnot]
  exact hlt

theorem left_step (hlocks : ∀ t, s.holder = some t → (s.pc t).locks = true)
    (hs : RegistryStep site s a s') (ha : a.isCall = false) :
    left site s' a.thread < left site s a.thread ∧
      ∀ u ≠ a.thread, left site s' u = left site s u := by
  cases hs with
  | call t c hpc => cases ha
  | enter t hpc hfree =>
    have hpos : 0 < (s.pc t).left site := (Nat.zero_lt_two.trans_le (Nat.le_add_left 2 _)).trans_le
      (PC.left_inside site s.backends hpc)
    constructor
    · change (s.pc t).left site - (if some t = some t then 1 else 0) < left site s t
      rw [if_pos rfl, left_of_not_holds (by simp [hfree])]
      exact Nat.sub_lt hpos Nat.one_pos
    · intro u (hu : u ≠ t)
      have hne : some t ≠ some u := fun h => hu (Option.some.inj h).symm
      change (s.pc u).left site - (if some t = some u then 1 else 0) = _
      rw [if_neg hne, left, hfree]
      rfl
  | leave t hholds =>
    constructor
    · have hless := PC.left_inside site s.backends (hlocks t hholds)
      change (Function.update s.pc t _ t).left site - (if none = some t then 1 else 0) <
        (s.pc t).left site - (if s.holder = some t then 1 else 0)
      rw [if_pos hholds, Function.update_self, if_neg nofun]
      omega
    · intro u (hu : u ≠ t)
      have hne : s.holder ≠ some u := fun h => hu (Option.some.inj (h.symm.trans hholds))
      change (Function.update s.pc t _ u).left site - (if none = some u then 1 else 0) = _
      rw [Function.update_of_ne hu, if_neg nofun, left, if_neg hne]
  | noDirectory t scheme hpc hdir =>
    exact left_setPC (t := t) hlocks (by rw [hpc]; rfl) (by simp [hpc, PC.left])
  | notOpened t scheme error hpc hdir =>
    exact left_setPC (t := t) hlocks (by rw [hpc]; rfl) (by simp [hpc, PC.left])
  | opened t scheme hpc hdir =>
    exact left_setPC (t := t) hlocks (by rw [hpc]; rfl) (by simp [hpc, PC.left])
  | refused t scheme error note hpc hnote =>
    exact left_setPC (t := t) hlocks (by rw [hpc]; rfl) (by simp [hpc, PC.left])
  | accepted t scheme error calls hpc hcalls =>
    have hcount := Site.callCount_of_inspect hcalls
    exact left_setPC (t := t) hlocks (by rw [hpc]; rfl) (by simp [hpc, PC.left, hcount])
  | finish t scheme hpc =>
    exact left_setPC (t := t) hlocks (by rw [hpc]; rfl) (by simp [hpc, PC.left])

theorem exists_step {t : T} (h : (s.pc t).atRest = false) :
    ∃ a s', RegistryStep site s a s' ∧ a.isCall = false ∧
      (a.thread = t ∨ s.holder = some a.thread) := by
  cases hholder : s.holder with
  | some u => exact ⟨.leave u, _, .leave s u hholder, rfl, .inr rfl⟩
  | none =>
    cases hpc : s.pc t with
    | loading scheme =>
      by_cases hdir : site.pluginDir = []
      · exact ⟨.dlopen t, _, .noDirectory s t scheme hpc hdir, rfl, .inl rfl⟩
      · exact ⟨.dlopen t, _, .opened s t scheme hpc hdir, rfl, .inl rfl⟩
    | opened scheme =>
      cases hinspect : site.inspect scheme none with
      | error note =>
        exact ⟨.dlsym t, _, .refused s t scheme none note hpc hinspect, rfl, .inl rfl⟩
      | ok calls =>
        exact ⟨.dlsym t, _, .accepted s t scheme none calls hpc hinspect, rfl, .inl rfl⟩
    | registering scheme calls =>
      cases calls with
      | nil => exact ⟨.finish t, _, .finish s t scheme hpc, rfl, .inl rfl⟩
      | cons c calls => exact ⟨.enter t, _, .enter s t (by rw [hpc]; rfl) hholder, rfl, .inl rfl⟩
    | adding scheme f => exact ⟨.enter t, _, .enter s t (by rw [hpc]; rfl) hholder, rfl, .inl rfl⟩
    | asking scheme => exact ⟨.enter t, _, .enter s t (by rw [hpc]; rfl) hholder, rfl, .inl rfl⟩
    | listing => exact ⟨.enter t, _, .enter s t (by rw [hpc]; rfl) hholder, rfl, .inl rfl⟩
    | finding scheme => exact ⟨.enter t, _, .enter s t (by rw [hpc]; rfl) hholder, rfl, .inl rfl⟩
    | rechecking scheme =>
      exact ⟨.enter t, _, .enter s t (by rw [hpc]; rfl) hholder, rfl, .inl rfl⟩
    | reporting scheme note =>
      exact ⟨.enter t, _, .enter s t (by rw [hpc]; rfl) hholder, rfl, .inl rfl⟩
    | _ =>
      rw [hpc] at h
      cases h

end Registry

open Registry in
/-- A factory that one thread is given is the one of that scheme from there on, for every thread,
and its code stays loaded. A scheme is unknown with the names that are registered where the message
is written, for the reason that is given, and one with a good plugin only when that could not be
opened. No thread in a call waits for one that is not in a section, and
each of its steps brings its call nearer to its end. -/
theorem registry_keeps_its_word [DecidableEq T] [Fintype T] {site : Site F} {s : Registry T F}
    (h : (registering T site).Reachable s) :
    (∀ t scheme f, s.pc t = .returned scheme f → ∀ s', Later site s s' →
      s'.backends.lookup scheme = some f ∧ (∀ u g, s'.pc u = .returned scheme g → g = f) ∧
        ∀ file, f.code = some file → 0 < s'.handles file) ∧
    (∀ t scheme message, s.pc t = .unknown scheme message → ∃ names note s₀,
      message = unknownMessage scheme names note ∧ names.Pairwise (· < ·) ∧
        ((registering T site).Reachable s₀ ∧ Later site s₀ s ∧ s₀.holder = some t ∧
          s₀.pc t = .reporting scheme note ∧
          ∀ name, name ∈ names ↔ (s₀.backends.lookup name).isSome = true) ∧
        site.Explains scheme note ∧
        (site.Serves scheme → ∃ error, note = openNote (site.path scheme) error)) ∧
    (∀ t, (s.pc t).atRest = false → ∃ a s', RegistryStep site s a s' ∧ a.isCall = false ∧
      (a.thread = t ∨ s.holder = some a.thread)) ∧
    ∀ a s', RegistryStep site s a s' → a.isCall = false →
      left site s' a.thread < left site s a.thread ∧
        ∀ u ≠ a.thread, left site s' u = left site s u := by
  have hsound := sound_of_reach h
  refine ⟨fun t scheme f hpc s' hlater => ?_, fun t scheme message hpc => ?_,
    fun t hpc => exists_step hpc, fun a s' hs ha => left_step hsound.locks hs ha⟩
  · obtain ⟨hsound', hgrows⟩ := hsound.later hlater
    have hstands := hsound.stands t
    rw [hpc] at hstands
    have hfound := hgrows scheme f hstands
    refine ⟨hfound, fun u g hg => ?_, fun file hfile => hsound'.loaded hfound hfile⟩
    have hgiven := hsound'.stands u
    rw [hg] at hgiven
    exact Option.some.inj (hgiven.symm.trans hfound)
  · obtain ⟨s₀, note, hreported⟩ := exists_reported h t hpc
    have hexplains := (sound_of_reach hreported.reached).stands t
    rw [hreported.reports] at hexplains
    exact ⟨_, note, s₀, hreported.message, pairwise_schemes _, ⟨hreported.reached, hreported.later,
      hreported.holds, hreported.reports, fun _ => mem_schemes⟩, hexplains, hexplains.of_serves⟩

/-- A plugin of the scheme `odbc`, as its `uniorm_plugin_register` is. -/
def odbcSite : Site Bool where
  pluginPath := some "p".toList
  builtDir := none
  abiVersion := 1
  library := fun _ => ⟨some 1, some [(odbcScheme, true)]⟩
  callable := id

/-- Two threads miss the scheme and load its plugin. The second one gets the exception, and the
factory that the first one registered. -/
theorem lost_race_finds_the_factory : ∃ s : Registry Bool Bool,
    (s.pc true = .returned odbcScheme ⟨true, some "p/libuniorm_odbc.so".toList⟩ ∧
      s.kept "p/libuniorm_odbc.so".toList = 2) ∧
    ∀ g, s.pc false = .returned odbcScheme g → g = ⟨true, some "p/libuniorm_odbc.so".toList⟩ := by
  have h0 : (registering Bool odbcSite).Reachable _ := .start rfl
  have h1 := h0.andThen (.call _ true (.create "dsn".toList) rfl) trivial
  have h2 := h1.andThen (.call _ false (.createForScheme "ODBC".toList) rfl) trivial
  have h3 := h2.andThen (.enter _ true rfl rfl) trivial
  have h4 := h3.andThen (.leave _ true rfl) trivial
  have h5 := h4.andThen (.enter _ false rfl rfl) trivial
  have h6 := h5.andThen (.leave _ false rfl) trivial
  have h7 := h6.andThen (.opened _ true odbcScheme rfl (by decide)) trivial
  have h8 := h7.andThen (.opened _ false odbcScheme rfl (by decide)) trivial
  have h9 := h8.andThen (.accepted _ true odbcScheme none _ rfl rfl) trivial
  have h10 := h9.andThen (.accepted _ false odbcScheme none _ rfl rfl) trivial
  have h11 := h10.andThen (.enter _ false rfl rfl) trivial
  have h12 := h11.andThen (.leave _ false rfl) trivial
  have h13 := h12.andThen (.enter _ true rfl rfl) trivial
  have h14 := h13.andThen (.leave _ true rfl) trivial
  have h15 := h14.andThen (.enter _ true rfl rfl) trivial
  have h16 := h15.andThen (.leave _ true rfl) trivial
  have hgiven := (registry_keeps_its_word h16).1 true odbcScheme
    ⟨true, some "p/libuniorm_odbc.so".toList⟩ rfl _ .refl
  exact ⟨_, ⟨rfl, rfl⟩, hgiven.2.1 false⟩

end Uniorm.Backend
