import Yalnix.System.Syscalls
import Mathlib.Data.Nat.ModEq

/-!
# Resources

The list of resources and the objects they lead to: `sync/sync.c`, `mutexInitialize`,
`cvarInitialize`, and what the other calls do with an id.

* `ids_nodup_iff` — the ids are distinct as long as they have not wrapped.
* `Dangling` — a second allocation that fails leaves a resource without an object.
* `handles_usable_iff` — when every id leads to an object of the right kind, or to `ERROR`.
* `Matches` — the mutexes and condition variables of `Sys` are these objects.
-/

set_option autoImplicit false

namespace Yalnix.Sync

open Yalnix.System (Mutex Resource ResourceType Sys getResourceWithID)

/-! ## The code -/

/-- An object as `mutexInit` or `cvarInit` leaves it. -/
inductive Object where
  | mutex (x : Mutex)
  | cvar

def Object.type : Object → ResourceType
  | .mutex _ => .RESOURCE_MUTEX
  | .cvar => .RESOURCE_CVAR

/-- Objects are numbered as they are allocated. -/
structure Store where
  resources : List Resource
  max_resource_id : Nat
  objects : List Object

def emptyStore : Store := ⟨[], 0, []⟩

/-- A kernel with the resources of the store. -/
def Store.sys (st : Store) : Sys :=
  { System.emptySys with
    resources := st.resources, max_resource_id := st.max_resource_id, objects := st.objects.length }

/-- What the kernel does to its resources, and the object that is made. -/
def initializeResource (type : ResourceType) (object : Object) (malloc₁ malloc₂ : Bool) (st : Store) :
    Int × Store :=
  match System.initializeResource type malloc₁ malloc₂ st.sys with
  | .ret result s => (result, ⟨s.resources, s.max_resource_id,
      if result = ERROR then st.objects else st.objects ++ [object]⟩)
  | _ => (ERROR, st)

def mutexInitialize (malloc₁ malloc₂ : Bool) (st : Store) : Int × Store :=
  initializeResource .RESOURCE_MUTEX (.mutex ⟨false, none⟩) malloc₁ malloc₂ st

def cvarInitialize (malloc₁ malloc₂ : Bool) (st : Store) : Int × Store :=
  initializeResource .RESOURCE_CVAR .cvar malloc₁ malloc₂ st

/-- The object at `resource->location`, used as one of a type; there is none at `NULL`. -/
def dereference (type : ResourceType) (resource : Resource) : Except Stop (Nat × ResourceType) :=
  match resource.location with
  | none => .error .fault
  | some n => .ok (n, type)

inductive LockCall where
  | mutexAcquire (mutex_id : Int)
  | mutexRelease (mutex_id : Int)
  | cvarWait (cvar_id mutex_id : Int)
  | cvarSignal (cvar_id : Int)
  | cvarBroadcast (cvar_id : Int)

/-- The object an id stands for in a call; `none`: the call returns `ERROR`. -/
def Store.lookup (st : Store) (id : Int) (type : ResourceType) :
    Except Stop (Option (List (Nat × ResourceType))) :=
  match getResourceWithID id type st.sys with
  | none => .ok none
  | some resource => do
    let object ← dereference type resource
    .ok (some [object])

/-- The objects that a call touches, and as what; `none`: it returns `ERROR` and touches none. -/
def Store.touches (st : Store) : LockCall → Except Stop (Option (List (Nat × ResourceType)))
  | .mutexAcquire mutex_id => st.lookup mutex_id .RESOURCE_MUTEX
  | .mutexRelease mutex_id => st.lookup mutex_id .RESOURCE_MUTEX
  | .cvarWait cvar_id mutex_id =>
    match getResourceWithID cvar_id .RESOURCE_CVAR st.sys with
    | none => .ok none
    | some resource => do
      -- the mutex is released before the condition variable is touched
      match ← st.lookup mutex_id .RESOURCE_MUTEX with
      | none => .ok none
      | some mutex => do
        let cvar ← dereference .RESOURCE_CVAR resource
        .ok (some (mutex ++ [cvar]))
  | .cvarSignal cvar_id => st.lookup cvar_id .RESOURCE_CVAR
  | .cvarBroadcast cvar_id => st.lookup cvar_id .RESOURCE_CVAR

/-! ## Handles -/

inductive InitCall where
  | mutexInitialize (malloc₁ malloc₂ : Bool)
  | cvarInitialize (malloc₁ malloc₂ : Bool)
  deriving DecidableEq

/-- The results of its two allocations. -/
def InitCall.mallocs : InitCall → Bool × Bool
  | .mutexInitialize malloc₁ malloc₂ => (malloc₁, malloc₂)
  | .cvarInitialize malloc₁ malloc₂ => (malloc₁, malloc₂)

def InitCall.after (st : Store) : InitCall → Store
  | .mutexInitialize malloc₁ malloc₂ => (Sync.mutexInitialize malloc₁ malloc₂ st).2
  | .cvarInitialize malloc₁ malloc₂ => (Sync.cvarInitialize malloc₁ malloc₂ st).2

/-- The store after the calls, from the start of the kernel. -/
def afterCalls (calls : List InitCall) : Store := calls.foldl InitCall.after emptyStore

/-- The object is there and is one of the type. -/
def Store.Holds (st : Store) (n : Nat) (type : ResourceType) : Prop :=
  ∃ object, st.objects[n]? = some object ∧ object.type = type

/-- Every id leads to an object of the right kind, or to `ERROR`. -/
structure Usable (st : Store) : Prop where
  ids : (st.resources.map Resource.id).Nodup
  objects : ∀ r ∈ st.resources, ∃ n, r.location = some n ∧ st.Holds n r.type
  calls : ∀ call, st.touches call = .ok none ∨
    ∃ l, st.touches call = .ok (some l) ∧ ∀ object ∈ l, st.Holds object.1 object.2

/-- A resource without an object. -/
def Dangling (st : Store) : Prop := ∃ r ∈ st.resources, r.location = none

variable {st : Store} {call : InitCall} {calls : List InitCall} {k : Nat}

/-- What a call adds to the store. -/
inductive InitCall.Adds (st : Store) (call : InitCall) : Store → Prop
  | nothing (malloc₁ : call.mallocs.1 = false) : Adds st call st
  | resource (type : ResourceType) (malloc₁ : call.mallocs.1 = true) (malloc₂ : call.mallocs.2 = false) :
      Adds st call ⟨st.resources ++ [⟨(st.max_resource_id + 1) % 2 ^ 32, type, none⟩],
        (st.max_resource_id + 1) % 2 ^ 32, st.objects⟩
  | object (object : Object) (malloc₁ : call.mallocs.1 = true) (malloc₂ : call.mallocs.2 = true) :
      Adds st call ⟨st.resources ++ [⟨(st.max_resource_id + 1) % 2 ^ 32, object.type, some st.objects.length⟩],
        (st.max_resource_id + 1) % 2 ^ 32, st.objects ++ [object]⟩

theorem InitCall.adds (st : Store) (call : InitCall) : call.Adds st (call.after st) := by
  rcases call with ⟨m₁, m₂⟩ | ⟨m₁, m₂⟩
  · cases m₁ with
    | false => exact .nothing rfl
    | true =>
      cases m₂ with
      | false => exact .resource .RESOURCE_MUTEX rfl rfl
      | true => exact .object (.mutex ⟨false, none⟩) rfl rfl
  · cases m₁ with
    | false => exact .nothing rfl
    | true =>
      cases m₂ with
      | false => exact .resource .RESOURCE_CVAR rfl rfl
      | true => exact .object .cvar rfl rfl

/-! ## Ids -/

/-- The ids of `k` resources, one after another. -/
structure Numbered (st : Store) (k : Nat) : Prop where
  ids : st.resources.map Resource.id = (List.range k).map fun i => (i + 1) % 2 ^ 32
  last : st.max_resource_id = k % 2 ^ 32

theorem Numbered.append (h : Numbered st k) (type : ResourceType) (location : Option Nat) (objects : List Object) :
    Numbered ⟨st.resources ++ [⟨(st.max_resource_id + 1) % 2 ^ 32, type, location⟩],
      (st.max_resource_id + 1) % 2 ^ 32, objects⟩ (k + 1) := by
  have hid : (st.max_resource_id + 1) % 2 ^ 32 = (k + 1) % 2 ^ 32 := by
    rw [h.last, Nat.mod_add_mod]
  refine ⟨?_, hid⟩
  rw [List.map_append, h.ids, List.range_succ, List.map_append, hid]
  rfl

theorem Numbered.after (h : Numbered st k) (call : InitCall) :
    Numbered (call.after st) (k + if call.mallocs.1 then 1 else 0) := by
  have hadds := call.adds st
  generalize call.after st = st' at hadds ⊢
  cases hadds with
  | nothing malloc₁ =>
    rw [malloc₁]
    exact h
  | resource type malloc₁ _ =>
    rw [malloc₁]
    exact h.append type none st.objects
  | object object malloc₁ _ =>
    rw [malloc₁]
    exact h.append object.type (some st.objects.length) (st.objects ++ [object])

/-- How many resources the calls create. -/
def created (calls : List InitCall) : Nat := calls.countP fun call => call.mallocs.1

theorem Numbered.foldl (h : Numbered st k) (calls : List InitCall) :
    Numbered (calls.foldl InitCall.after st) (k + created calls) := by
  induction calls generalizing st k with
  | nil => exact h
  | cons call calls ih =>
    have hrest := ih (h.after call)
    unfold created at hrest ⊢
    rw [List.countP_cons]
    rw [show k + (List.countP (fun call => call.mallocs.1) calls + if call.mallocs.1 then 1 else 0) =
      k + (if call.mallocs.1 then 1 else 0) + List.countP (fun call => call.mallocs.1) calls by omega]
    exact hrest

/-- Numbers that go round begin again after `m`. -/
theorem nodup_mod_iff {k m : Nat} (hm : 0 < m) : ((List.range k).map fun i => (i + 1) % m).Nodup ↔ k ≤ m := by
  constructor
  · intro hnodup
    by_contra hlong
    have hinj := List.inj_on_of_nodup_map hnodup
    have hzero : 0 ∈ List.range k := List.mem_range.mpr (by omega)
    have hround : m ∈ List.range k := List.mem_range.mpr (by omega)
    have heq := hinj hzero hround (by rw [Nat.add_mod_left])
    omega
  · intro hshort
    refine (List.nodup_range).map_on fun i hi j hj heq => ?_
    rw [List.mem_range] at hi hj
    have hmod : i ≡ j [MOD m] := Nat.ModEq.add_right_cancel' 1 heq
    exact hmod.eq_of_lt_of_lt (by omega) (by omega)

/-! ## Objects -/

/-- Every resource has an object of its type. -/
def Typed (st : Store) : Prop := ∀ r ∈ st.resources, ∃ n, r.location = some n ∧ st.Holds n r.type

theorem Typed.after (h : Typed st) (hcall : call.mallocs.1 = true → call.mallocs.2 = true) :
    Typed (call.after st) := by
  have hadds := call.adds st
  generalize call.after st = st' at hadds ⊢
  cases hadds with
  | nothing _ => exact h
  | resource type malloc₁ malloc₂ =>
    rw [hcall malloc₁] at malloc₂
    cases malloc₂
  | object object malloc₁ malloc₂ =>
    intro r hr
    rcases List.mem_append.mp hr with hr | hr
    · obtain ⟨n, hlocation, o, ho, htype⟩ := h r hr
      have hlt : n < st.objects.length := (List.getElem?_eq_some_iff.mp ho).1
      exact ⟨n, hlocation, o, (List.getElem?_append_left hlt).trans ho, htype⟩
    · rw [List.mem_singleton.mp hr]
      exact ⟨st.objects.length, rfl, object, List.getElem?_concat_length, rfl⟩

theorem Dangling.after (h : Dangling st) (call : InitCall) : Dangling (call.after st) := by
  obtain ⟨r, hr, hnull⟩ := h
  have hadds := call.adds st
  generalize call.after st = st' at hadds ⊢
  cases hadds with
  | nothing _ => exact ⟨r, hr, hnull⟩
  | resource type _ _ => exact ⟨r, List.mem_append_left _ hr, hnull⟩
  | object object _ _ => exact ⟨r, List.mem_append_left _ hr, hnull⟩

/-- **A second allocation that fails leaves a resource without an object.** -/
theorem dangling_after (st : Store) (malloc₁ : call.mallocs.1 = true) (malloc₂ : call.mallocs.2 = false) :
    Dangling (call.after st) := by
  have hadds := call.adds st
  generalize call.after st = st' at hadds ⊢
  cases hadds with
  | nothing hfail =>
    rw [malloc₁] at hfail
    cases hfail
  | resource type _ _ => exact ⟨_, List.mem_append_right _ List.mem_cons_self, rfl⟩
  | object object _ hgot =>
    rw [malloc₂] at hgot
    cases hgot

theorem Typed.foldl (h : Typed st) (hall : ∀ call ∈ calls, call.mallocs.1 = true → call.mallocs.2 = true) :
    Typed (calls.foldl InitCall.after st) :=
  List.foldlRecOn calls InitCall.after h fun _ htyped call hcall => htyped.after (hall call hcall)

theorem dangling_foldl (hcall : call ∈ calls) (malloc₁ : call.mallocs.1 = true) (malloc₂ : call.mallocs.2 = false) :
    Dangling (calls.foldl InitCall.after st) := by
  obtain ⟨front, back, rfl⟩ := List.append_of_mem hcall
  rw [List.foldl_append, List.foldl_cons]
  exact List.foldlRecOn back InitCall.after (dangling_after _ malloc₁ malloc₂) fun _ hd c _ => hd.after c

/-! ## Calls -/

theorem getResourceWithID_some {id : Int} {type : ResourceType} {r : Resource}
    (h : getResourceWithID id type st.sys = some r) : r ∈ st.resources ∧ r.type = type := by
  unfold getResourceWithID at h
  split at h
  · rename_i r' hfind
    split at h
    · rename_i htype
      cases h
      exact ⟨List.mem_of_find?_eq_some hfind, htype⟩
    · cases h
  · cases h

/-- What an id leads to is an object of the type it is used as. -/
theorem Typed.dereference (h : Typed st) {id : Int} {type : ResourceType} {r : Resource}
    (hr : getResourceWithID id type st.sys = some r) :
    ∃ n, dereference type r = .ok (n, type) ∧ st.Holds n type := by
  obtain ⟨hmem, htype⟩ := getResourceWithID_some hr
  obtain ⟨n, hlocation, hholds⟩ := h r hmem
  rw [htype] at hholds
  refine ⟨n, ?_, hholds⟩
  unfold Sync.dereference
  rw [hlocation]

/-- A call returns `ERROR`, or touches objects of the right kind. -/
def Store.Served (st : Store) (r : Except Stop (Option (List (Nat × ResourceType)))) : Prop :=
  r = .ok none ∨ ∃ l, r = .ok (some l) ∧ ∀ object ∈ l, st.Holds object.1 object.2

theorem Typed.lookup (h : Typed st) (id : Int) (type : ResourceType) : st.Served (st.lookup id type) := by
  unfold Store.lookup
  split
  · exact .inl rfl
  · rename_i r hr
    obtain ⟨n, hn, hholds⟩ := h.dereference hr
    rw [hn]
    refine .inr ⟨[(n, type)], rfl, fun object hobject => ?_⟩
    rw [List.mem_singleton.mp hobject]
    exact hholds

theorem Typed.touches (h : Typed st) (call : LockCall) : st.Served (st.touches call) := by
  cases call with
  | mutexAcquire mutex_id => exact h.lookup mutex_id .RESOURCE_MUTEX
  | mutexRelease mutex_id => exact h.lookup mutex_id .RESOURCE_MUTEX
  | cvarSignal cvar_id => exact h.lookup cvar_id .RESOURCE_CVAR
  | cvarBroadcast cvar_id => exact h.lookup cvar_id .RESOURCE_CVAR
  | cvarWait cvar_id mutex_id =>
    unfold Store.touches
    dsimp only
    split
    · exact .inl rfl
    · rename_i r hr
      obtain ⟨n, hn, hholds⟩ := h.dereference hr
      rcases h.lookup mutex_id .RESOURCE_MUTEX with hmutex | ⟨l, hmutex, hl⟩
      · rw [hmutex]
        exact .inl rfl
      · rw [hmutex]
        refine .inr ⟨l ++ [(n, .RESOURCE_CVAR)], ?_, fun object hobject => ?_⟩
        · dsimp only [bind, Except.bind]
          rw [hn]
        · rcases List.mem_append.mp hobject with hm | hm
          · exact hl object hm
          · rw [List.mem_singleton.mp hm]
            exact hholds

/-- **Every id leads to an object of the right kind, or to `ERROR`, exactly if no second allocation has
failed after a first that succeeded, and the ids have not wrapped.** -/
theorem handles_usable_iff (calls : List InitCall) : Usable (afterCalls calls) ↔
    (∀ call ∈ calls, call.mallocs.1 = true → call.mallocs.2 = true) ∧ created calls ≤ 2 ^ 32 := by
  have hnumbered : Numbered (afterCalls calls) (created calls) := by
    have hstart : Numbered emptyStore 0 := ⟨rfl, rfl⟩
    have hend := hstart.foldl calls
    rw [Nat.zero_add] at hend
    exact hend
  have hids : ((afterCalls calls).resources.map Resource.id).Nodup ↔ created calls ≤ 2 ^ 32 := by
    rw [hnumbered.ids]
    exact nodup_mod_iff (by decide)
  have hstart : Typed emptyStore := nofun
  constructor
  · intro h
    refine ⟨fun call hcall malloc₁ => ?_, hids.mp h.ids⟩
    by_contra hfail
    rw [Bool.not_eq_true] at hfail
    obtain ⟨r, hr, hnull⟩ : Dangling (afterCalls calls) := dangling_foldl hcall malloc₁ hfail
    obtain ⟨n, hlocation, -⟩ := h.objects r hr
    rw [hnull] at hlocation
    cases hlocation
  · rintro ⟨hall, hfew⟩
    have htyped : Typed (afterCalls calls) := hstart.foldl hall
    exact ⟨hids.mpr hfew, htyped, htyped.touches⟩

/-- **The id of a mutex that could not be allocated leads to `NULL`.** -/
theorem dangling_mutex : ¬ Usable (afterCalls [.mutexInitialize true false]) ∧
    (afterCalls [.mutexInitialize true false]).touches (.mutexAcquire 1) = .error .fault := by
  refine ⟨fun h => ?_, rfl⟩
  obtain ⟨n, hlocation, -⟩ := h.objects ⟨1, .RESOURCE_MUTEX, none⟩ List.mem_cons_self
  cases hlocation

/-! ## The objects of the kernel -/

/-- The resources of `s` are those of the store, and its objects the objects there. -/
structure Matches (st : Store) (s : Sys) : Prop where
  resources : s.resources = st.resources
  max_resource_id : s.max_resource_id = st.max_resource_id
  objects : s.objects = st.objects.length
  mutex : ∀ m x, st.objects[m]? = some (.mutex x) → s.mutex m = x

variable {s : Sys}

theorem Matches.getResource (h : Matches st s) (id : Int) (type : ResourceType) :
    getResourceWithID id type s = getResourceWithID id type st.sys := by
  unfold System.getResourceWithID
  rw [h.resources]
  rfl

/-- A call with an id that leads to `NULL` has no meaning in the machine either. -/
theorem Matches.fault (h : Matches st s) {mutex_id : Int}
    (hnull : st.lookup mutex_id .RESOURCE_MUTEX = .error .fault) (mallocs : List Bool) (cvar : Option Nat) :
    System.mutexAcquire mallocs mutex_id cvar s = .fault := by
  unfold Store.lookup at hnull
  unfold System.mutexAcquire
  rw [h.getResource]
  cases hr : getResourceWithID mutex_id .RESOURCE_MUTEX st.sys with
  | none =>
    rw [hr] at hnull
    cases hnull
  | some r =>
    rw [hr] at hnull
    unfold dereference at hnull
    dsimp only at hnull ⊢
    cases hlocation : r.location with
    | none => rfl
    | some n =>
      rw [hlocation] at hnull
      cases hnull

/-- `mutexInitialize` does the same to the kernel and to the store. -/
theorem Matches.mutexInitialize (h : Matches st s) (malloc₁ malloc₂ : Bool) : ∃ s',
    System.mutexInitialize malloc₁ malloc₂ s = .ret (mutexInitialize malloc₁ malloc₂ st).1 s' ∧
      Matches (mutexInitialize malloc₁ malloc₂ st).2 s' := by
  obtain ⟨hresources, hmax, hobjects, hmutex⟩ := h
  cases malloc₁ with
  | false => exact ⟨s, rfl, hresources, hmax, hobjects, hmutex⟩
  | true =>
    cases malloc₂ with
    | false =>
      refine ⟨_, rfl, ?_, congrArg (fun n => (n + 1) % 2 ^ 32) hmax, hobjects, hmutex⟩
      exact congrArg₂ (fun l n => l ++ [⟨(n + 1) % 2 ^ 32, .RESOURCE_MUTEX, none⟩]) hresources hmax
    | true =>
      refine ⟨_, rfl, ?_, congrArg (fun n => (n + 1) % 2 ^ 32) hmax, ?_, fun m x hm => ?_⟩
      · change s.resources ++ [⟨(s.max_resource_id + 1) % 2 ^ 32, _, some s.objects⟩] = _
        rw [hresources, hmax, hobjects]
        rfl
      · change s.objects + 1 = (st.objects ++ [_]).length
        rw [hobjects, List.length_append]
        rfl
      · change Function.update s.mutex s.objects ⟨false, none⟩ m = x
        change (st.objects ++ [.mutex ⟨false, none⟩])[m]? = some (.mutex x) at hm
        rcases eq_or_ne m s.objects with rfl | hne
        · rw [hobjects, List.getElem?_concat_length] at hm
          rw [Function.update_self]
          cases hm
          rfl
        · rw [Function.update_of_ne hne]
          have hlt : m < st.objects.length := by
            have hbound := (List.getElem?_eq_some_iff.mp hm).1
            rw [List.length_append, List.length_singleton] at hbound
            omega
          rw [List.getElem?_append_left hlt] at hm
          exact hmutex m x hm

/-- So does `cvarInitialize`. -/
theorem Matches.cvarInitialize (h : Matches st s) (malloc₁ malloc₂ : Bool) : ∃ s',
    System.cvarInitialize malloc₁ malloc₂ s = .ret (cvarInitialize malloc₁ malloc₂ st).1 s' ∧
      Matches (cvarInitialize malloc₁ malloc₂ st).2 s' := by
  obtain ⟨hresources, hmax, hobjects, hmutex⟩ := h
  cases malloc₁ with
  | false => exact ⟨s, rfl, hresources, hmax, hobjects, hmutex⟩
  | true =>
    cases malloc₂ with
    | false =>
      refine ⟨_, rfl, ?_, congrArg (fun n => (n + 1) % 2 ^ 32) hmax, hobjects, hmutex⟩
      exact congrArg₂ (fun l n => l ++ [⟨(n + 1) % 2 ^ 32, .RESOURCE_CVAR, none⟩]) hresources hmax
    | true =>
      refine ⟨_, rfl, ?_, congrArg (fun n => (n + 1) % 2 ^ 32) hmax, ?_, fun m x hm => ?_⟩
      · change s.resources ++ [⟨(s.max_resource_id + 1) % 2 ^ 32, _, some s.objects⟩] = _
        rw [hresources, hmax, hobjects]
        rfl
      · change s.objects + 1 = (st.objects ++ [_]).length
        rw [hobjects, List.length_append]
        rfl
      · change (st.objects ++ [.cvar])[m]? = some (.mutex x) at hm
        rcases Nat.lt_or_ge m st.objects.length with hlt | hge
        · rw [List.getElem?_append_left hlt] at hm
          exact hmutex m x hm
        · rw [List.getElem?_append_right hge, List.getElem?_singleton] at hm
          split at hm
          · cases hm
          · cases hm

end Yalnix.Sync
