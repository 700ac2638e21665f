import Mathlib.Data.Fintype.Basic
import ServerCore.Lock.ExclusiveLockHolder
import ServerCore.Server.IocpWork

/-!
# The client manager

`NewClient` is called by the accept thread, without a lock. `AddClient` and `RemoveClient` are called by
the workers and hold `lock_`, which is the spinlock with its own steps. The read and the store of an
increment or decrement of `current_` are two steps. Here it is shown where the clients are between the
steps: `RemoveClient` destroys clients that live, each of them once.
-/

namespace ServerCore.Server

open Foundation Lock

/-- Where the accept thread stands in `NewClient`, with what it has read. -/
inductive NewClientPc
  | outside
  | constructing
  | reading (client : ℕ)
  | storing (client current : ℕ)
  deriving DecidableEq, Repr

/-- Where a worker stands in `AddClient`, or in `RemoveClient` and `DeleteClient`. -/
inductive ManagerPc
  | outside
  | adding (client : ℕ)
  | removing (client : ℕ)
  | destroying (client : ℕ)
  | reading (client : ℕ)
  | storing (client current : ℕ)
  | erasing (client : ℕ)
  | unlocking
  deriving DecidableEq, Repr

/-- The client that has been constructed and not been returned. -/
def NewClientPc.client : NewClientPc → Option ℕ
  | .reading client | .storing client _ => some client
  | .outside | .constructing => none

/-- What has been read of `current_` and is about to be overwritten. -/
def NewClientPc.read : NewClientPc → Option ℕ
  | .storing _ current => some current
  | .outside | .constructing | .reading _ => none

namespace ManagerPc

def lockUse : ManagerPc → LockUse
  | .outside => .unused
  | .adding _ | .removing _ => .constructing
  | .destroying _ | .reading _ | .storing _ _ | .erasing _ => .inScope
  | .unlocking => .destructing

theorem eq_unlocking {pc : ManagerPc} (h : pc.lockUse = .destructing) : pc = .unlocking := by
  cases pc with
  | unlocking => rfl
  | _ => cases h

/-- The client that is destroyed and still in `clients_`. -/
def destroyed : ManagerPc → Option ℕ
  | .reading client | .storing client _ | .erasing client => some client
  | .outside | .adding _ | .removing _ | .destroying _ | .unlocking => none

/-- The client that was found in `clients_` and is still there. -/
def found : ManagerPc → Option ℕ
  | .destroying client | .reading client | .storing client _ | .erasing client => some client
  | .outside | .adding _ | .removing _ | .unlocking => none

/-- What has been read of `current_` and is about to be overwritten. -/
def read : ManagerPc → Option ℕ
  | .storing _ current => some current
  | .outside | .adding _ | .removing _ | .destroying _ | .reading _ | .erasing _ | .unlocking => none

/-- A client is destroyed, and `current_` is not decremented yet. -/
def Uncounted : ManagerPc → Prop
  | .reading _ | .storing _ _ => True
  | .outside | .adding _ | .removing _ | .destroying _ | .erasing _ | .unlocking => False

instance (pc : ManagerPc) : Decidable pc.Uncounted := by
  unfold Uncounted
  split <;> infer_instance

end ManagerPc

/-- The client manager with the thread that calls `NewClient` and the workers. `living` are the chunks of
`client_pool_` in which a client lives. `accepting`, `created` and `destroyed` are ghost state: the
clients returned by `NewClient` that `AddClient` has not pushed back, and how many clients were
constructed and destroyed. -/
structure ClientManager (ι : Type) where
  living : List ℕ
  clients : List ℕ
  current : ℕ
  lock : Spinlock ι
  newClient : NewClientPc
  worker : ι → ManagerPc
  accepting : List ℕ
  created : ℕ
  destroyed : ℕ

inductive ManagerAction (ι : Type)
  | newClient (address : ℕ)
  | callAddClient (worker : ι) (client : ℕ)
  | callRemoveClient (worker : ι) (client : ℕ)
  | lock (step : SpinlockStep ι)
  | worker (worker : ι)
  deriving DecidableEq, Repr

namespace ClientManager

variable {ι : Type} [DecidableEq ι]

def initial (ι : Type) : ClientManager ι where
  living := []
  clients := []
  current := 0
  lock := Spinlock.initial ι
  newClient := .outside
  worker _ := .outside
  accepting := []
  created := 0
  destroyed := 0

def goto (s : ClientManager ι) (w : ι) (pc : ManagerPc) : ClientManager ι :=
  { s with worker := Function.update s.worker w pc }

/-- The test of `NewClient`, which returns null if it fails. -/
def testLimit (s : ClientManager ι) : NewClientPc :=
  if s.current < clientLimit then .constructing else .outside

/-- A step of `NewClient`. The pool gives a chunk in which no client lives. -/
def newClientStep (s : ClientManager ι) (address : ℕ) : Option (ClientManager ι) :=
  match s.newClient with
  | .outside => some { s with newClient := s.testLimit }
  | .constructing =>
    if address ∉ s.living then
      some { s with
        living := address :: s.living
        created := s.created + 1
        newClient := .reading address }
    else none
  | .reading client => some { s with newClient := .storing client s.current }
  | .storing client current =>
    some { s with
      current := (current + 1) % 2 ^ 32
      accepting := client :: s.accepting
      newClient := .outside }

/-- A worker calls `AddClient` for a client that `NewClient` has returned, and no other worker does. -/
def callAddClient [Fintype ι] (s : ClientManager ι) (w : ι) (client : ℕ) :
    Option (ClientManager ι) :=
  if s.worker w = .outside ∧ client ∈ s.accepting ∧ ∀ v, s.worker v ≠ .adding client then
    some (s.goto w (.adding client))
  else none

/-- A worker calls `RemoveClient` for any pointer. -/
def callRemoveClient (s : ClientManager ι) (w : ι) (client : ℕ) : Option (ClientManager ι) :=
  if s.worker w = .outside then some (s.goto w (.removing client)) else none

/-- A step of `lock_.Lock()` or of `lock_.Unlock()`. -/
def lockStep (s : ClientManager ι) (a : SpinlockStep ι) : Option (ClientManager ι) :=
  if (s.worker a.thread).lockUse.Allows a then
    (s.lock.step a).map fun lock ↦
      if (s.worker a.thread).lockUse = .destructing then
        { s with lock := lock }.goto a.thread .outside
      else { s with lock := lock }
  else none

/-- A step of a worker between `Lock()` and `Unlock()`. -/
def workerStep (s : ClientManager ι) (w : ι) : Option (ClientManager ι) :=
  match s.worker w with
  | .adding client =>
    if s.lock.pc w = .writing then
      some ({ s with
        clients := s.clients ++ [client]
        accepting := s.accepting.erase client }.goto w .unlocking)
    else none
  | .removing client =>
    if s.lock.pc w = .writing then
      some (s.goto w (if client ∈ s.clients then .destroying client else .unlocking))
    else none
  | .destroying client =>
    some ({ s with
      living := s.living.erase client
      destroyed := s.destroyed + 1 }.goto w (.reading client))
  | .reading client => some (s.goto w (.storing client s.current))
  | .storing client current =>
    some ({ s with current := sub32 current 1 }.goto w (.erasing client))
  | .erasing client => some ({ s with clients := s.clients.erase client }.goto w .unlocking)
  | .outside | .unlocking => none

variable [Fintype ι]

def step (s : ClientManager ι) : ManagerAction ι → Option (ClientManager ι)
  | .newClient address => s.newClientStep address
  | .callAddClient w client => s.callAddClient w client
  | .callRemoveClient w client => s.callRemoveClient w client
  | .lock a => s.lockStep a
  | .worker w => s.workerStep w

/-- One thread that calls `NewClient`, and one worker for each element of `ι`. -/
def system (ι : Type) [DecidableEq ι] [Fintype ι] :
    System (ClientManager ι) (ManagerAction ι) :=
  System.ofStep (fun s ↦ s = initial ι) step

/-! ## The steps -/

variable {s after : ClientManager ι}

/-- What the steps do. -/
inductive ManagerStep (s : ClientManager ι) : ManagerAction ι → ClientManager ι → Prop
  | test {address : ℕ} (hpc : s.newClient = .outside) :
      ManagerStep s (.newClient address) { s with newClient := s.testLimit }
  | construct {a : ℕ} (hpc : s.newClient = .constructing) (hfree : a ∉ s.living) :
      ManagerStep s (.newClient a) { s with
        living := a :: s.living
        created := s.created + 1
        newClient := .reading a }
  | readNew {address a : ℕ} (hpc : s.newClient = .reading a) :
      ManagerStep s (.newClient address) { s with newClient := .storing a s.current }
  | storeNew {address a current : ℕ} (hpc : s.newClient = .storing a current) :
      ManagerStep s (.newClient address) { s with
        current := (current + 1) % 2 ^ 32
        accepting := a :: s.accepting
        newClient := .outside }
  | callAdd {w : ι} {a : ℕ} (hpc : s.worker w = .outside) (hmem : a ∈ s.accepting)
      (hsole : ∀ v, s.worker v ≠ .adding a) :
      ManagerStep s (.callAddClient w a) (s.goto w (.adding a))
  | callRemove {w : ι} {a : ℕ} (hpc : s.worker w = .outside) :
      ManagerStep s (.callRemoveClient w a) (s.goto w (.removing a))
  | lock {a : SpinlockStep ι} (hpc : s.lock.pc a.thread = a.pc)
      (huse : ¬ (s.worker a.thread).lockUse.Entered) :
      ManagerStep s (.lock a) { s with lock := s.lock.effect a }
  | unlock {a : SpinlockStep ι} (hpc : s.lock.pc a.thread = a.pc)
      (huse : s.worker a.thread = .unlocking) :
      ManagerStep s (.lock a) ({ s with lock := s.lock.effect a }.goto a.thread .outside)
  | push {w : ι} {a : ℕ} (hpc : s.worker w = .adding a) (hlock : s.lock.pc w = .writing) :
      ManagerStep s (.worker w) ({ s with
        clients := s.clients ++ [a]
        accepting := s.accepting.erase a }.goto w .unlocking)
  | find {w : ι} {a : ℕ} (hpc : s.worker w = .removing a) (hlock : s.lock.pc w = .writing)
      (hmem : a ∈ s.clients) : ManagerStep s (.worker w) (s.goto w (.destroying a))
  | miss {w : ι} {a : ℕ} (hpc : s.worker w = .removing a) (hlock : s.lock.pc w = .writing) :
      ManagerStep s (.worker w) (s.goto w .unlocking)
  | destroy {w : ι} {a : ℕ} (hpc : s.worker w = .destroying a) :
      ManagerStep s (.worker w) ({ s with
        living := s.living.erase a
        destroyed := s.destroyed + 1 }.goto w (.reading a))
  | readOld {w : ι} {a : ℕ} (hpc : s.worker w = .reading a) :
      ManagerStep s (.worker w) (s.goto w (.storing a s.current))
  | storeOld {w : ι} {a current : ℕ} (hpc : s.worker w = .storing a current) :
      ManagerStep s (.worker w) ({ s with current := sub32 current 1 }.goto w (.erasing a))
  | erase {w : ι} {a : ℕ} (hpc : s.worker w = .erasing a) :
      ManagerStep s (.worker w) ({ s with clients := s.clients.erase a }.goto w .unlocking)

omit [Fintype ι] in
theorem managerStep_newClientStep {address : ℕ} (hstep : s.newClientStep address = some after) :
    s.ManagerStep (.newClient address) after := by
  unfold newClientStep at hstep
  split at hstep
  case h_1 hpc => exact Option.some.inj hstep ▸ .test hpc
  case h_2 hpc =>
    obtain ⟨hfree, hafter⟩ := Option.ite_none_right_eq_some.mp hstep
    exact Option.some.inj hafter ▸ .construct hpc hfree
  case h_3 hpc => exact Option.some.inj hstep ▸ .readNew hpc
  case h_4 hpc => exact Option.some.inj hstep ▸ .storeNew hpc

omit [Fintype ι] in
theorem managerStep_lockStep {a : SpinlockStep ι} (hstep : s.lockStep a = some after) :
    s.ManagerStep (.lock a) after := by
  obtain ⟨hallows, hstep⟩ := Option.ite_none_right_eq_some.mp hstep
  obtain ⟨lock, hlock, hafter⟩ := Option.map_eq_some_iff.mp hstep
  obtain ⟨hpc, rfl⟩ := Spinlock.step_eq_some.mp hlock
  rw [← hafter]
  split
  case isTrue huse =>
    exact .unlock hpc (ManagerPc.eq_unlocking huse)
  case isFalse huse =>
    refine .lock hpc ?_
    rintro (hin | hout)
    · rw [hin] at hallows
      cases a <;> exact hallows
    · exact huse hout

omit [Fintype ι] in
theorem managerStep_workerStep {w : ι} (hstep : s.workerStep w = some after) :
    s.ManagerStep (.worker w) after := by
  unfold workerStep at hstep
  split at hstep
  case h_1 hpc =>
    obtain ⟨hlock, hafter⟩ := Option.ite_none_right_eq_some.mp hstep
    exact Option.some.inj hafter ▸ .push hpc hlock
  case h_2 hpc =>
    obtain ⟨hlock, hafter⟩ := Option.ite_none_right_eq_some.mp hstep
    rw [← Option.some.inj hafter]
    split
    case isTrue hmem => exact .find hpc hlock hmem
    case isFalse => exact .miss hpc hlock
  case h_3 hpc => exact Option.some.inj hstep ▸ .destroy hpc
  case h_4 hpc => exact Option.some.inj hstep ▸ .readOld hpc
  case h_5 hpc => exact Option.some.inj hstep ▸ .storeOld hpc
  case h_6 hpc => exact Option.some.inj hstep ▸ .erase hpc
  all_goals cases hstep

theorem managerStep_of_step {action : ManagerAction ι} (hstep : s.step action = some after) :
    s.ManagerStep action after := by
  cases action with
  | newClient address => exact managerStep_newClientStep hstep
  | callAddClient w a =>
    obtain ⟨⟨hpc, hmem, hsole⟩, hafter⟩ := Option.ite_none_right_eq_some.mp hstep
    exact Option.some.inj hafter ▸ .callAdd hpc hmem hsole
  | callRemoveClient w a =>
    obtain ⟨hpc, hafter⟩ := Option.ite_none_right_eq_some.mp hstep
    exact Option.some.inj hafter ▸ .callRemove hpc
  | lock a => exact managerStep_lockStep hstep
  | worker w => exact managerStep_workerStep hstep

section Goto

variable {w : ι} {pc : ManagerPc}

omit [Fintype ι]

@[simp]
theorem goto_living : (s.goto w pc).living = s.living :=
  rfl

@[simp]
theorem goto_current : (s.goto w pc).current = s.current :=
  rfl

@[simp]
theorem goto_lock : (s.goto w pc).lock = s.lock :=
  rfl

@[simp]
theorem goto_newClient : (s.goto w pc).newClient = s.newClient :=
  rfl

@[simp]
theorem goto_worker : (s.goto w pc).worker = Function.update s.worker w pc :=
  rfl

end Goto

/-! ## The lock -/

/-- What the workers do with `lock_`. -/
def lockUse (s : ClientManager ι) (w : ι) : LockUse :=
  (s.worker w).lockUse

omit [Fintype ι] in
theorem guards_of_goto {w : ι} {pc : ManagerPc} (hs : s.lock.Guards s.lockUse)
    (hlock : after.lock = s.lock) (hworker : after.worker = Function.update s.worker w pc)
    (hentered : pc.lockUse.Entered → s.lock.pc w = .writing) : after.lock.Guards after.lockUse := by
  rw [hlock]
  refine hs.of_moved (t := w) ?_ ?_
  · intro v hv
    rw [lockUse, hworker, Function.update_of_ne hv]
    rfl
  · rw [lockUse, hworker, Function.update_self]
    exact hentered

omit [Fintype ι] in
theorem guards_step {action : ManagerAction ι} (hs : s.lock.Guards s.lockUse)
    (hstep : s.ManagerStep action after) : after.lock.Guards after.lockUse := by
  have hin {w : ι} {pc : ManagerPc} (hpc : s.worker w = pc) (h : pc.lockUse = .inScope) :
      s.lock.pc w = .writing := by
    rw [← hpc] at h
    exact hs.entered w (Or.inl h)
  have hout {pc : ManagerPc} (h : pc.lockUse = .unused ∨ pc.lockUse = .constructing) :
      ¬ pc.lockUse.Entered := by
    rcases h with h | h
    all_goals
      rw [h]
      decide
  cases hstep with
  | test hpc | construct hpc hfree | readNew hpc | storeNew hpc => exact hs
  | callAdd hpc hmem hsole | callRemove hpc =>
    exact guards_of_goto hs goto_lock goto_worker fun h ↦ absurd h (hout (Or.inr rfl))
  | lock hpc huse => exact hs.step hpc (fun _ _ ↦ rfl) huse
  | @unlock a hpc huse =>
    refine hs.step hpc ?_ ?_
    · intro v hv
      change ManagerPc.lockUse (Function.update s.worker a.thread .outside v) = _
      rw [Function.update_of_ne hv]
      rfl
    · change ¬ (ManagerPc.lockUse (Function.update s.worker a.thread .outside a.thread)).Entered
      rw [Function.update_self]
      decide
  | push hpc hlock | find hpc hlock hmem | miss hpc hlock =>
    exact guards_of_goto hs goto_lock goto_worker fun _ ↦ hlock
  | destroy hpc | readOld hpc | storeOld hpc | erase hpc =>
    exact guards_of_goto hs goto_lock goto_worker fun _ ↦ hin hpc rfl

/-! ## The clients -/

/-- The client is destroyed, and still in `clients_`. -/
def Stale (s : ClientManager ι) (a : ℕ) : Prop :=
  ∃ w, (s.worker w).destroyed = some a

/-- Where the living clients are. The chunk of a stale client may be that of a new one. -/
structure Tracked (s : ClientManager ι) : Prop where
  guards : s.lock.Guards s.lockUse
  living : s.living.Nodup
  clients : s.clients.Nodup
  accepting : s.accepting.Nodup
  listed : ∀ a ∈ s.clients, ¬ s.Stale a →
    a ∈ s.living ∧ a ∉ s.accepting ∧ s.newClient.client ≠ some a
  accepted : ∀ a ∈ s.accepting, a ∈ s.living ∧ s.newClient.client ≠ some a
  returning : ∀ a, s.newClient.client = some a → a ∈ s.living
  adding : ∀ w a, s.worker w = .adding a → a ∈ s.accepting
  adders : ∀ v w a, s.worker v = .adding a → s.worker w = .adding a → v = w
  found : ∀ w a, (s.worker w).found = some a → a ∈ s.clients
  created : s.created = s.living.length + s.destroyed

omit [DecidableEq ι] [Fintype ι] in
theorem tracked_initial : (initial ι).Tracked where
  guards := Spinlock.guards_initial fun w ↦ by
    change ¬ LockUse.Entered .unused
    decide
  living := List.nodup_nil
  clients := List.nodup_nil
  accepting := List.nodup_nil
  listed a ha := absurd ha List.not_mem_nil
  accepted a ha := absurd ha List.not_mem_nil
  returning a ha := by cases ha
  adding w a ha := by cases ha
  adders v w a hv := by cases hv
  found w a ha := by cases ha
  created := rfl

omit [DecidableEq ι] [Fintype ι] in
/-- The worker that has the lock is the only one that may have destroyed a client. -/
theorem Tracked.destroyed_of_lock (hs : s.Tracked) {w : ι} {a : ℕ} (hlock : s.lock.pc w = .writing)
    (hstale : s.Stale a) : (s.worker w).destroyed = some a := by
  obtain ⟨v, hv⟩ := hstale
  have hentered : (s.lockUse v).Entered := by
    rw [lockUse]
    cases hpc : s.worker v
    all_goals
      rw [hpc] at hv
      first
        | exact Or.inl rfl
        | cases hv
  rw [← hs.guards.eq_of_entered hlock hentered]
  exact hv

omit [Fintype ι] in
/-- A worker goes on, and has neither destroyed a client nor taken one off `clients_`. -/
theorem Tracked.of_goto (hs : s.Tracked) {w : ι} {pc : ManagerPc}
    (hguards : after.lock.Guards after.lockUse) (hliving : after.living = s.living)
    (hclients : after.clients = s.clients) (haccepting : after.accepting = s.accepting)
    (hnew : after.newClient = s.newClient) (hcreated : after.created = s.created)
    (hcount : after.destroyed = s.destroyed)
    (hworker : after.worker = Function.update s.worker w pc)
    (hdestroyed : pc.destroyed = (s.worker w).destroyed)
    (hfound : ∀ a, pc.found = some a → a ∈ s.clients)
    (hadding : ∀ a, pc = .adding a → a ∈ s.accepting ∧ ∀ v, s.worker v ≠ .adding a) :
    after.Tracked := by
  have hself : after.worker w = pc := by rw [hworker, Function.update_self]
  have hother (v : ι) (hv : v ≠ w) : after.worker v = s.worker v := by
    rw [hworker, Function.update_of_ne hv]
  have hstale (a : ℕ) (h : s.Stale a) : after.Stale a := by
    obtain ⟨v, hv⟩ := h
    refine ⟨v, ?_⟩
    by_cases hvw : v = w
    · rw [hvw, hself, hdestroyed, ← hvw]
      exact hv
    · rw [hother v hvw]
      exact hv
  refine ⟨hguards, ?_, ?_, ?_, ?_, ?_, ?_, ?_, ?_, ?_, ?_⟩
  · exact hliving ▸ hs.living
  · exact hclients ▸ hs.clients
  · exact haccepting ▸ hs.accepting
  · rw [hclients, hliving, haccepting, hnew]
    exact fun a ha hnot ↦ hs.listed a ha fun h ↦ hnot (hstale a h)
  · rw [haccepting, hliving, hnew]
    exact hs.accepted
  · rw [hliving, hnew]
    exact hs.returning
  · rw [haccepting]
    intro v a hv
    by_cases hvw : v = w
    · rw [hvw, hself] at hv
      exact (hadding a hv).1
    · rw [hother v hvw] at hv
      exact hs.adding v a hv
  · intro u v a hu hv
    by_cases huw : u = w
    · by_cases hvw : v = w
      · rw [huw, hvw]
      · rw [huw, hself] at hu
        rw [hother v hvw] at hv
        exact absurd hv ((hadding a hu).2 v)
    · rw [hother u huw] at hu
      by_cases hvw : v = w
      · rw [hvw, hself] at hv
        exact absurd hu ((hadding a hv).2 u)
      · rw [hother v hvw] at hv
        exact hs.adders u v a hu hv
  · rw [hclients]
    intro v a hv
    by_cases hvw : v = w
    · rw [hvw, hself] at hv
      exact hfound a hv
    · rw [hother v hvw] at hv
      exact hs.found v a hv
  · rw [hcreated, hliving, hcount]
    exact hs.created

omit [DecidableEq ι] [Fintype ι] in
theorem Tracked.lock_of_found (hs : s.Tracked) {w : ι} {a : ℕ}
    (hfound : (s.worker w).found = some a) : s.lock.pc w = .writing := by
  apply hs.guards.entered w
  rw [lockUse]
  cases hpc : s.worker w
  all_goals
    rw [hpc] at hfound
    first
      | exact Or.inl rfl
      | cases hfound

omit [DecidableEq ι] [Fintype ι] in
/-- While a worker has the lock and has destroyed no client, no client is stale. -/
theorem Tracked.not_stale (hs : s.Tracked) {w : ι} {a : ℕ} (hlock : s.lock.pc w = .writing)
    (hnone : (s.worker w).destroyed = none) : ¬ s.Stale a := by
  intro hstale
  have hsome := hs.destroyed_of_lock hlock hstale
  rw [hnone] at hsome
  cases hsome

omit [Fintype ι] in
theorem tracked_newClient {address : ℕ} (hs : s.Tracked)
    (hguards : after.lock.Guards after.lockUse)
    (hstep : s.ManagerStep (.newClient address) after) : after.Tracked := by
  cases hstep with
  | test hpc =>
    have hnone : s.testLimit.client = none := by
      unfold testLimit
      split <;> rfl
    refine ⟨hguards, hs.living, hs.clients, hs.accepting, ?_, ?_, ?_, hs.adding, hs.adders,
      hs.found, hs.created⟩
    · intro a ha hnot
      obtain ⟨hliving, haccepting, -⟩ := hs.listed a ha hnot
      exact ⟨hliving, haccepting, by simp [hnone]⟩
    · exact fun a ha ↦ ⟨(hs.accepted a ha).1, by simp [hnone]⟩
    · exact fun a ha ↦ by simp [hnone] at ha
  | construct hpc hfree =>
    have hne (a : ℕ) (ha : a ∈ s.living) : some address ≠ some a := by
      rintro ⟨rfl⟩
      exact hfree ha
    refine ⟨hguards, hs.living.cons hfree, hs.clients, hs.accepting, ?_, ?_, ?_, hs.adding,
      hs.adders, hs.found, ?_⟩
    · intro a ha hnot
      obtain ⟨hliving, haccepting, -⟩ := hs.listed a ha hnot
      exact ⟨List.mem_cons_of_mem _ hliving, haccepting, hne a hliving⟩
    · intro a ha
      have hliving := (hs.accepted a ha).1
      exact ⟨List.mem_cons_of_mem _ hliving, hne a hliving⟩
    · intro a ha
      rw [Option.some.inj ha]
      exact List.mem_cons_self
    · have hcreated := hs.created
      simp only [List.length_cons]
      omega
  | @readNew _ b hpc =>
    have hsame : (NewClientPc.storing b s.current).client = s.newClient.client := by
      rw [hpc]
      rfl
    refine ⟨hguards, hs.living, hs.clients, hs.accepting, ?_, ?_, ?_, hs.adding, hs.adders,
      hs.found, hs.created⟩
    · change ∀ a ∈ s.clients, ¬ s.Stale a → _ ∧ _ ∧ (NewClientPc.storing b s.current).client ≠ _
      rw [hsame]
      exact hs.listed
    · change ∀ a ∈ s.accepting, _ ∧ (NewClientPc.storing b s.current).client ≠ _
      rw [hsame]
      exact hs.accepted
    · change ∀ a, (NewClientPc.storing b s.current).client = _ → _
      rw [hsame]
      exact hs.returning
  | @storeNew _ b current hpc =>
    have hclient : s.newClient.client = some b := by rw [hpc]; rfl
    have hb : b ∉ s.accepting := fun h ↦ (hs.accepted b h).2 hclient
    refine ⟨hguards, hs.living, hs.clients, hs.accepting.cons hb, ?_, ?_, ?_, ?_, hs.adders,
      hs.found, hs.created⟩
    · intro a ha hnot
      obtain ⟨hliving, haccepting, hne⟩ := hs.listed a ha hnot
      refine ⟨hliving, ?_, by simp [NewClientPc.client]⟩
      rw [List.mem_cons, not_or]
      refine ⟨?_, haccepting⟩
      rintro rfl
      exact hne hclient
    · intro a ha
      refine ⟨?_, by simp [NewClientPc.client]⟩
      rcases List.mem_cons.mp ha with rfl | ha
      · exact hs.returning a hclient
      · exact (hs.accepted a ha).1
    · exact fun a ha ↦ by simp [NewClientPc.client] at ha
    · exact fun w a ha ↦ List.mem_cons_of_mem _ (hs.adding w a ha)

omit [Fintype ι] in
/-- `AddClient` pushes back a client that is not in `clients_`. -/
theorem tracked_push {w : ι} {a : ℕ} (hs : s.Tracked) (hpc : s.worker w = .adding a)
    (hlock : s.lock.pc w = .writing) (hguards : after.lock.Guards after.lockUse)
    (hafter : after = { s with
      clients := s.clients ++ [a]
      accepting := s.accepting.erase a }.goto w .unlocking) : after.Tracked := by
  have hself : after.worker w = .unlocking := by rw [hafter, goto_worker, Function.update_self]
  have hother (v : ι) (hv : v ≠ w) : after.worker v = s.worker v := by
    rw [hafter, goto_worker, Function.update_of_ne hv]
  have hclients : after.clients = s.clients ++ [a] := by rw [hafter]; rfl
  have haccepting : after.accepting = s.accepting.erase a := by rw [hafter]; rfl
  have hliving : after.living = s.living := by rw [hafter]; rfl
  have hnew : after.newClient = s.newClient := by rw [hafter]; rfl
  have hnotstale (b : ℕ) : ¬ s.Stale b := hs.not_stale hlock (by rw [hpc]; rfl)
  have ha : a ∈ s.accepting := hs.adding w a hpc
  have hfresh : a ∉ s.clients := fun h ↦ (hs.listed a h (hnotstale a)).2.1 ha
  have hadding (v : ι) (b : ℕ) (hv : after.worker v = .adding b) : v ≠ w ∧ s.worker v = .adding b := by
    by_cases hvw : v = w
    · rw [hvw, hself] at hv
      cases hv
    · exact ⟨hvw, (hother v hvw).symm.trans hv⟩
  refine ⟨hguards, ?_, ?_, ?_, ?_, ?_, ?_, ?_, ?_, ?_, ?_⟩
  · exact hliving ▸ hs.living
  · rw [hclients]
    exact List.nodup_append'.mpr ⟨hs.clients, List.nodup_singleton a,
      List.disjoint_singleton.mpr hfresh⟩
  · exact haccepting ▸ hs.accepting.erase a
  · rw [hclients, hliving, haccepting, hnew]
    intro b hb _
    rcases List.mem_append.mp hb with hb | hb
    · obtain ⟨hlive, hnot, hne⟩ := hs.listed b hb (hnotstale b)
      exact ⟨hlive, fun h ↦ hnot (List.mem_of_mem_erase h), hne⟩
    · rw [List.mem_singleton.mp hb]
      exact ⟨(hs.accepted a ha).1, hs.accepting.not_mem_erase, (hs.accepted a ha).2⟩
  · rw [haccepting, hliving, hnew]
    exact fun b hb ↦ hs.accepted b (List.mem_of_mem_erase hb)
  · rw [hliving, hnew]
    exact hs.returning
  · rw [haccepting]
    intro v b hv
    obtain ⟨hvw, hv⟩ := hadding v b hv
    have hne : b ≠ a := by
      rintro rfl
      exact hvw (hs.adders v w b hv hpc)
    exact (List.mem_erase_of_ne hne).mpr (hs.adding v b hv)
  · intro u v b hu hv
    exact hs.adders u v b (hadding u b hu).2 (hadding v b hv).2
  · rw [hclients]
    intro v b hv
    by_cases hvw : v = w
    · rw [hvw, hself] at hv
      cases hv
    · rw [hother v hvw] at hv
      exact List.mem_append_left _ (hs.found v b hv)
  · rw [hafter]
    exact hs.created

omit [Fintype ι] in
/-- `DeleteClient` destroys a client that lives. -/
theorem tracked_destroy {w : ι} {a : ℕ} (hs : s.Tracked) (hpc : s.worker w = .destroying a)
    (hguards : after.lock.Guards after.lockUse)
    (hafter : after = { s with
      living := s.living.erase a
      destroyed := s.destroyed + 1 }.goto w (.reading a)) :
    a ∈ s.living ∧ after.Tracked := by
  have hself : after.worker w = .reading a := by rw [hafter, goto_worker, Function.update_self]
  have hother (v : ι) (hv : v ≠ w) : after.worker v = s.worker v := by
    rw [hafter, goto_worker, Function.update_of_ne hv]
  have hliving : after.living = s.living.erase a := by rw [hafter]; rfl
  have hclients : after.clients = s.clients := by rw [hafter]; rfl
  have haccepting : after.accepting = s.accepting := by rw [hafter]; rfl
  have hnew : after.newClient = s.newClient := by rw [hafter]; rfl
  have hfound : (s.worker w).found = some a := by rw [hpc]; rfl
  have hnotstale (b : ℕ) : ¬ s.Stale b :=
    hs.not_stale (hs.lock_of_found hfound) (by rw [hpc]; rfl)
  obtain ⟨ha, haccept, hnewne⟩ := hs.listed a (hs.found w a hfound) (hnotstale a)
  have hmem (b : ℕ) (hb : b ∈ s.living) (hne : b ≠ a) : b ∈ s.living.erase a :=
    (List.mem_erase_of_ne hne).mpr hb
  have hadding (v : ι) (b : ℕ) (hv : after.worker v = .adding b) : s.worker v = .adding b := by
    by_cases hvw : v = w
    · rw [hvw, hself] at hv
      cases hv
    · exact (hother v hvw).symm.trans hv
  refine ⟨ha, hguards, ?_, ?_, ?_, ?_, ?_, ?_, ?_, ?_, ?_, ?_⟩
  · exact hliving ▸ hs.living.erase a
  · exact hclients ▸ hs.clients
  · exact haccepting ▸ hs.accepting
  · rw [hclients, hliving, haccepting, hnew]
    intro b hb hnot
    obtain ⟨hlive, hrest⟩ := hs.listed b hb (hnotstale b)
    have hne : b ≠ a := by
      rintro rfl
      exact hnot ⟨w, by rw [hself]; rfl⟩
    exact ⟨hmem b hlive hne, hrest⟩
  · rw [haccepting, hliving, hnew]
    intro b hb
    have hne : b ≠ a := by
      rintro rfl
      exact haccept hb
    exact ⟨hmem b (hs.accepted b hb).1 hne, (hs.accepted b hb).2⟩
  · rw [hliving, hnew]
    intro b hb
    have hne : b ≠ a := by
      rintro rfl
      exact hnewne hb
    exact hmem b (hs.returning b hb) hne
  · rw [haccepting]
    exact fun v b hv ↦ hs.adding v b (hadding v b hv)
  · exact fun u v b hu hv ↦ hs.adders u v b (hadding u b hu) (hadding v b hv)
  · rw [hclients]
    intro v b hv
    by_cases hvw : v = w
    · rw [hvw, hself] at hv
      rw [← Option.some.inj hv]
      exact hs.found w a hfound
    · rw [hother v hvw] at hv
      exact hs.found v b hv
  · have hcreated := hs.created
    have hlength := List.length_erase_add_one ha
    rw [hliving, hafter]
    change s.created = (s.living.erase a).length + (s.destroyed + 1)
    omega

omit [Fintype ι] in
/-- `RemoveClient` erases the client that it has destroyed. -/
theorem tracked_erase {w : ι} {a : ℕ} (hs : s.Tracked) (hpc : s.worker w = .erasing a)
    (hguards : after.lock.Guards after.lockUse)
    (hafter : after = { s with clients := s.clients.erase a }.goto w .unlocking) :
    after.Tracked := by
  have hself : after.worker w = .unlocking := by rw [hafter, goto_worker, Function.update_self]
  have hother (v : ι) (hv : v ≠ w) : after.worker v = s.worker v := by
    rw [hafter, goto_worker, Function.update_of_ne hv]
  have hclients : after.clients = s.clients.erase a := by rw [hafter]; rfl
  have hfound : (s.worker w).found = some a := by rw [hpc]; rfl
  have hlock := hs.lock_of_found hfound
  have hadding (v : ι) (b : ℕ) (hv : after.worker v = .adding b) : s.worker v = .adding b := by
    by_cases hvw : v = w
    · rw [hvw, hself] at hv
      cases hv
    · exact (hother v hvw).symm.trans hv
  -- what was stale is the client that is erased now
  have hstale (b : ℕ) (hb : s.Stale b) : b = a := by
    have hsome := hs.destroyed_of_lock hlock hb
    rw [hpc] at hsome
    exact (Option.some.inj hsome).symm
  have hlisted (b : ℕ) (hb : b ∈ s.clients.erase a) :
      b ∈ s.living ∧ b ∉ s.accepting ∧ s.newClient.client ≠ some b := by
    refine hs.listed b (List.mem_of_mem_erase hb) fun h ↦ ?_
    rw [hstale b h] at hb
    exact hs.clients.not_mem_erase hb
  refine ⟨hguards, ?_, ?_, ?_, ?_, ?_, ?_, ?_, ?_, ?_, ?_⟩
  · rw [hafter]
    exact hs.living
  · exact hclients ▸ hs.clients.erase a
  · rw [hafter]
    exact hs.accepting
  · rw [hclients, hafter]
    exact fun b hb _ ↦ hlisted b hb
  · rw [hafter]
    exact hs.accepted
  · rw [hafter]
    exact hs.returning
  · intro v b hv
    have hmem := hs.adding v b (hadding v b hv)
    rw [hafter]
    exact hmem
  · exact fun u v b hu hv ↦ hs.adders u v b (hadding u b hu) (hadding v b hv)
  · rw [hclients]
    intro v b hv
    by_cases hvw : v = w
    · rw [hvw, hself] at hv
      cases hv
    · rw [hother v hvw] at hv
      -- a second worker inside the scope would be this one
      have hentered := hs.guards.sole.unique v w (Or.inr (hs.lock_of_found hv)) (Or.inr hlock)
      exact absurd hentered hvw
  · rw [hafter]
    exact hs.created

omit [Fintype ι] in
/-- `DeleteClient` stores whatever number to `current_`. -/
theorem tracked_storeOld {w : ι} {a current stored : ℕ} (hs : s.Tracked)
    (hpc : s.worker w = .storing a current)
    (hguards : ({ s with current := stored }.goto w (.erasing a)).lock.Guards
      ({ s with current := stored }.goto w (.erasing a)).lockUse) :
    ({ s with current := stored }.goto w (.erasing a)).Tracked := by
  refine hs.of_goto hguards rfl rfl rfl rfl rfl rfl goto_worker ?_ ?_ ?_
  · rw [hpc]
    rfl
  · rintro _ ⟨⟩
    exact hs.found w a (by rw [hpc]; rfl)
  · exact fun _ h ↦ by cases h

omit [Fintype ι] in
theorem tracked_step {action : ManagerAction ι} (hs : s.Tracked)
    (hstep : s.ManagerStep action after) : after.Tracked := by
  have hguards := guards_step hs.guards hstep
  cases hstep with
  | @test address hpc => exact tracked_newClient hs hguards (@ManagerStep.test _ _ s address hpc)
  | construct hpc hfree => exact tracked_newClient hs hguards (.construct hpc hfree)
  | @readNew address a hpc =>
    exact tracked_newClient hs hguards (@ManagerStep.readNew _ _ s address a hpc)
  | @storeNew address a current hpc =>
    exact tracked_newClient hs hguards (@ManagerStep.storeNew _ _ s address a current hpc)
  | callAdd hpc hmem hsole =>
    refine hs.of_goto hguards rfl rfl rfl rfl rfl rfl rfl ?_ ?_ ?_
    · rw [hpc]
      rfl
    · exact fun _ h ↦ by cases h
    · rintro _ ⟨⟩
      exact ⟨hmem, hsole⟩
  | callRemove hpc =>
    refine hs.of_goto hguards rfl rfl rfl rfl rfl rfl rfl ?_ ?_ ?_
    · rw [hpc]
      rfl
    all_goals exact fun _ h ↦ by cases h
  | lock hpc huse =>
    exact ⟨hguards, hs.living, hs.clients, hs.accepting, hs.listed, hs.accepted, hs.returning,
      hs.adding, hs.adders, hs.found, hs.created⟩
  | unlock hpc huse =>
    refine hs.of_goto hguards rfl rfl rfl rfl rfl rfl goto_worker ?_ ?_ ?_
    · rw [huse]
      rfl
    all_goals exact fun _ h ↦ by cases h
  | push hpc hlock => exact tracked_push hs hpc hlock hguards rfl
  | find hpc hlock hmem =>
    refine hs.of_goto hguards rfl rfl rfl rfl rfl rfl rfl ?_ ?_ ?_
    · rw [hpc]
      rfl
    · rintro _ ⟨⟩
      exact hmem
    · exact fun _ h ↦ by cases h
  | miss hpc hlock =>
    refine hs.of_goto hguards rfl rfl rfl rfl rfl rfl rfl ?_ ?_ ?_
    · rw [hpc]
      rfl
    all_goals exact fun _ h ↦ by cases h
  | destroy hpc => exact (tracked_destroy hs hpc hguards rfl).2
  | @readOld w a hpc =>
    refine hs.of_goto hguards rfl rfl rfl rfl rfl rfl rfl ?_ ?_ ?_
    · rw [hpc]
      rfl
    · rintro _ ⟨⟩
      exact hs.found w a (by rw [hpc]; rfl)
    · exact fun _ h ↦ by cases h
  | storeOld hpc => exact tracked_storeOld hs hpc hguards
  | erase hpc => exact tracked_erase hs hpc hguards rfl

end ClientManager

end ServerCore.Server
