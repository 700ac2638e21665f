import Mathlib.Data.List.Nodup
import ServerCore.Foundation.Hands
import ServerCore.Server.IocpWork

/-!
# Conservation of the contexts

Every overlapped operation has an `IoContext` of `io_context_pool_`, constructed before the socket call
and destroyed by the worker that has processed the completion. Here the construction, the socket call
and the destruction are steps of their own, of the thread in `Server::Run`, the workers and any number
of threads of the application. Contexts are numbered as they are constructed.

The main theorem says that the contexts constructed and not destroyed are those of the operations that
are being posted, in flight or being processed, if and only if no socket call fails. The context of a
call that fails is never destroyed.
-/

namespace ServerCore.Server

open Foundation

/-- The threads that construct contexts. -/
inductive ServerThread (ι κ : Type)
  | run
  | worker (w : ι)
  | application (k : κ)
  deriving DecidableEq, Repr

/-- What the constructor of an `IoContext` is given. -/
structure ContextFields where
  client : ℕ
  ioType : IoType
  deriving DecidableEq, Repr

/-- The type of the context that the call constructs, if it constructs one. -/
def ClientCall.posts : ClientCall → Option IoType
  | .prepareReceive => some .recvReady
  | .receive => some .recv
  | .disconnect => some .disconnect
  | .addClient | .postReceive | .postSend | .removeClient => none

/-- `io_context_pool_` with the threads that use it. `posting` is the context for which a thread is about
to make the socket call, and `processing` is `io_context` of a worker. -/
structure ContextServer (ι κ : Type) where
  constructed : ℕ
  destroyed : List ℕ
  fields : ℕ → ContextFields
  inFlight : List ℕ
  posting : ServerThread ι κ → Option ℕ
  processing : ι → Option ℕ
  todo : ι → List ClientCall

inductive ContextAction (ι κ : Type)
  | acceptClient (client : ℕ)
  | send (k : κ) (client : ℕ)
  | disconnect (k : κ) (client : ℕ)
  | socketCall (thread : ServerThread ι κ) (accepted : Bool)
  | timeout (worker : ι)
  | dequeue (worker : ι) (context : ℕ) (failed : Bool)
  | call (worker : ι)
  | destroy (worker : ι)
  deriving DecidableEq, Repr

namespace ContextServer

variable {ι κ : Type}

def initial (ι κ : Type) : ContextServer ι κ where
  constructed := 0
  destroyed := []
  fields _ := ⟨0, .disconnect⟩
  inFlight := []
  posting _ := none
  processing _ := none
  todo _ := []

section Steps

variable [DecidableEq ι] [DecidableEq κ]

/-- `io_context_pool_->Construct(IoContext(client, io_type))`. -/
def construct (s : ContextServer ι κ) (t : ServerThread ι κ) (client : ℕ) (ioType : IoType) :
    ContextServer ι κ :=
  { s with
    constructed := s.constructed + 1
    fields := Function.update s.fields s.constructed ⟨client, ioType⟩
    posting := Function.update s.posting t (some s.constructed) }

/-- A thread outside the workers starts to post an operation. -/
def post (s : ContextServer ι κ) (t : ServerThread ι κ) (client : ℕ) (ioType : IoType) :
    Option (ContextServer ι κ) :=
  if s.posting t = none then some (s.construct t client ioType) else none

/-- What is left to do after the socket call: `PrepareReceive` and `Receive` return its result, and
`Disconnect` follows if that is `FALSE`. -/
def todoAfter (s : ContextServer ι κ) (t : ServerThread ι κ) (ioType : IoType) (accepted : Bool) :
    ι → List ClientCall :=
  match t with
  | .worker w =>
    if accepted = false ∧ (ioType = .recvReady ∨ ioType = .recv) then
      Function.update s.todo w (s.todo w ++ [.disconnect])
    else s.todo
  | .run | .application _ => s.todo

/-- `AcceptEx`, `WSARecv`, `WSASend` or `DisconnectEx`. -/
def socketCall (s : ContextServer ι κ) (t : ServerThread ι κ) (accepted : Bool) :
    Option (ContextServer ι κ) :=
  (s.posting t).map fun context ↦ { s with
    inFlight := (if accepted then [context] else []) ++ s.inFlight
    posting := Function.update s.posting t none
    todo := s.todoAfter t (s.fields context).ioType accepted }

/-- `GetQueuedCompletionStatus` returns without a completion. -/
def timeout (s : ContextServer ι κ) (w : ι) : Option (ContextServer ι κ) :=
  if s.processing w = none then some s else none

def dequeue (s : ContextServer ι κ) (w : ι) (context : ℕ) (failed : Bool) :
    Option (ContextServer ι κ) :=
  if s.processing w = none ∧ context ∈ s.inFlight then
    some { s with
      inFlight := s.inFlight.erase context
      processing := Function.update s.processing w (some context)
      todo := Function.update s.todo w ((s.fields context).ioType.calls failed) }
  else none

/-- A worker makes its next call, up to the socket call if there is one. -/
def call (s : ContextServer ι κ) (w : ι) : Option (ContextServer ι κ) :=
  if s.posting (.worker w) = none then
    match s.processing w, s.todo w with
    | some context, c :: rest =>
      let after := { s with todo := Function.update s.todo w rest }
      some (match c.posts with
        | some ioType => after.construct (.worker w) (s.fields context).client ioType
        | none => after)
    | _, _ => none
  else none

/-- `io_context_pool_->Destroy(io_context)`. -/
def destroy (s : ContextServer ι κ) (w : ι) : Option (ContextServer ι κ) :=
  if s.posting (.worker w) = none ∧ s.todo w = [] then
    (s.processing w).map fun context ↦ { s with
      destroyed := context :: s.destroyed
      processing := Function.update s.processing w none }
  else none

def step (s : ContextServer ι κ) : ContextAction ι κ → Option (ContextServer ι κ)
  | .acceptClient client => s.post .run client .accept
  | .send k client => s.post (.application k) client .send
  | .disconnect k client => s.post (.application k) client .disconnect
  | .socketCall t accepted => s.socketCall t accepted
  | .timeout w => s.timeout w
  | .dequeue w context failed => s.dequeue w context failed
  | .call w => s.call w
  | .destroy w => s.destroy w

/-- The workers are the elements of `ι`, the threads of the application those of `κ`. -/
def system (ι κ : Type) [DecidableEq ι] [DecidableEq κ] :
    System (ContextServer ι κ) (ContextAction ι κ) :=
  System.ofStep (fun s ↦ s = initial ι κ) step

end Steps

/-! ## Conservation -/

variable {s after : ContextServer ι κ}

/-- The context is constructed and not destroyed. -/
def Allocated (s : ContextServer ι κ) (context : ℕ) : Prop :=
  context < s.constructed ∧ context ∉ s.destroyed

/-- The context is that of an operation in flight, of a completion being processed, or of an operation
being posted. -/
def InUse (s : ContextServer ι κ) (context : ℕ) : Prop :=
  context ∈ s.inFlight ∨ InHand s.processing context ∨ InHand s.posting context

/-- The contexts allocated are those in use, and none is destroyed twice. -/
structure Conserved (s : ContextServer ι κ) : Prop where
  exact : ∀ context, s.Allocated context ↔ s.InUse context
  once : s.destroyed.Nodup

/-- The socket call does not fail. -/
def Accepted : ContextServer ι κ → ContextAction ι κ → Prop
  | _, .socketCall _ accepted => accepted = true
  | _, _ => True

instance (s : ContextServer ι κ) (action : ContextAction ι κ) : Decidable (s.Accepted action) := by
  unfold Accepted
  split <;> infer_instance

/-- Each context in use is at one place. -/
structure Placed (s : ContextServer ι κ) : Prop where
  conserved : s.Conserved
  known : ∀ context ∈ s.destroyed, context < s.constructed
  flights : s.inFlight.Nodup
  processors : Alone s.processing
  posters : Alone s.posting
  landed : ∀ context ∈ s.inFlight, ¬ InHand s.processing context ∧ ¬ InHand s.posting context
  apart : ∀ context, InHand s.processing context → ¬ InHand s.posting context

theorem placed_initial : (initial ι κ).Placed where
  conserved :=
    { exact context := by simp [Allocated, InUse, InHand, initial]
      once := List.nodup_nil }
  known context h := absurd h List.not_mem_nil
  flights := List.nodup_nil
  processors i j x h := by cases h
  posters i j x h := by cases h
  landed context h := absurd h List.not_mem_nil
  apart := by
    rintro context ⟨w, hw⟩
    cases hw

theorem Placed.lt (hs : s.Placed) {context : ℕ} (h : s.InUse context) : context < s.constructed :=
  ((hs.conserved.exact context).mpr h).1

theorem Placed.not_destroyed (hs : s.Placed) {context : ℕ} (h : s.InUse context) :
    context ∉ s.destroyed :=
  ((hs.conserved.exact context).mpr h).2

variable [DecidableEq ι] [DecidableEq κ]

omit [DecidableEq ι] [DecidableEq κ] in
/-- A step that moves no context. -/
theorem Placed.of_same (hs : s.Placed) (hconstructed : after.constructed = s.constructed)
    (hdestroyed : after.destroyed = s.destroyed) (hflight : after.inFlight = s.inFlight)
    (hposting : after.posting = s.posting) (hprocessing : after.processing = s.processing) :
    after.Placed := by
  refine ⟨⟨?_, ?_⟩, ?_, ?_, ?_, ?_, ?_, ?_⟩
  · intro context
    rw [Allocated, InUse, hconstructed, hdestroyed, hflight, hposting, hprocessing]
    exact hs.conserved.exact context
  · exact hdestroyed ▸ hs.conserved.once
  · rw [hdestroyed, hconstructed]
    exact hs.known
  · exact hflight ▸ hs.flights
  · exact hprocessing ▸ hs.processors
  · exact hposting ▸ hs.posters
  · rw [hflight, hprocessing, hposting]
    exact hs.landed
  · rw [hprocessing, hposting]
    exact hs.apart

/-- A thread goes on with what it has to post. -/
theorem moves_posting (t : ServerThread ι κ) (next : Option ℕ)
    (hown : ∀ x, next = some x → s.posting t = some x ∨ ¬ InHand s.posting x) :
    Moves s.posting (Function.update s.posting t next) t next where
  self := Function.update_self _ _ _
  other _ hu := Function.update_of_ne hu _ _
  own := hown

omit [DecidableEq κ] in
/-- A worker goes on with what it processes. -/
theorem moves_processing (w : ι) (next : Option ℕ)
    (hown : ∀ x, next = some x → s.processing w = some x ∨ ¬ InHand s.processing x) :
    Moves s.processing (Function.update s.processing w next) w next where
  self := Function.update_self _ _ _
  other _ hv := Function.update_of_ne hv _ _
  own := hown

/-- The next context is allocated beside those that were. -/
theorem allocated_construct (hs : s.Placed) {t : ServerThread ι κ} {client : ℕ} {ioType : IoType}
    (context : ℕ) : (s.construct t client ioType).Allocated context ↔
      context = s.constructed ∨ s.Allocated context := by
  change context < s.constructed + 1 ∧ context ∉ s.destroyed ↔ _
  constructor
  · rintro ⟨hlt, hnot⟩
    rcases Nat.lt_succ_iff_lt_or_eq.mp hlt with hlt | heq
    · exact Or.inr ⟨hlt, hnot⟩
    · exact Or.inl heq
  · rintro (rfl | ⟨hlt, hnot⟩)
    · exact ⟨Nat.lt_succ_self _, fun h ↦ Nat.lt_irrefl _ (hs.known _ h)⟩
    · exact ⟨Nat.lt_succ_of_lt hlt, hnot⟩

/-- A context is constructed. -/
theorem placed_construct (hs : s.Placed) {t : ServerThread ι κ} (client : ℕ) (ioType : IoType)
    (hidle : s.posting t = none) : (s.construct t client ioType).Placed := by
  have hfresh (h : s.InUse s.constructed) : False := Nat.lt_irrefl _ (hs.lt h)
  have hmoves : Moves s.posting (s.construct t client ioType).posting t (some s.constructed) := by
    refine moves_posting t _ fun x hx ↦ Or.inr fun hhand ↦ ?_
    rw [← Option.some.inj hx] at hhand
    exact hfresh (Or.inr (Or.inr hhand))
  have hposting (context : ℕ) : InHand (s.construct t client ioType).posting context ↔
      context = s.constructed ∨ InHand s.posting context :=
    hmoves.inHand_take hs.posters hidle
  refine ⟨⟨?_, hs.conserved.once⟩, ?_, hs.flights, hs.processors, hmoves.alone hs.posters, ?_, ?_⟩
  · intro context
    calc
      (s.construct t client ioType).Allocated context
        ↔ context = s.constructed ∨ s.Allocated context := allocated_construct hs context
      _ ↔ context = s.constructed ∨ s.InUse context := by rw [hs.conserved.exact]
      _ ↔ (s.construct t client ioType).InUse context := by
        rw [InUse, InUse, hposting, or_left_comm, or_left_comm (a := context = s.constructed)]
        rfl
  · exact fun context hmem ↦ Nat.lt_succ_of_lt (hs.known context hmem)
  · intro context hmem
    refine ⟨(hs.landed context hmem).1, ?_⟩
    rw [hposting]
    rintro (rfl | hhand)
    · exact hfresh (Or.inl hmem)
    · exact (hs.landed context hmem).2 hhand
  · intro context hhand
    rw [hposting]
    rintro (rfl | hposted)
    · exact hfresh (Or.inr (Or.inl hhand))
    · exact hs.apart context hhand hposted

/-- The socket call has returned. -/
theorem inHand_socketCall (hs : s.Placed) {t : ServerThread ι κ} {context : ℕ}
    (hposting : s.posting t = some context) :
    Alone (Function.update s.posting t none) ∧
      ∀ other, InHand (Function.update s.posting t none) other ↔
        other ≠ context ∧ InHand s.posting other := by
  have hmoves : Moves s.posting (Function.update s.posting t none) t none :=
    moves_posting t none nofun
  exact ⟨hmoves.alone hs.posters, fun other ↦ hmoves.inHand_layDown hs.posters hposting⟩

/-- A socket call that is accepted puts the context in flight. -/
theorem placed_socketCall (hs : s.Placed) {t : ServerThread ι κ}
    (hstep : s.socketCall t true = some after) : after.Placed := by
  obtain ⟨context, hposting, rfl⟩ := Option.map_eq_some_iff.mp hstep
  obtain ⟨halone, hhands⟩ := inHand_socketCall hs hposting
  have hhand : InHand s.posting context := ⟨t, hposting⟩
  refine ⟨⟨?_, hs.conserved.once⟩, hs.known, ?_, hs.processors, halone, ?_, ?_⟩
  · intro other
    refine (hs.conserved.exact other).trans ?_
    change _ ↔ other ∈ context :: s.inFlight ∨ InHand s.processing other ∨ InHand _ other
    rw [InUse, hhands, List.mem_cons]
    by_cases hother : other = context
    · rw [hother]
      exact iff_of_true (Or.inr (Or.inr hhand)) (Or.inl (Or.inl rfl))
    · simp [hother]
  · exact hs.flights.cons fun h ↦ (hs.landed context h).2 hhand
  · intro other hmem
    rw [hhands]
    rcases List.mem_cons.mp hmem with rfl | hmem
    · exact ⟨fun h ↦ hs.apart other h hhand, fun h ↦ h.1 rfl⟩
    · exact ⟨(hs.landed other hmem).1, fun h ↦ (hs.landed other hmem).2 h.2⟩
  · intro other hprocessing
    rw [hhands]
    exact fun h ↦ hs.apart other hprocessing h.2

/-- The context of a socket call that fails stays allocated, and nobody has it. -/
theorem not_conserved_of_failed (hs : s.Placed) {t : ServerThread ι κ}
    (hstep : s.socketCall t false = some after) : ¬ after.Conserved := by
  obtain ⟨context, hposting, rfl⟩ := Option.map_eq_some_iff.mp hstep
  obtain ⟨-, hhands⟩ := inHand_socketCall hs hposting
  have hhand : InHand s.posting context := ⟨t, hposting⟩
  have hallocated := (hs.conserved.exact context).mpr (Or.inr (Or.inr hhand))
  intro hconserved
  rcases (hconserved.exact context).mp hallocated with hmem | hprocessing | hposted
  · exact (hs.landed context hmem).2 hhand
  · exact hs.apart context hprocessing hhand
  · exact ((hhands context).mp hposted).1 rfl

omit [DecidableEq κ] in
theorem placed_dequeue (hs : s.Placed) {w : ι} {context : ℕ} {failed : Bool}
    (hstep : s.dequeue w context failed = some after) : after.Placed := by
  obtain ⟨⟨hidle, hmem⟩, hafter⟩ := Option.ite_none_right_eq_some.mp hstep
  rw [← Option.some.inj hafter]
  have hmoves : Moves s.processing (Function.update s.processing w (some context)) w
      (some context) := by
    refine moves_processing w _ fun x hx ↦ Or.inr ?_
    rw [← Option.some.inj hx]
    exact (hs.landed context hmem).1
  have hhands (other : ℕ) := hmoves.inHand_take hs.processors hidle (y := other)
  refine ⟨⟨?_, hs.conserved.once⟩, hs.known, hs.flights.erase context, hmoves.alone hs.processors,
    hs.posters, ?_, ?_⟩
  · intro other
    refine (hs.conserved.exact other).trans ?_
    change _ ↔ other ∈ s.inFlight.erase context ∨ InHand _ other ∨ InHand s.posting other
    rw [InUse, hhands, hs.flights.mem_erase_iff]
    by_cases hother : other = context
    · rw [hother]
      exact iff_of_true (Or.inl hmem) (Or.inr (Or.inl (Or.inl rfl)))
    · simp [hother]
  · intro other hother
    obtain ⟨hne, hflight⟩ := hs.flights.mem_erase_iff.mp hother
    rw [hhands]
    refine ⟨?_, (hs.landed other hflight).2⟩
    rintro (heq | hhand)
    · exact hne heq
    · exact (hs.landed other hflight).1 hhand
  · intro other hother
    rcases (hhands other).mp hother with rfl | hhand
    · exact (hs.landed other hmem).2
    · exact hs.apart other hhand

theorem placed_call (hs : s.Placed) {w : ι} (hstep : s.call w = some after) : after.Placed := by
  obtain ⟨hidle, hstep⟩ := Option.ite_none_right_eq_some.mp hstep
  split at hstep
  case h_1 context c rest _ _ =>
    have hpopped : ({ s with todo := Function.update s.todo w rest } : ContextServer ι κ).Placed :=
      hs.of_same rfl rfl rfl rfl rfl
    rw [← Option.some.inj hstep]
    cases hposts : c.posts with
    | none => exact hpopped
    | some ioType => exact placed_construct hpopped _ ioType hidle
  case h_2 => cases hstep

omit [DecidableEq κ] in
/-- The context that a worker destroys is allocated. -/
theorem placed_destroy (hs : s.Placed) {w : ι} (hstep : s.destroy w = some after) :
    after.Placed := by
  obtain ⟨-, hstep⟩ := Option.ite_none_right_eq_some.mp hstep
  obtain ⟨context, hprocessing, rfl⟩ := Option.map_eq_some_iff.mp hstep
  have hmoves : Moves s.processing (Function.update s.processing w none) w none :=
    moves_processing w none nofun
  have hhands (other : ℕ) := hmoves.inHand_layDown hs.processors hprocessing (y := other)
  have hhand : InHand s.processing context := ⟨w, hprocessing⟩
  have huse : s.InUse context := Or.inr (Or.inl hhand)
  refine ⟨⟨?_, hs.conserved.once.cons (hs.not_destroyed huse)⟩, ?_, hs.flights,
    hmoves.alone hs.processors, hs.posters, ?_, ?_⟩
  · intro other
    change other < s.constructed ∧ other ∉ context :: s.destroyed ↔
      other ∈ s.inFlight ∨ InHand _ other ∨ InHand s.posting other
    rw [hhands, List.mem_cons, not_or]
    have hexact := hs.conserved.exact other
    rw [Allocated, InUse] at hexact
    by_cases hother : other = context
    · rw [hother]
      refine iff_of_false (fun h ↦ h.2.1 rfl) ?_
      rintro (hmem | ⟨hne, -⟩ | hposted)
      · exact (hs.landed context hmem).1 hhand
      · exact hne rfl
      · exact hs.apart context hhand hposted
    · simpa [hother] using hexact
  · intro other hother
    rcases List.mem_cons.mp hother with rfl | hother
    · exact hs.lt huse
    · exact hs.known other hother
  · intro other hmem
    rw [hhands]
    exact ⟨fun h ↦ (hs.landed other hmem).1 h.2, (hs.landed other hmem).2⟩
  · intro other hother
    exact hs.apart other ((hhands other).mp hother).2

theorem placed_post (hs : s.Placed) {t : ServerThread ι κ} {client : ℕ} {ioType : IoType}
    (hstep : s.post t client ioType = some after) : after.Placed := by
  obtain ⟨hidle, hafter⟩ := Option.ite_none_right_eq_some.mp hstep
  rw [← Option.some.inj hafter]
  exact placed_construct hs client ioType hidle

theorem placed_step {action : ContextAction ι κ} (hs : s.Placed) (haccepted : s.Accepted action)
    (hstep : s.step action = some after) : after.Placed := by
  cases action with
  | acceptClient client | send k client | disconnect k client => exact placed_post hs hstep
  | socketCall t accepted =>
    obtain rfl : accepted = true := haccepted
    exact placed_socketCall hs hstep
  | timeout w =>
    obtain ⟨-, hafter⟩ := Option.ite_none_right_eq_some.mp hstep
    rw [← Option.some.inj hafter]
    exact hs
  | dequeue w context failed => exact placed_dequeue hs hstep
  | call w => exact placed_call hs hstep
  | destroy w => exact placed_destroy hs hstep

/-- **Conservation.** The contexts constructed and not destroyed are those in use in every state of a
run, and none is destroyed twice, if and only if every socket call of the run is accepted. -/
theorem conserved_visited_iff_accepted {history : List (ContextServer ι κ × ContextAction ι κ)}
    (hrun : (system ι κ).Run history s) :
    (∀ seen ∈ System.visited history s, seen.Conserved) ↔ System.Obeys Accepted history := by
  apply hrun.forall_visited_iff_obeys_of_sound Placed
  · exact fun state hstate ↦ hstate.conserved
  · rintro state rfl
    exact placed_initial
  · exact fun state action next hstate haccepted hstep ↦ placed_step hstate haccepted hstep
  · intro state action next hstate hrefused hstep
    cases action with
    | socketCall t accepted =>
      obtain rfl : accepted = false := Bool.eq_false_iff.mpr hrefused
      exact not_conserved_of_failed hstate hstep
    | _ => exact absurd trivial hrefused

/-- A client is accepted, and its first `WSARecv` fails. -/
def failedReceive : List (ContextAction (Fin 1) (Fin 1)) :=
  [.acceptClient 1, .socketCall .run true, .dequeue 0 0 false, .call 0, .call 0,
    .socketCall (.worker 0) false]

/-- The context of that call is allocated, and nothing leads to it. -/
theorem conserved_fails :
    ¬ ∀ history s, (system (Fin 1) (Fin 1)).Run history s → s.Conserved := by
  intro hclaim
  have hreplay : (System.replay step (initial (Fin 1) (Fin 1)) failedReceive).map (fun s ↦ decide
      (s.constructed = 2 ∧ s.destroyed = [] ∧ s.inFlight = [] ∧ s.processing 0 = some 0 ∧
        s.posting .run = none ∧ s.posting (.worker 0) = none ∧
        s.posting (.application 0) = none)) = some true := by decide
  obtain ⟨history, s, hrun, htest⟩ := System.exists_run_of_replay
    (fun s ↦ s = initial (Fin 1) (Fin 1)) rfl hreplay
  simp only [decide_eq_true_eq] at htest
  obtain ⟨hconstructed, hdestroyed, hflight, hprocessing, hrunning, hworker, happlication⟩ := htest
  have hallocated : s.Allocated 1 := by
    rw [Allocated, hconstructed, hdestroyed]
    decide
  rcases ((hclaim history s hrun).exact 1).mp hallocated with hmem | ⟨w, hw⟩ | ⟨t, ht⟩
  · rw [hflight] at hmem
    cases hmem
  · rw [Subsingleton.elim w 0, hprocessing] at hw
    cases hw
  · cases t with
    | run =>
      rw [hrunning] at ht
      cases ht
    | worker w =>
      rw [Subsingleton.elim w 0, hworker] at ht
      cases ht
    | application k =>
      rw [Subsingleton.elim k 0, happlication] at ht
      cases ht

/-- A client is accepted, receives once and is disconnected, and its receive that fails then calls
`Disconnect` once more. -/
def acceptedCalls : List (ContextAction (Fin 1) (Fin 1)) :=
  [.acceptClient 1, .socketCall .run true, .dequeue 0 0 false, .call 0, .call 0,
    .socketCall (.worker 0) true, .destroy 0, .timeout 0, .dequeue 0 1 false, .call 0,
    .socketCall (.worker 0) true, .destroy 0, .disconnect 0 1, .socketCall (.application 0) true,
    .dequeue 0 2 true, .call 0, .socketCall (.worker 0) true, .destroy 0,
    .dequeue 0 3 false, .call 0, .destroy 0]

/-- The theorem applied to that run, at the end of which one context is in flight. -/
theorem conserved_visited_iff_accepted_applies :
    ∃ history s, (system (Fin 1) (Fin 1)).Run history s ∧ s.constructed = 5 ∧
      s.destroyed = [3, 2, 1, 0] ∧
      ((∀ seen ∈ System.visited history s, seen.Conserved) ↔ System.Obeys Accepted history) := by
  have hreplay : (System.replay step (initial (Fin 1) (Fin 1)) acceptedCalls).map (fun s ↦ decide
      (s.constructed = 5 ∧ s.destroyed = [3, 2, 1, 0])) = some true := by decide
  obtain ⟨history, s, hrun, htest⟩ := System.exists_run_of_replay
    (fun s ↦ s = initial (Fin 1) (Fin 1)) rfl hreplay
  simp only [decide_eq_true_eq] at htest
  exact ⟨history, s, hrun, htest.1, htest.2, conserved_visited_iff_accepted hrun⟩

end ContextServer

end ServerCore.Server
