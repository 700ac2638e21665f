import Mathlib.Algebra.Order.BigOperators.Group.Finset
import ServerCore.Foundation.Progress
import ServerCore.Foundation.Resources
import ServerCore.Server.SendCalls

/-!
# Calls of `Send` that wait for a completion

A call of `Send` waits in `Produce` until the send before it on the same client has completed. Completions
are dequeued by the workers, and the workers also run the handlers that call `Send`. A worker whose handler
waits does not dequeue.

The main theorem says exactly when the calls that a handler, or the application, has before it can still
return: if it gets through by itself, because the locks it needs are free, each needed once; or if a
worker does, for then that worker comes back to the completion port, and no lock that is needed has been
lost with a send that failed. So with one worker a handler that sends twice to one client stops the
server for good.

The handlers for the completion of a send do not call `Send` here.
-/

namespace ServerCore.Server

open Foundation

/-- How many steps it still takes. -/
def SendStage.toGo : SendStage → ℕ
  | .ready => 7
  | .copied => 6
  | .captured => 5
  | .produced => 4
  | .sent => 3
  | .shifted => 2
  | .withdrawn => 1
  | .completed | .failed => 0

/-- No call begins or fails. -/
def SendServerAction.Lucky {W A : Type} : SendServerAction W A → Prop
  | .handle _ _ => False
  | .send _ accepted => accepted = true
  | .dequeue _ _ failed => failed = false
  | .postSend _ => True

namespace SendServer

variable {W A C : Type} {message : ℕ → Message C} {s after : SendServer W A C}

/-- The clients whose lock the caller has yet to take. -/
def waits (message : ℕ → Message C) (s : SendServer W A C) (p : Caller W A) : List C :=
  ((s.calls p).filter fun i ↦ s.stage message i ≠ .produced).map fun i ↦ (message i).client

def free (s : SendServer W A C) : Set C :=
  { c | s.locked c = false }

/-- The caller gets through by itself. -/
def Enough (message : ℕ → Message C) (s : SendServer W A C) (p : Caller W A) : Prop :=
  Sufficient s.free (s.waits message p)

/-- A send of the client has failed with the lock taken. -/
def Lost (message : ℕ → Message C) (s : SendServer W A C) (c : C) : Prop :=
  ∃ i, (message i).client = c ∧ s.stage message i = .failed

/-- The caller does not get through: neither it nor a worker gets through by itself, or it needs a lock
that is lost. -/
def Stuck (message : ℕ → Message C) (s : SendServer W A C) (p : Caller W A) : Prop :=
  ¬ s.Enough message p ∧ (∀ w, ¬ s.Enough message (.worker w)) ∨
    ∃ c ∈ s.waits message p, s.Lost message c

theorem Lost.locked (hs : s.Tracked message) {c : C} (hlost : s.Lost message c) :
    s.locked c = true := by
  obtain ⟨i, rfl, hfailed⟩ := hlost
  apply ((hs.tracked (message i).client).held.holder i (message i).data.length _).1
  rw [Sender.amount, show ((s.client (message i).client).sender.call i).stage = .failed from hfailed]
  rfl

/-- Who has the lock of a client. -/
theorem exists_holder (hs : s.Tracked message) {c : C} (hlocked : s.locked c = true) :
    ∃ i, (message i).client = c ∧ (s.stage message i = .produced ∨ s.stage message i = .sent ∨
      s.stage message i = .shifted ∨ s.stage message i = .withdrawn ∨
      s.stage message i = .failed) := by
  obtain ⟨i, hi⟩ := (hs.tracked c).held.held hlocked
  have hstage : ((s.client c).sender.call i).stage ≠ .ready := by
    intro hready
    rw [Sender.amount, hready] at hi
    exact hi rfl
  have hclient := hs.own c i hstage
  refine ⟨i, hclient, ?_⟩
  rw [Sender.amount, ← hclient] at hi
  change (s.stage message i).amount _ ≠ none at hi
  cases hcall : s.stage message i with
  | produced | sent | shifted | withdrawn | failed => simp
  | ready | copied | captured | completed =>
    rw [hcall] at hi
    exact absurd rfl hi

variable [DecidableEq C] [DecidableEq W] [DecidableEq A]

/-! ## The locks as resources -/

omit [DecidableEq C] [DecidableEq W] [DecidableEq A] in
/-- Calls that are at `WSASend` before and after leave the needs as they are. -/
theorem waits_congr {p : Caller W A} (hcalls : after.calls p = s.calls p)
    (hstage : ∀ j ∈ s.calls p, after.stage message j = .produced ↔ s.stage message j = .produced) :
    after.waits message p = s.waits message p := by
  unfold waits
  rw [hcalls]
  congr 1
  apply List.filter_congr
  intro j hj
  simp only [ne_eq, hstage j hj]

omit [DecidableEq C] [DecidableEq W] [DecidableEq A] in
theorem waits_of_ready {p : Caller W A} (hready : ∀ j ∈ s.calls p, s.stage message j = .ready) :
    s.waits message p = (s.calls p).map fun j ↦ (message j).client := by
  have hall : ((s.calls p).filter fun j ↦ s.stage message j ≠ .produced) = s.calls p := by
    rw [List.filter_eq_self]
    intro j hj
    rw [hready j hj]
    decide
  unfold waits
  rw [hall]

omit [DecidableEq C] [DecidableEq W] [DecidableEq A] in
/-- What a caller needs for the calls behind its first. -/
theorem waits_first (hs : s.Sound message) {p : Caller W A} {i : ℕ} {rest : List ℕ}
    (hfirst : s.calls p = i :: rest) : s.waits message p =
      (if s.stage message i = .produced then [] else [(message i).client]) ++
        rest.map fun j ↦ (message j).client := by
  have hrest : (rest.filter fun j ↦ s.stage message j ≠ .produced) = rest := by
    rw [List.filter_eq_self]
    intro j hj
    rw [hs.later p i rest hfirst j hj]
    decide
  unfold waits
  rw [hfirst, List.filter_cons, hrest]
  by_cases hproduced : s.stage message i = .produced
  · simp [hproduced]
  · simp [hproduced]

omit [DecidableEq W] [DecidableEq A] in
/-- A step of a call on its client does not change the locks, unless it takes one or gives it back. -/
theorem free_of_effect {event : SendEvent ℕ} (heffect : s.Effect message after event)
    (hlock : ∀ locked, event.locks locked = locked) : after.free = s.free := by
  ext c
  change after.locked c = false ↔ s.locked c = false
  rw [heffect.lock, hlock, ite_self]

omit [DecidableEq W] [DecidableEq A] in
theorem produced_iff {event : SendEvent ℕ} (heffect : s.Effect message after event)
    (hsource : event.source ≠ .produced) (htarget : event.target ≠ .produced) (j : ℕ) :
    after.stage message j = .produced ↔ s.stage message j = .produced := by
  by_cases hj : j = event.index
  · rw [hj, heffect.self, heffect.source]
    exact iff_of_false htarget hsource
  · rw [heffect.other hj]

/-- A call takes the lock. -/
theorem waits_produce (hs : s.Sound message) (hafter : after.Sound message) {p : Caller W A} {i : ℕ}
    {rest : List ℕ} (hfirst : s.calls p = i :: rest)
    (heffect : s.Effect message after (.call (.produce i))) (hcalls : after.calls = s.calls) :
    ∃ needs, s.waits message p = (message i).client :: needs ∧
      after.waits message = Function.update (s.waits message) p needs ∧
      after.free = s.free \ {(message i).client} := by
  have hcaptured : s.stage message i = .captured := heffect.source
  have hproduced : after.stage message i = .produced := heffect.self
  refine ⟨rest.map fun j ↦ (message j).client, ?_, ?_, ?_⟩
  · rw [waits_first hs hfirst, hcaptured, if_neg (by decide)]
    rfl
  · funext q
    by_cases hq : q = p
    · rw [hq, Function.update_self, waits_first hafter (hcalls ▸ hfirst), if_pos hproduced]
      rfl
    · rw [Function.update_of_ne hq]
      refine waits_congr (by rw [hcalls]) fun j hj ↦ ?_
      have hji : j ≠ i := by
        rintro rfl
        exact hq (hs.eq_of_first hfirst hj)
      rw [heffect.other hji]
  · ext c
    change after.locked c = false ↔ s.locked c = false ∧ c ≠ (message i).client
    rw [heffect.lock]
    change (if c = (message i).client then true else s.locked c) = false ↔ _
    by_cases hc : c = (message i).client
    · simp [hc]
    · simp [hc]

/-- A call returns. -/
theorem waits_wsaSend (hs : s.Sound message) {p : Caller W A} {i : ℕ} {rest : List ℕ}
    {accepted : Bool} (hfirst : s.calls p = i :: rest)
    (heffect : s.Effect message after (.call (.wsaSend i accepted)))
    (hcalls : after.calls = Function.update s.calls p rest) :
    after.waits message = s.waits message := by
  have hproduced : s.stage message i = .produced := heffect.source
  have hother {j : ℕ} (hj : j ≠ i) : after.stage message j = s.stage message j :=
    heffect.other hj
  funext q
  by_cases hq : q = p
  · have hrest : after.calls p = rest := by rw [hcalls, Function.update_self]
    have hready : ∀ j ∈ after.calls p, after.stage message j = .ready := by
      intro j hj
      rw [hrest] at hj
      rw [hother (fun h ↦ hs.not_mem_rest hfirst (h ▸ hj)), hs.later p i rest hfirst j hj]
    rw [hq, waits_of_ready hready, hrest, waits_first hs hfirst, if_pos hproduced]
    rfl
  · refine waits_congr (by rw [hcalls, Function.update_of_ne hq]) fun j hj ↦ ?_
    have hji : j ≠ i := by
      rintro rfl
      exact hq (hs.eq_of_first hfirst hj)
    rw [hother hji]

omit [DecidableEq W] [DecidableEq A] in
theorem waits_of_effect {event : SendEvent ℕ} (heffect : s.Effect message after event)
    (hsource : event.source ≠ .produced) (htarget : event.target ≠ .produced)
    (hcalls : after.calls = s.calls) : after.waits message = s.waits message := by
  funext q
  refine waits_congr (by rw [hcalls]) fun j _ ↦ ?_
  by_cases hj : j = event.index
  · rw [hj, heffect.self, heffect.source]
    exact iff_of_false htarget hsource
  · rw [heffect.other hj]

/-- A step of `Send` takes a lock that the caller needs, or none. -/
theorem waits_send (hs : s.Sound message) (hafter : after.Sound message) {p : Caller W A}
    {accepted : Bool} (hstep : s.Step message after (.send p accepted)) :
    (after.waits message = s.waits message ∧ after.free = s.free) ∨
      ∃ c needs, s.waits message p = c :: needs ∧ c ∈ s.free ∧
        after.waits message = Function.update (s.waits message) p needs ∧
        after.free = s.free \ {c} := by
  cases hstep with
  | fault _ _ _ hstage hlock hnum hcalls hcompleting =>
    refine .inl ⟨funext fun q ↦ waits_congr (by rw [hcalls]) fun j _ ↦ by rw [hstage], ?_⟩
    unfold free
    rw [funext hlock]
  | @send _ _ i rest event hfirst hindex hbegun heffect hnum hcalls hcompleting =>
    cases event with
    | fail => simp [SendEvent.target, SendStage.Begun] at hbegun
    | call action =>
      cases action with
      | copy | capture =>
        exact .inl ⟨waits_of_effect heffect (by simp [SendEvent.source]) (by simp [SendEvent.target])
          hcalls, free_of_effect heffect fun _ ↦ rfl⟩
      | produce j =>
        obtain rfl : j = i := hindex
        obtain ⟨needs, hneeds, hwaits, hfree⟩ := waits_produce hs hafter hfirst heffect hcalls
        exact .inr ⟨_, needs, hneeds, heffect.unlocked j rfl, hwaits, hfree⟩
      | wsaSend j accepted => cases accepted <;> simp [SendEvent.target, SendStage.Begun] at hbegun
      | shift | withdraw | unlock => simp [SendEvent.target, SendStage.Begun] at hbegun
  | wsaSend hfirst heffect hnum hcalls hcompleting =>
    exact .inl ⟨waits_wsaSend hs hfirst heffect hcalls, free_of_effect heffect fun _ ↦ rfl⟩

omit [DecidableEq C] [DecidableEq W] [DecidableEq A] in
theorem waits_idle {p : Caller W A} (hcalls : s.calls p = []) : s.waits message p = [] := by
  unfold waits
  rw [hcalls]
  rfl

theorem waits_dequeue {w : W} {i : ℕ} {failed : Bool}
    (hstep : s.Step message after (.dequeue w i failed)) :
    after.waits message = s.waits message ∧ s.waits message (.worker w) = [] := by
  cases hstep with
  | dequeue hport heffect hnum hcalls hcompleting =>
    exact ⟨waits_of_effect heffect (by simp [SendEvent.source]) (by simp [SendEvent.target]) hcalls,
      waits_idle hport.1⟩
  | fail hport heffect hnum hcalls hcompleting =>
    exact ⟨waits_of_effect heffect (by simp [SendEvent.source]) (by simp [SendEvent.target]) hcalls,
      waits_idle hport.1⟩

theorem waits_postSend (hs : s.Sound message) {w : W}
    (hstep : s.Step message after (.postSend w)) :
    after.waits message = s.waits message ∧ s.waits message (.worker w) = [] := by
  cases hstep with
  | withdraw hworker heffect hnum hcalls hcompleting =>
    exact ⟨waits_of_effect heffect (by simp [SendEvent.source]) (by simp [SendEvent.target]) hcalls,
      waits_idle (hs.away w _ hworker)⟩
  | unlock hworker heffect hnum hcalls hcompleting =>
    exact ⟨waits_of_effect heffect (by simp [SendEvent.source]) (by simp [SendEvent.target]) hcalls,
      waits_idle (hs.away w _ hworker)⟩

/-- What a step does to the locks and to the needs of the callers. -/
theorem move_of_step {action : SendServerAction W A} (hs : s.Sound message)
    (hafter : after.Sound message) (hstep : s.Step message after action) :
    Move (fun p ↦ ∃ w, p = Caller.worker w) (s.waits message) s.free (after.waits message)
      after.free := by
  cases action with
  | handle p sends =>
    cases hstep with
    | handle hidle hnum hcalls hclient hcompleting =>
      have hnone : s.calls p = [] := by
        cases p with
        | worker w => exact hidle.1
        | application a => exact hidle
      have hupdate : after.waits message =
          Function.update (s.waits message) p (after.waits message p) := by
        funext q
        by_cases hq : q = p
        · rw [hq, Function.update_self]
        · rw [Function.update_of_ne hq]
          refine waits_congr (by rw [hcalls, Function.update_of_ne hq]) fun j _ ↦ ?_
          unfold stage
          rw [hclient]
      have hfree : after.free = s.free := by
        unfold free locked
        rw [hclient]
      rw [hupdate, hfree]
      exact .turn p _ (waits_idle hnone)
  | send p accepted =>
    rcases waits_send hs hafter hstep with ⟨hwaits, hfree⟩ | ⟨c, needs, hneeds, hc, hwaits, hfree⟩
    · rw [hwaits, hfree]
      exact .keep
    · rw [hwaits, hfree]
      exact .take p c needs hneeds hc
  | dequeue w i failed =>
    obtain ⟨hwaits, hnone⟩ := waits_dequeue hstep
    rw [hwaits]
    exact .serve (.worker w) after.free ⟨w, rfl⟩ hnone
  | postSend w =>
    obtain ⟨hwaits, hnone⟩ := waits_postSend hs hstep
    rw [hwaits]
    exact .serve (.worker w) after.free ⟨w, rfl⟩ hnone

/-! ## Callers that never return -/

omit [DecidableEq W] [DecidableEq A] in
theorem failed_of_effect {event : SendEvent ℕ} (heffect : s.Effect message after event) {j : ℕ}
    (hfailed : s.stage message j = .failed) : after.stage message j = .failed := by
  by_cases hj : j = event.index
  · rw [hj, heffect.source] at hfailed
    cases event with
    | fail => cases hfailed
    | call action => cases action <;> cases hfailed
  · rw [heffect.other hj, hfailed]

/-- What is lost stays lost. -/
theorem Lost.of_step {action : SendServerAction W A} {c : C} (hlost : s.Lost message c)
    (hstep : s.Step message after action) : after.Lost message c := by
  obtain ⟨i, hi, hfailed⟩ := hlost
  refine ⟨i, hi, ?_⟩
  cases hstep with
  | handle _ _ _ hclient =>
    unfold stage
    rw [hclient]
    exact hfailed
  | fault _ _ _ hstage => rw [hstage, hfailed]
  | send _ _ _ heffect | wsaSend _ heffect | dequeue _ heffect | fail _ heffect
  | withdraw _ heffect | unlock _ heffect => exact failed_of_effect heffect hfailed

theorem Stuck.of_step {action : SendServerAction W A} {p : Caller W A}
    (hstuck : s.Stuck message p) (hs : s.Sound message) (hafter : after.Sound message)
    (hstep : s.Step message after action) : after.Stuck message p := by
  have hmove := move_of_step hs hafter hstep
  rcases hstuck with ⟨hself, hworkers⟩ | ⟨c, hc, hlost⟩
  · have hserver : ∀ q, (∃ w, q = Caller.worker w) → ¬ Sufficient s.free (s.waits message q) := by
      rintro q ⟨w, rfl⟩
      exact hworkers w
    exact .inl ⟨hmove.insufficient hserver hself, fun w ↦ hmove.insufficient hserver (hworkers w)⟩
  · have hlocked := hlost.locked hs.tracked
    refine .inr ⟨c, hmove.mem_needs hc ?_, hlost.of_step hstep⟩
    intro hfree
    rw [show s.locked c = false from hfree] at hlocked
    cases hlocked

omit [DecidableEq C] [DecidableEq W] [DecidableEq A] in
theorem Stuck.calls_ne_nil {p : Caller W A} (hstuck : s.Stuck message p) : s.calls p ≠ [] := by
  intro hnone
  have hneeds : s.waits message p = [] := by
    unfold waits
    rw [hnone]
    rfl
  rcases hstuck with ⟨hself, -⟩ | ⟨c, hc, -⟩
  · apply hself
    unfold Enough
    rw [hneeds]
    exact Sufficient.nil s.free
  · rw [hneeds] at hc
    exact List.not_mem_nil hc

/-- Whatever is done, a stuck caller does not come to the end of its calls. -/
theorem Stuck.not_canReach {p : Caller W A} (hstuck : s.Stuck message p) (hs : s.Sound message) :
    ¬ (system message).CanReach (fun after ↦ after.calls p = []) s := by
  rintro ⟨last, hleads, hdone⟩
  have hinvariant := hleads.invariant (fun state ↦ state.Sound message ∧ state.Stuck message p)
    (fun state action next hstate hstep ↦ by
      obtain ⟨htracked, hcases⟩ := step_cases hstate.1.tracked hstep
      have hnext := hstate.1.of_step htracked hcases
      exact ⟨hnext, hstate.2.of_step hstate.1 hnext hcases⟩) ⟨hs, hstuck⟩
  exact hinvariant.2.calls_ne_nil hdone

/-! ## Callers that can return -/

/-- The steps that the calls constructed so far still take. -/
def work (message : ℕ → Message C) (s : SendServer W A C) : ℕ :=
  ∑ i ∈ Finset.range s.numCalls, (s.stage message i).toGo

omit [DecidableEq W] [DecidableEq A] in
theorem work_lt {event : SendEvent ℕ} (heffect : s.Effect message after event) (hknown : event.index < s.numCalls)
    (hnum : after.numCalls = s.numCalls) : after.work message < s.work message := by
  have hless : event.target.toGo < event.source.toGo := by
    cases event with
    | fail => simp [SendEvent.target, SendEvent.source, SendStage.toGo]
    | call action =>
      cases action with
      | wsaSend i accepted =>
        cases accepted <;> simp [SendEvent.target, SendEvent.source, SendStage.toGo]
      | copy | capture | produce | shift | withdraw | unlock =>
        simp [SendEvent.target, SendEvent.source, SendStage.toGo]
  unfold work
  rw [hnum]
  refine Finset.sum_lt_sum (fun j _ ↦ ?_) ⟨event.index, Finset.mem_range.mpr hknown, ?_⟩
  · by_cases hj : j = event.index
    · rw [hj, heffect.self, heffect.source]
      exact hless.le
    · rw [heffect.other hj]
  · rw [heffect.self, heffect.source]
    exact hless

/-- The server has gone on, and nothing has been lost. -/
structure Onward (message : ℕ → Message C) (s after : SendServer W A C) : Prop where
  leads : (system message).Leads s after
  sound : after.Sound message
  defined : after.Defined
  work : after.work message < s.work message
  lost : ∀ c, after.Lost message c → s.Lost message c
  waits : ∀ p, ∀ c ∈ after.waits message p, c ∈ s.waits message p

omit [DecidableEq W] [DecidableEq A] in
/-- A call that does not fail loses nothing. -/
theorem lost_of_effect {event : SendEvent ℕ} (heffect : s.Effect message after event)
    (htarget : event.target ≠ .failed) {c : C} (hlost : after.Lost message c) :
    s.Lost message c := by
  obtain ⟨i, hi, hfailed⟩ := hlost
  refine ⟨i, hi, ?_⟩
  by_cases hindex : i = event.index
  · rw [hindex, heffect.self] at hfailed
    exact absurd hfailed htarget
  · rwa [heffect.other hindex] at hfailed

/-- The call that a lucky step moves. -/
theorem effect_of_lucky {action : SendServerAction W A} (hs : s.Sound message)
    (hstep : s.Step message after action) (hdefined : after.Defined) (hlucky : action.Lucky) :
    ∃ event, s.Effect message after event ∧ event.index < s.numCalls ∧
      event.target ≠ .failed ∧ after.numCalls = s.numCalls := by
  cases hstep with
  | handle => exact hlucky.elim
  | fault _ _ hfault => exact absurd hdefined hfault
  | @send p _ i rest event hfirst hindex hbegun heffect hnum =>
    refine ⟨event, heffect, ?_, ?_, hnum⟩
    · rw [hindex]
      exact hs.known p i (by rw [hfirst]; exact List.mem_cons_self)
    · rcases hbegun with h | h | h
      all_goals
        rw [h]
        decide
  | @wsaSend p accepted i rest hfirst heffect hnum =>
    obtain rfl : accepted = true := hlucky
    exact ⟨_, heffect, hs.known p i (by rw [hfirst]; exact List.mem_cons_self),
      by simp [SendEvent.target], hnum⟩
  | dequeue hport heffect hnum =>
    refine ⟨_, heffect, hs.lt_numCalls ?_, by simp [SendEvent.target], hnum⟩
    rw [heffect.source]
    simp [SendEvent.source]
  | fail => cases hlucky
  | withdraw hworker heffect hnum | unlock hworker heffect hnum =>
    refine ⟨_, heffect, hs.lt_numCalls ?_, by simp [SendEvent.target], hnum⟩
    rw [heffect.source]
    simp [SendEvent.source]

theorem onward_of_step {action : SendServerAction W A} (hs : s.Sound message)
    (hstep : s.step message action = some after) (hdefined : after.Defined)
    (hlucky : action.Lucky) : s.Onward message after := by
  obtain ⟨htracked, hcases⟩ := step_cases hs.tracked hstep
  have hafter := hs.of_step htracked hcases
  obtain ⟨event, heffect, hknown, htarget, hnum⟩ := effect_of_lucky hs hcases hdefined hlucky
  have hwaits : ∀ p, ∀ c ∈ after.waits message p, c ∈ s.waits message p := by
    intro p c hc
    cases action with
    | handle => exact hlucky.elim
    | send q accepted =>
      rcases waits_send hs hafter hcases with ⟨hsame, -⟩ | ⟨d, needs, hneeds, -, hsame, -⟩
      · rwa [hsame] at hc
      · rw [hsame] at hc
        by_cases hpq : p = q
        · rw [hpq, Function.update_self] at hc
          rw [hpq, hneeds]
          exact List.mem_cons_of_mem d hc
        · rwa [Function.update_of_ne hpq] at hc
    | dequeue w i failed => rwa [(waits_dequeue hcases).1] at hc
    | postSend w => rwa [(waits_postSend hs hcases).1] at hc
  exact {
    leads := .of_step hstep
    sound := hafter
    defined := hdefined
    work := work_lt heffect hknown hnum
    lost := fun c ↦ lost_of_effect heffect htarget
    waits := hwaits }

/-! ### What can be done -/

omit [DecidableEq W] [DecidableEq A] in
theorem exists_perform (event : SendEvent ℕ) (hs : s.Tracked message) (hdefined : s.Defined)
    (hsource : s.stage message event.index = event.source)
    (hfree : event.source = .ready ∨ event.source = .captured →
      (message event.index).client ∈ s.free) :
    ∃ after, s.perform message event = some after ∧ after.Defined := by
  obtain ⟨side, hside, hfaulted⟩ := SendSide.exists_step (hs.tracked _) (hdefined _) hsource hfree
    (message event.index).pos (message event.index).short
  refine ⟨_, perform_eq_some.mpr ⟨side, hside, rfl⟩, fun c ↦ ?_⟩
  by_cases hc : c = (message event.index).client
  · rw [hc, client_withClient_self]
    exact hfaulted
  · rw [client_withClient_of_ne hc]
    exact hdefined c

/-- The first call of a caller can go on if it has its lock or finds it free. -/
theorem exists_send (hs : s.Sound message) (hdefined : s.Defined) {p : Caller W A} {i : ℕ}
    {rest : List ℕ} (hfirst : s.calls p = i :: rest)
    (hfree : s.stage message i = .produced ∨ (message i).client ∈ s.free) :
    ∃ after, s.step message (.send p true) = some after ∧ after.Defined := by
  have hstep : s.step message (.send p true) = s.send message p true := rfl
  rcases hs.first p i rest hfirst with hstage | hstage | hstage | hstage
  · obtain ⟨after, hafter, hlater⟩ := exists_perform (.call (.copy i)) hs.tracked hdefined
      hstage fun _ ↦ hfree.resolve_left (by rw [hstage]; decide)
    exact ⟨after, by simp only [hstep, send, hfirst, hstage, hafter], hlater⟩
  · obtain ⟨after, hafter, hlater⟩ := exists_perform (.call (.capture i)) hs.tracked
      hdefined hstage fun _ ↦ hfree.resolve_left (by rw [hstage]; decide)
    exact ⟨after, by simp only [hstep, send, hfirst, hstage, hafter], hlater⟩
  · obtain ⟨after, hafter, hlater⟩ := exists_perform (.call (.produce i)) hs.tracked
      hdefined hstage fun _ ↦ hfree.resolve_left (by rw [hstage]; decide)
    exact ⟨after, by simp only [hstep, send, hfirst, hstage, hafter], hlater⟩
  · obtain ⟨after, hafter, hlater⟩ := exists_perform (.call (.wsaSend i true)) hs.tracked
      hdefined hstage fun h ↦ by simp [SendEvent.source] at h
    refine ⟨{ after with calls := Function.update s.calls p rest }, ?_, hlater⟩
    simp only [hstep, send, hfirst, hstage, hafter, Option.map_some]

theorem exists_dequeue (hs : s.Sound message) (hdefined : s.Defined) {w : W} {i : ℕ}
    (hport : s.AtPort w) (hsent : s.stage message i = .sent) :
    ∃ after, s.step message (.dequeue w i false) = some after ∧ after.Defined := by
  obtain ⟨after, hafter, hlater⟩ := exists_perform (.call (.shift i)) hs.tracked hdefined
    hsent fun h ↦ by simp [SendEvent.source] at h
  refine ⟨{ after with completing := Function.update s.completing w (some i) },
    (if_pos hport).trans ?_, hlater⟩
  simp only [Bool.false_eq_true, if_false, hafter, Option.map_some]

theorem exists_postSend (hs : s.Sound message) (hdefined : s.Defined) {w : W} {i : ℕ}
    (hworker : s.completing w = some i) :
    ∃ after, s.step message (.postSend w) = some after ∧ after.Defined := by
  have hstep : s.step message (.postSend w) = s.postSend message w := rfl
  rcases hs.worked w i hworker with hstage | hstage
  · obtain ⟨after, hafter, hlater⟩ := exists_perform (.call (.withdraw i)) hs.tracked
      hdefined hstage fun h ↦ by simp [SendEvent.source] at h
    exact ⟨after, by simp only [hstep, postSend, hworker, hstage, hafter], hlater⟩
  · obtain ⟨after, hafter, hlater⟩ := exists_perform (.call (.unlock i)) hs.tracked
      hdefined hstage fun h ↦ by simp [SendEvent.source] at h
    refine ⟨{ after with completing := Function.update s.completing w none }, ?_, hlater⟩
    simp only [hstep, postSend, hworker, hstage, hafter, Option.map_some]

/-! ### Who gets through -/

/-- A caller that gets through by itself still does after a step of its own. -/
theorem Enough.of_send {p : Caller W A} {accepted : Bool} (henough : s.Enough message p)
    (hs : s.Sound message) (hafter : after.Sound message)
    (hstep : s.Step message after (.send p accepted)) : after.Enough message p := by
  unfold Enough at henough ⊢
  rcases waits_send hs hafter hstep with ⟨hwaits, hfree⟩ | ⟨c, needs, hneeds, -, hwaits, hfree⟩
  · rwa [hwaits, hfree]
  · rw [hneeds] at henough
    rw [hwaits, hfree, Function.update_self]
    exact (Sufficient.cons_iff.mp henough).2

/-- A worker without calls gets through, and still does afterwards. -/
theorem Onward.enough (honward : s.Onward message after) {w : W}
    (hcalls : s.calls (.worker w) = []) : after.Enough message (.worker w) := by
  have hnone : after.waits message (.worker w) = [] := by
    rw [List.eq_nil_iff_forall_not_mem]
    intro c hc
    have hbefore := honward.waits (.worker w) c hc
    rw [waits_idle hcalls] at hbefore
    exact List.not_mem_nil hbefore
  unfold Enough
  rw [hnone]
  exact Sufficient.nil _

/-- A caller that gets through by itself goes on. -/
theorem onward_of_enough (hs : s.Sound message) (hdefined : s.Defined) {p : Caller W A}
    (henough : s.Enough message p) (hcalls : s.calls p ≠ []) :
    ∃ after, s.Onward message after ∧ after.Enough message p := by
  obtain ⟨i, rest, hfirst⟩ := List.exists_cons_of_ne_nil hcalls
  have hfree : s.stage message i = .produced ∨ (message i).client ∈ s.free := by
    by_cases hproduced : s.stage message i = .produced
    · exact .inl hproduced
    · refine .inr (henough.subset _ ?_)
      rw [waits_first hs hfirst, if_neg hproduced]
      exact List.mem_cons_self
  obtain ⟨after, hstep, hlater⟩ := exists_send hs hdefined hfirst hfree
  have honward := onward_of_step hs hstep hlater rfl
  obtain ⟨-, hcases⟩ := step_cases hs.tracked hstep
  exact ⟨after, honward, henough.of_send hs honward.sound hcases⟩

/-- While a worker gets through by itself, a caller none of whose locks is lost is brought on. -/
theorem onward_of_worker (hs : s.Sound message) (hdefined : s.Defined) {w : W}
    (henough : s.Enough message (.worker w)) {p : Caller W A}
    (hlost : ∀ c ∈ s.waits message p, ¬ s.Lost message c) (hcalls : s.calls p ≠ []) :
    ∃ after, s.Onward message after ∧ after.Enough message (.worker w) := by
  by_cases hworker : s.calls (.worker w) = []
  case neg => exact onward_of_enough hs hdefined henough hworker
  -- A step with which the server goes on does not make the worker wait.
  have hon {action : SendServerAction W A} (hstep : ∃ after, s.step message action = some after ∧
      after.Defined) (hlucky : action.Lucky) :
      ∃ after, s.Onward message after ∧ after.Enough message (.worker w) := by
    obtain ⟨after, hafter, hlater⟩ := hstep
    have honward := onward_of_step hs hafter hlater hlucky
    exact ⟨after, honward, honward.enough hworker⟩
  cases hcompleting : s.completing w with
  | some i => exact hon (exists_postSend hs hdefined hcompleting) trivial
  | none =>
    obtain ⟨i, rest, hfirst⟩ := List.exists_cons_of_ne_nil hcalls
    by_cases hfree : s.stage message i = .produced ∨ (message i).client ∈ s.free
    · exact hon (exists_send hs hdefined hfirst hfree) rfl
    · rw [not_or] at hfree
      have hneeded : (message i).client ∈ s.waits message p := by
        rw [waits_first hs hfirst, if_neg hfree.1]
        exact List.mem_cons_self
      have hlocked : s.locked (message i).client = true := by
        cases hlock : s.locked (message i).client with
        | true => rfl
        | false => exact absurd hlock hfree.2
      -- The call that has the lock goes on.
      obtain ⟨j, hj, hstage⟩ := exists_holder hs.tracked hlocked
      have hpostSend (hshifted : (s.stage message j).Completing) :
          ∃ after, s.Onward message after ∧ after.Enough message (.worker w) := by
        obtain ⟨v, hv⟩ := hs.completing j hshifted
        exact hon (exists_postSend hs hdefined hv) trivial
      rcases hstage with hstage | hstage | hstage | hstage | hstage
      · obtain ⟨q, others, hq⟩ := hs.begun j (.inr (.inr hstage))
        exact hon (exists_send hs hdefined hq (.inl hstage)) rfl
      · exact hon (exists_dequeue hs hdefined ⟨hworker, hcompleting⟩ hstage) rfl
      · exact hpostSend (.inl hstage)
      · exact hpostSend (.inr hstage)
      · exact absurd ⟨j, hj, hstage⟩ (hlost _ hneeded)

theorem canReturn_of_enough (hs : s.Sound message) (hdefined : s.Defined) {p : Caller W A}
    (henough : s.Enough message p) :
    (system message).CanReach (fun after ↦ after.calls p = []) s := by
  refine .of_measure (fun state ↦ state.Sound message ∧ state.Defined ∧ state.Enough message p)
    (work message) ?_ ⟨hs, hdefined, henough⟩
  rintro state ⟨hstate, hfine, hthrough⟩ hcalls
  obtain ⟨after, honward, hafter⟩ := onward_of_enough hstate hfine hthrough hcalls
  exact ⟨after, honward.leads, .inr ⟨⟨honward.sound, honward.defined, hafter⟩, honward.work⟩⟩

theorem canReturn_of_worker (hs : s.Sound message) (hdefined : s.Defined) {w : W}
    (henough : s.Enough message (.worker w)) {p : Caller W A}
    (hlost : ∀ c ∈ s.waits message p, ¬ s.Lost message c) :
    (system message).CanReach (fun after ↦ after.calls p = []) s := by
  refine .of_measure (fun state ↦ state.Sound message ∧ state.Defined ∧
    state.Enough message (.worker w) ∧ ∀ c ∈ state.waits message p, ¬ state.Lost message c)
    (work message) ?_ ⟨hs, hdefined, henough, hlost⟩
  rintro state ⟨hstate, hfine, hthrough, hnone⟩ hcalls
  obtain ⟨after, honward, hafter⟩ := onward_of_worker hstate hfine hthrough hnone hcalls
  refine ⟨after, honward.leads, .inr ⟨⟨honward.sound, honward.defined, hafter, ?_⟩, honward.work⟩⟩
  intro c hc hafterLost
  exact hnone c (honward.waits p c hc) (honward.lost c hafterLost)

/-- **Which calls of `Send` can return.** In a reachable state in which nothing undefined has happened, the
calls before a caller can still return, if and only if the caller gets through by itself, or some worker
does and none of the locks that the caller needs is lost. -/
theorem canReturn_iff (hreach : (system message).Reachable s) (hdefined : s.Defined)
    (p : Caller W A) : (system message).CanReach (fun after ↦ after.calls p = []) s ↔
      s.Enough message p ∨ (∃ w, s.Enough message (.worker w)) ∧
        ∀ c ∈ s.waits message p, ¬ s.Lost message c := by
  have hs := sound_of_reachable hreach
  constructor
  · intro hcan
    by_contra hnot
    rw [not_or, not_and_or, not_exists, not_forall] at hnot
    refine Stuck.not_canReach ?_ hs hcan
    rcases hnot.2 with hworkers | ⟨c, hc⟩
    · exact .inl ⟨hnot.1, hworkers⟩
    · obtain ⟨hneeded, hfound⟩ := Classical.not_imp.mp hc
      exact .inr ⟨c, hneeded, not_not.mp hfound⟩
  · rintro (henough | ⟨⟨w, henough⟩, hlost⟩)
    · exact canReturn_of_enough hs hdefined henough
    · exact canReturn_of_worker hs hdefined henough hlost

/-- One byte for the only client. -/
def oneByte (_ : ℕ) : Message Unit :=
  ⟨(), [65], by decide, by decide⟩

/-- A handler that sends twice: the first call returns, and the second comes to `Produce`. -/
def echo (W : Type) (w : W) : List (SendServerAction W Empty) :=
  .handle (.worker w) 2 :: List.replicate 6 (.send (.worker w) true)

/-- The theorem applied to a handler that sends twice to one client: with one worker it never returns, with
two it can. -/
theorem canReturn_iff_echo :
    (∃ s : SendServer (Fin 1) Empty Unit, (system oneByte).Reachable s ∧
      ¬ (system oneByte).CanReach (fun after ↦ after.calls (.worker 0) = []) s) ∧
    ∃ s : SendServer (Fin 2) Empty Unit, (system oneByte).Reachable s ∧
      s.calls (.worker 0) ≠ [] ∧
      (system oneByte).CanReach (fun after ↦ after.calls (.worker 0) = []) s := by
  constructor
  · have hreplay : (System.replay (step oneByte) (initial (Fin 1) Empty Unit) (echo (Fin 1) 0)).map
        (fun s ↦ decide (s.waits oneByte (.worker 0) = [()] ∧ s.locked () = true ∧
          (s.client ()).faulted = false)) = some true := by decide +kernel
    obtain ⟨history, s, hrun, htest⟩ := System.exists_run_of_replay
      (fun s ↦ s = initial (Fin 1) Empty Unit) rfl hreplay
    obtain ⟨hwaits, hlocked, hdefined⟩ := of_decide_eq_true htest
    refine ⟨s, ⟨history, hrun⟩, ?_⟩
    rw [canReturn_iff ⟨history, hrun⟩ (fun _ ↦ hdefined) (.worker 0)]
    have hnot : ¬ s.Enough oneByte (.worker 0) := by
      intro henough
      have hfree : s.locked () = false := henough.subset () (by rw [hwaits]; exact List.mem_cons_self)
      rw [hlocked] at hfree
      cases hfree
    rintro (henough | ⟨⟨w, henough⟩, -⟩)
    · exact hnot henough
    · rw [Subsingleton.elim w 0] at henough
      exact hnot henough
  · have hreplay : (System.replay (step oneByte) (initial (Fin 2) Empty Unit) (echo (Fin 2) 0)).map
        (fun s ↦ decide (s.waits oneByte (.worker 1) = [] ∧ s.calls (.worker 0) = [1] ∧
          s.numCalls = 2 ∧ s.stage oneByte 0 = .sent ∧ s.stage oneByte 1 = .captured ∧
          (s.client ()).faulted = false)) = some true := by decide +kernel
    obtain ⟨history, s, hrun, htest⟩ := System.exists_run_of_replay
      (fun s ↦ s = initial (Fin 2) Empty Unit) rfl hreplay
    obtain ⟨hwaits, hcalls, hnum, hzero, hone, hdefined⟩ := of_decide_eq_true htest
    refine ⟨s, ⟨history, hrun⟩, by rw [hcalls]; simp, ?_⟩
    rw [canReturn_iff ⟨history, hrun⟩ (fun _ ↦ hdefined) (.worker 0)]
    refine .inr ⟨⟨1, ?_⟩, ?_⟩
    · unfold Enough
      rw [hwaits]
      exact Sufficient.nil _
    · rintro c - ⟨i, -, hfailed⟩
      have hfresh := (sound_of_reachable ⟨history, hrun⟩).fresh i
      rw [hnum] at hfresh
      match i with
      | 0 =>
        rw [hzero] at hfailed
        cases hfailed
      | 1 =>
        rw [hone] at hfailed
        cases hfailed
      | i + 2 =>
        rw [hfresh (by omega)] at hfailed
        cases hfailed

end SendServer

end ServerCore.Server
