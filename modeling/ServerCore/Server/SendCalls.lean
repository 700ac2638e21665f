import ServerCore.Foundation.Hands
import ServerCore.Server.SendServer

/-!
# Where the calls of `Send` are

A call is in the hands of its caller until `WSASend`, then of the network, and then of the worker that has
dequeued its completion. In every reachable state each call is where its stage says, and nowhere else.
-/

namespace ServerCore.Server

open Foundation

namespace SendServer

variable {W A C : Type} {message : ℕ → Message C} {s after : SendServer W A C}

/-- Calls are taken up in their order, each by one caller, and each that is under way is in the hands of
a caller, of the network or of a worker. -/
structure Sound (message : ℕ → Message C) (s : SendServer W A C) : Prop where
  tracked : s.Tracked message
  fresh : ∀ i, s.numCalls ≤ i → s.stage message i = .ready
  known : ∀ p, ∀ i ∈ s.calls p, i < s.numCalls
  nodup : ∀ p, (s.calls p).Nodup
  sole : ∀ p q i, i ∈ s.calls p → i ∈ s.calls q → p = q
  later : ∀ p i rest, s.calls p = i :: rest → ∀ j ∈ rest, s.stage message j = .ready
  first : ∀ p i rest, s.calls p = i :: rest →
    s.stage message i = .ready ∨ (s.stage message i).Begun
  begun : ∀ i, (s.stage message i).Begun → ∃ p rest, s.calls p = i :: rest
  away : ∀ w i, s.completing w = some i → s.calls (.worker w) = []
  worked : ∀ w i, s.completing w = some i → (s.stage message i).Completing
  alone : Alone s.completing
  completing : ∀ i, (s.stage message i).Completing → InHand s.completing i

theorem sound_initial : (initial W A C).Sound message where
  tracked := ⟨fun _ ↦ Sender.tracked_initial _, fun _ _ h ↦ absurd rfl h⟩
  fresh _ _ := rfl
  known _ _ h := absurd h List.not_mem_nil
  nodup _ := List.nodup_nil
  sole _ _ _ h := absurd h List.not_mem_nil
  later _ _ _ h := by cases h
  first _ _ _ h := by cases h
  begun _ h := by simp [SendStage.Begun, stage, initial, SendSide.initial, Sender.initial] at h
  away _ _ h := by cases h
  worked _ _ h := by cases h
  alone _ _ _ h := by cases h
  completing _ h := by
    simp [SendStage.Completing, stage, initial, SendSide.initial, Sender.initial] at h

namespace Sound

variable {p q : Caller W A} {i : ℕ} {rest : List ℕ}

/-- The first call of a caller is not among the others. -/
theorem not_mem_rest (hs : s.Sound message) (hfirst : s.calls p = i :: rest) : i ∉ rest :=
  (List.nodup_cons.mp (hfirst ▸ hs.nodup p)).1

/-- A call that has begun is the first of its caller. -/
theorem eq_of_first (hs : s.Sound message) (hfirst : s.calls p = i :: rest)
    (hmem : i ∈ s.calls q) : q = p :=
  hs.sole q p i hmem (by rw [hfirst]; exact List.mem_cons_self)

theorem lt_numCalls (hs : s.Sound message) (hi : s.stage message i ≠ .ready) : i < s.numCalls := by
  by_contra hle
  exact hi (hs.fresh i (Nat.le_of_not_lt hle))

end Sound

variable [DecidableEq C] [DecidableEq W] [DecidableEq A]

namespace Sound

variable {event : SendEvent ℕ}

omit [DecidableEq W] [DecidableEq A] in
/-- A call under way goes on where it is. -/
theorem of_effect (hs : s.Sound message) (htracked : after.Tracked message)
    (heffect : s.Effect message after event) (hknown : event.index < s.numCalls)
    (hlater : ∀ p i rest, s.calls p = i :: rest → event.index ∉ rest)
    (hfirst : ∀ p rest, s.calls p = event.index :: rest → event.target.Begun)
    (hbegun : event.target.Begun → ∃ p rest, s.calls p = event.index :: rest)
    (hworked : ∀ w, s.completing w = some event.index → event.target.Completing)
    (hcompleting : event.target.Completing → InHand s.completing event.index)
    (hnum : after.numCalls = s.numCalls) (hcalls : after.calls = s.calls)
    (hsame : after.completing = s.completing) : after.Sound message where
  tracked := htracked
  fresh j hj := by
    rw [hnum] at hj
    rw [heffect.other (by omega), hs.fresh j hj]
  known p j hj := by
    rw [hnum]
    exact hs.known p j (hcalls ▸ hj)
  nodup p := hcalls ▸ hs.nodup p
  sole p q j hp hq := hs.sole p q j (hcalls ▸ hp) (hcalls ▸ hq)
  later p j rest hp k hk := by
    rw [hcalls] at hp
    rw [heffect.other, hs.later p j rest hp k hk]
    rintro rfl
    exact hlater p j rest hp hk
  first p j rest hp := by
    rw [hcalls] at hp
    by_cases hj : j = event.index
    · rw [hj, heffect.self]
      exact .inr (hfirst p rest (hj ▸ hp))
    · rw [heffect.other hj]
      exact hs.first p j rest hp
  begun j hj := by
    rw [hcalls]
    by_cases heq : j = event.index
    · rw [heq, heffect.self] at hj
      rw [heq]
      exact hbegun hj
    · rw [heffect.other heq] at hj
      exact hs.begun j hj
  away w j hj := by
    rw [hcalls]
    exact hs.away w j (hsame ▸ hj)
  worked w j hj := by
    rw [hsame] at hj
    by_cases heq : j = event.index
    · rw [heq, heffect.self]
      exact hworked w (heq ▸ hj)
    · rw [heffect.other heq]
      exact hs.worked w j hj
  alone := hsame ▸ hs.alone
  completing j hj := by
    rw [hsame]
    by_cases heq : j = event.index
    · rw [heq, heffect.self] at hj
      rw [heq]
      exact hcompleting hj
    · rw [heffect.other heq] at hj
      exact hs.completing j hj

omit [DecidableEq C] in
/-- A caller begins. -/
theorem of_handle (hs : s.Sound message) (htracked : after.Tracked message) {p : Caller W A}
    {sends : ℕ} (hidle : s.Idle p) (hnum : after.numCalls = s.numCalls + sends)
    (hcalls : ∀ q, after.calls q = if q = p then List.range' s.numCalls sends else s.calls q)
    (hclient : after.client = s.client) (hsame : after.completing = s.completing) :
    after.Sound message := by
  have hstage (j : ℕ) : after.stage message j = s.stage message j := by
    unfold stage
    rw [hclient]
  have hempty : s.calls p = [] := by
    cases p with
    | worker w => exact hidle.1
    | application a => exact hidle
  have hold {q : Caller W A} {j : ℕ} (hj : j ∈ after.calls q) :
      j ∈ s.calls q ∨ q = p ∧ s.numCalls ≤ j ∧ j < s.numCalls + sends := by
    rw [hcalls] at hj
    by_cases hq : q = p
    · rw [if_pos hq, List.mem_range'_1] at hj
      exact .inr ⟨hq, hj⟩
    · rw [if_neg hq] at hj
      exact .inl hj
  have hnone {j : ℕ} (hj : j ∈ s.calls p) : False := by
    rw [hempty] at hj
    exact List.not_mem_nil hj
  exact {
    tracked := htracked
    fresh := fun j hj ↦ by rw [hstage, hs.fresh j (by omega)]
    known := by
      intro q j hj
      rcases hold hj with hj | ⟨-, -, hj⟩
      · have hlt := hs.known q j hj
        omega
      · omega
    nodup := by
      intro q
      rw [hcalls]
      split
      · exact List.nodup_range'
      · exact hs.nodup q
    sole := by
      intro q r j hq hr
      rcases hold hq with hq | ⟨rfl, hle, -⟩
      · rcases hold hr with hr | ⟨rfl, hle, -⟩
        · exact hs.sole q r j hq hr
        · exact absurd (hs.known q j hq) (by omega)
      · rcases hold hr with hr | ⟨rfl, -, -⟩
        · exact absurd (hs.known r j hr) (by omega)
        · rfl
    later := by
      intro q j rest hq k hk
      rw [hstage]
      have hmem : k ∈ after.calls q := by
        rw [hq]
        exact List.mem_cons_of_mem j hk
      rcases hold hmem with hmem | ⟨-, hle, -⟩
      · have hqp : q ≠ p := by
          rintro rfl
          exact hnone hmem
        rw [hcalls, if_neg hqp] at hq
        exact hs.later q j rest hq k hk
      · exact hs.fresh k hle
    first := by
      intro q j rest hq
      rw [hstage]
      have hmem : j ∈ after.calls q := by
        rw [hq]
        exact List.mem_cons_self
      rcases hold hmem with hmem | ⟨-, hle, -⟩
      · have hqp : q ≠ p := by
          rintro rfl
          exact hnone hmem
        rw [hcalls, if_neg hqp] at hq
        exact hs.first q j rest hq
      · exact .inl (hs.fresh j hle)
    begun := by
      intro j hj
      rw [hstage] at hj
      obtain ⟨q, rest, hq⟩ := hs.begun j hj
      have hqp : q ≠ p := by
        rintro rfl
        rw [hempty] at hq
        cases hq
      exact ⟨q, rest, by rw [hcalls, if_neg hqp, hq]⟩
    away := by
      intro w j hj
      rw [hsame] at hj
      rw [hcalls, if_neg, hs.away w j hj]
      rintro rfl
      rw [hidle.2] at hj
      cases hj
    worked := by
      intro w j hj
      rw [hstage]
      exact hs.worked w j (hsame ▸ hj)
    alone := hsame ▸ hs.alone
    completing := by
      intro j hj
      rw [hstage] at hj
      rw [hsame]
      exact hs.completing j hj }

/-- A call returns. -/
theorem of_wsaSend (hs : s.Sound message) (htracked : after.Tracked message) {p : Caller W A}
    {i : ℕ} {rest : List ℕ} {accepted : Bool} (hfirst : s.calls p = i :: rest)
    (heffect : s.Effect message after (.call (.wsaSend i accepted)))
    (hnum : after.numCalls = s.numCalls)
    (hcalls : ∀ q, after.calls q = if q = p then rest else s.calls q)
    (hsame : after.completing = s.completing) : after.Sound message := by
  have hnot := hs.not_mem_rest hfirst
  have hother {j : ℕ} (hj : j ≠ i) : after.stage message j = s.stage message j :=
    heffect.other hj
  have hself : ¬ (after.stage message i).Begun ∧ ¬ (after.stage message i).Completing := by
    rw [show after.stage message i = if accepted then .sent else .failed from heffect.self]
    cases accepted <;> simp [SendStage.Begun, SendStage.Completing]
  have hmem {q : Caller W A} {j : ℕ} (hj : j ∈ after.calls q) : j ∈ s.calls q ∧ j ≠ i := by
    rw [hcalls] at hj
    by_cases hq : q = p
    · rw [if_pos hq] at hj
      rw [hq, hfirst]
      refine ⟨List.mem_cons_of_mem i hj, ?_⟩
      rintro rfl
      exact hnot hj
    · rw [if_neg hq] at hj
      refine ⟨hj, ?_⟩
      rintro rfl
      exact hq (hs.eq_of_first hfirst hj)
  have hready {q : Caller W A} {k : ℕ} {tail : List ℕ} (hq : after.calls q = k :: tail) :
      ∀ j ∈ tail, s.stage message j = .ready := by
    intro j hj
    rw [hcalls] at hq
    by_cases hqp : q = p
    · rw [if_pos hqp] at hq
      exact hs.later p i rest hfirst j (by rw [hq]; exact List.mem_cons_of_mem k hj)
    · rw [if_neg hqp] at hq
      exact hs.later q k tail hq j hj
  exact {
    tracked := htracked
    fresh := by
      intro j hj
      have hlt := hs.known p i (by rw [hfirst]; exact List.mem_cons_self)
      rw [hother (by omega), hs.fresh j (by omega)]
    known := by
      intro q j hj
      rw [hnum]
      exact hs.known q j (hmem hj).1
    nodup := by
      intro q
      rw [hcalls]
      split
      · exact (List.nodup_cons.mp (hfirst ▸ hs.nodup p)).2
      · exact hs.nodup q
    sole := fun q r j hq hr ↦ hs.sole q r j (hmem hq).1 (hmem hr).1
    later := by
      intro q k tail hq j hj
      have hne := (hmem (q := q) (j := j) (by rw [hq]; exact List.mem_cons_of_mem k hj)).2
      rw [hother hne]
      exact hready hq j hj
    first := by
      intro q k tail hq
      have hne := (hmem (q := q) (j := k) (by rw [hq]; exact List.mem_cons_self)).2
      rw [hother hne]
      rw [hcalls] at hq
      by_cases hqp : q = p
      · rw [if_pos hqp] at hq
        exact .inl (hs.later p i rest hfirst k (by rw [hq]; exact List.mem_cons_self))
      · rw [if_neg hqp] at hq
        exact hs.first q k tail hq
    begun := by
      intro j hj
      have hne : j ≠ i := by
        rintro rfl
        exact hself.1 hj
      rw [hother hne] at hj
      obtain ⟨q, tail, hq⟩ := hs.begun j hj
      have hqp : q ≠ p := by
        rintro rfl
        rw [hfirst] at hq
        exact hne (List.cons.inj hq).1.symm
      exact ⟨q, tail, by rw [hcalls, if_neg hqp, hq]⟩
    away := by
      intro w j hj
      rw [hsame] at hj
      rw [hcalls, if_neg, hs.away w j hj]
      rintro rfl
      rw [hs.away w j hj] at hfirst
      cases hfirst
    worked := by
      intro w j hj
      rw [hsame] at hj
      have hworked := hs.worked w j hj
      have hne : j ≠ i := by
        rintro rfl
        rw [show s.stage message j = .produced from heffect.source] at hworked
        simp [SendStage.Completing] at hworked
      rwa [hother hne]
    alone := hsame ▸ hs.alone
    completing := by
      intro j hj
      have hne : j ≠ i := by
        rintro rfl
        exact hself.2 hj
      rw [hother hne] at hj
      rw [hsame]
      exact hs.completing j hj }

omit [DecidableEq W] [DecidableEq A] in
/-- A worker takes up a completion, or is through with it. -/
theorem of_completing (hs : s.Sound message) (htracked : after.Tracked message)
    (heffect : s.Effect message after event) {w : W} {next : Option ℕ}
    (hmoves : Moves s.completing after.completing w next)
    (hsource : s.stage message event.index ≠ .ready ∧ ¬ (s.stage message event.index).Begun)
    (htarget : ¬ event.target.Begun) (haway : s.calls (.worker w) = [])
    (hnext : ∀ j, next = some j → j = event.index ∧ event.target.Completing)
    (hself : event.target.Completing → next = some event.index)
    (hgone : ∀ j, s.completing w = some j → j = event.index)
    (hother : ∀ v, v ≠ w → s.completing v ≠ some event.index)
    (hnum : after.numCalls = s.numCalls) (hcalls : after.calls = s.calls) : after.Sound message := by
  have hstage {j : ℕ} (hj : j ≠ event.index) := heffect.other hj
  have hindex := heffect.self
  have hne {q : Caller W A} {j : ℕ} (hj : j ∈ s.calls q) : j ≠ event.index := by
    rintro rfl
    cases hq : s.calls q with
    | nil =>
      rw [hq] at hj
      exact List.not_mem_nil hj
    | cons k rest =>
      rw [hq, List.mem_cons] at hj
      rcases hj with hj | hj
      · rcases hs.first q k rest hq with hready | hbegun
        · exact hsource.1 (hj ▸ hready)
        · exact hsource.2 (hj ▸ hbegun)
      · exact hsource.1 (hs.later q k rest hq _ hj)
  exact {
    tracked := htracked
    fresh := by
      intro j hj
      have hlt := hs.lt_numCalls hsource.1
      rw [hstage (by omega), hs.fresh j (by omega)]
    known := by
      intro q j hj
      rw [hnum]
      exact hs.known q j (hcalls ▸ hj)
    nodup := hcalls ▸ hs.nodup
    sole := fun q r j hq hr ↦ hs.sole q r j (hcalls ▸ hq) (hcalls ▸ hr)
    later := by
      intro q k rest hq j hj
      rw [hcalls] at hq
      rw [hstage (hne (q := q) (by rw [hq]; exact List.mem_cons_of_mem k hj))]
      exact hs.later q k rest hq j hj
    first := by
      intro q k rest hq
      rw [hcalls] at hq
      rw [hstage (hne (q := q) (by rw [hq]; exact List.mem_cons_self))]
      exact hs.first q k rest hq
    begun := by
      intro j hj
      rw [hcalls]
      have hji : j ≠ event.index := by
        rintro rfl
        rw [hindex] at hj
        exact htarget hj
      rw [hstage hji] at hj
      exact hs.begun j hj
    away := by
      intro v j hj
      rw [hcalls]
      by_cases hv : v = w
      · rw [hv]
        exact haway
      · rw [hmoves.other v hv] at hj
        exact hs.away v j hj
    worked := by
      intro v j hj
      by_cases hv : v = w
      · rw [hv, hmoves.self] at hj
        obtain ⟨rfl, hcompleting⟩ := hnext j hj
        rwa [hindex]
      · rw [hmoves.other v hv] at hj
        have hji : j ≠ event.index := by
          rintro rfl
          exact hother v hv hj
        rw [hstage hji]
        exact hs.worked v j hj
    alone := hmoves.alone hs.alone
    completing := by
      intro j hj
      by_cases hji : j = event.index
      · rw [hji, hindex] at hj
        exact ⟨w, by rw [hmoves.self, hself hj, hji]⟩
      · rw [hstage hji] at hj
        obtain ⟨v, hv⟩ := hs.completing j hj
        have hvw : v ≠ w := by
          rintro rfl
          exact hji (hgone j hv)
        exact ⟨v, by rw [hmoves.other v hvw, hv]⟩ }

theorem of_step {action : SendServerAction W A} (hs : s.Sound message)
    (htracked : after.Tracked message) (hstep : s.Step message after action) :
    after.Sound message := by
  cases hstep with
  | handle hidle hnum hcalls hclient hsame =>
    refine hs.of_handle htracked hidle hnum (fun q ↦ ?_) hclient hsame
    rw [hcalls, Function.update_apply]
  | fault _ _ _ hstage hlock hnum hcalls hsame =>
    exact {
      tracked := htracked
      fresh := fun j hj ↦ by rw [hstage, hs.fresh j (hnum ▸ hj)]
      known := by
        rw [hnum, hcalls]
        exact hs.known
      nodup := hcalls ▸ hs.nodup
      sole := hcalls ▸ hs.sole
      later := by
        rw [hcalls, funext hstage]
        exact hs.later
      first := by
        rw [hcalls, funext hstage]
        exact hs.first
      begun := by
        rw [hcalls, funext hstage]
        exact hs.begun
      away := by
        rw [hcalls, hsame]
        exact hs.away
      worked := by
        rw [hsame, funext hstage]
        exact hs.worked
      alone := hsame ▸ hs.alone
      completing := by
        rw [hsame, funext hstage]
        exact hs.completing }
  | @send p _ i rest event hfirst hindex hbegun heffect hnum hcalls hsame =>
    subst hindex
    have hmem : event.index ∈ s.calls p := by
      rw [hfirst]
      exact List.mem_cons_self
    have hsource := hs.first p _ rest hfirst
    refine hs.of_effect htracked heffect (hs.known p _ hmem) ?_ (fun _ _ _ ↦ hbegun)
      (fun _ ↦ ⟨p, rest, hfirst⟩) ?_ (fun h ↦ absurd h hbegun.not_completing) hnum hcalls hsame
    · intro q j tail hq hlater
      obtain rfl := hs.eq_of_first hfirst (q := q) (by rw [hq]; exact List.mem_cons_of_mem j hlater)
      rw [hfirst] at hq
      obtain ⟨rfl, rfl⟩ := List.cons.inj hq
      exact hs.not_mem_rest hfirst hlater
    · intro w hw
      have hworked := hs.worked w _ hw
      rcases hsource with hready | hstarted
      · exact absurd hready hworked.ne_ready
      · exact absurd hworked hstarted.not_completing
  | wsaSend hfirst heffect hnum hcalls hsame =>
    refine hs.of_wsaSend htracked hfirst heffect hnum (fun q ↦ ?_) hsame
    rw [hcalls, Function.update_apply]
  | @dequeue w i hport heffect hnum hcalls hsame =>
    have hsent : s.stage message i = .sent := heffect.source
    have hnobody (v : W) : s.completing v ≠ some i := by
      intro hv
      have hworked := hs.worked v i hv
      rw [hsent] at hworked
      simp [SendStage.Completing] at hworked
    have hmoves : Moves s.completing after.completing w (some i) := by
      rw [hsame]
      refine ⟨Function.update_self _ _ _, fun v hv ↦ Function.update_of_ne hv _ _, ?_⟩
      rintro j hj
      obtain rfl := Option.some.inj hj
      exact .inr (not_exists.mpr hnobody)
    refine hs.of_completing htracked heffect hmoves ?_ (by simp [SendEvent.target, SendStage.Begun])
      hport.1 (fun j hj ↦ ⟨(Option.some.inj hj).symm, .inl rfl⟩) (fun _ ↦ rfl) ?_
      (fun v _ ↦ hnobody v) hnum hcalls
    · rw [heffect.source]
      simp [SendEvent.source, SendStage.Begun]
    · intro j hj
      rw [hport.2] at hj
      cases hj
  | @fail w i hport heffect hnum hcalls hsame =>
    have hsent : s.stage message i = .sent := heffect.source
    have hready : s.stage message i ≠ .ready := by
      rw [hsent]
      decide
    refine hs.of_effect htracked heffect (hs.lt_numCalls hready) ?_ ?_ ?_ ?_ ?_ hnum hcalls hsame
    · intro q j rest hq hlater
      exact hready (hs.later q j rest hq i hlater)
    · intro q rest hq
      rcases hs.first q i rest hq with hstage | hstage
      · exact absurd hstage hready
      · rw [hsent] at hstage
        simp [SendStage.Begun] at hstage
    · intro hbegun
      simp [SendEvent.target, SendStage.Begun] at hbegun
    · intro v hv
      have hworked := hs.worked v i hv
      rw [hsent] at hworked
      simp [SendStage.Completing] at hworked
    · intro hcompleting
      simp [SendEvent.target, SendStage.Completing] at hcompleting
  | @withdraw w i hworker heffect hnum hcalls hsame =>
    have hworked := hs.worked w i hworker
    refine hs.of_effect htracked heffect (hs.lt_numCalls hworked.ne_ready) ?_ ?_ ?_
      (fun _ _ ↦ .inr rfl) (fun _ ↦ ⟨w, hworker⟩) hnum hcalls hsame
    · intro q j rest hq hlater
      exact hworked.ne_ready (hs.later q j rest hq i hlater)
    · intro q rest hq
      rcases hs.first q i rest hq with hstage | hstage
      · exact absurd hstage hworked.ne_ready
      · exact absurd hworked hstage.not_completing
    · intro hbegun
      simp [SendEvent.target, SendStage.Begun] at hbegun
  | @unlock w i hworker heffect hnum hcalls hsame =>
    have hworked := hs.worked w i hworker
    have hmoves : Moves s.completing after.completing w none := by
      rw [hsame]
      exact ⟨Function.update_self _ _ _, fun v hv ↦ Function.update_of_ne hv _ _,
        fun j hj ↦ by cases hj⟩
    refine hs.of_completing htracked heffect hmoves
      ⟨hworked.ne_ready, fun hbegun ↦ hbegun.not_completing hworked⟩
      (by simp [SendEvent.target, SendStage.Begun]) (hs.away w i hworker) (fun j hj ↦ by cases hj)
      ?_ ?_ ?_ hnum hcalls
    · intro hcompleting
      simp [SendEvent.target, SendStage.Completing] at hcompleting
    · intro j hj
      rw [hworker] at hj
      exact (Option.some.inj hj).symm
    · intro v hv hsame
      exact hv (hs.alone v w i hsame hworker)

end Sound

theorem sound_of_reachable (hreach : (system message).Reachable s) : s.Sound message := by
  apply hreach.invariant (Sound message)
  · rintro start rfl
    exact sound_initial
  · intro state action next hs hstep
    obtain ⟨htracked, hcases⟩ := step_cases hs.tracked hstep
    exact hs.of_step htracked hcases

end SendServer

end ServerCore.Server
