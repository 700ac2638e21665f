import ServerCore.UdpServer.TickEffect

/-!
# Activity and silence

`is_alive_` counts up with every heartbeat and every data datagram, and down with every tick. An account
of one session keeps the difference as an integer; the counter is this integer modulo `2^16`, and the
tick looks at it as a signed number. An active session is removed when its surplus gets past the largest
positive number. A silent one is removed once its surplus is used up, however large that was.
-/

namespace ServerCore.UdpServer

open Foundation

namespace SessionTable

variable {s : SessionTable} {endpoint : Endpoint} {datagram : List UInt8} {x : SessionId}
  {action : TableAction}

/-- The datagram is counted into `is_alive_` of the session. -/
def Counts (s : SessionTable) (x : SessionId) : TableAction → Prop
  | .receive endpoint datagram =>
    s.sessions.find endpoint = some x ∧ (IsA .heartbeat datagram ∨ IsA .data datagram)
  | .tick => False

instance (s : SessionTable) (x : SessionId) (action : TableAction) : Decidable (s.Counts x action) :=
  match action with
  | .receive _ _ => inferInstanceAs (Decidable (_ ∧ (_ ∨ _)))
  | .tick => inferInstanceAs (Decidable False)

/-- None of the actions is counted. -/
def Silent (s : SessionTable) (x : SessionId) : List TableAction → Prop
  | [] => True
  | action :: rest => ¬ s.Counts x action ∧ (s.step action).Silent x rest

/-! ## What a datagram does to a session -/

theorem isAlive_heartbeat : (s.heartbeat endpoint).isAlive x =
    s.isAlive x + if s.sessions.find endpoint = some x then 1 else 0 := by
  unfold heartbeat
  cases hfind : s.sessions.find endpoint with
  | none => simp
  | some y =>
    by_cases hy : x = y
    · simp [addAlive, hy]
    · simp [addAlive, hy, Ne.symm hy]

theorem isAlive_data : (s.data endpoint datagram).isAlive x =
    s.isAlive x + if s.sessions.find endpoint = some x then 1 else 0 := by
  have hcount : (s.heartbeat endpoint).isAlive x = _ := isAlive_heartbeat
  unfold heartbeat at hcount
  unfold data
  cases hfind : s.sessions.find endpoint with
  | none => simp
  | some y =>
    rw [hfind] at hcount
    rw [← hcount]
    dsimp only
    split
    · rfl
    · rfl

theorem isAlive_syn_of_ne (hne : x ≠ s.newSession endpoint) :
    (s.syn endpoint datagram).isAlive x = s.isAlive x :=
  Function.update_of_ne hne ..

theorem isAlive_ack : (s.ack endpoint).isAlive = s.isAlive := by
  unfold ack
  split
  · rfl
  · rfl

/-- A datagram changes the counter of a session there was by what it counts. -/
theorem isAlive_receive (hx : s.Constructed x) :
    (s.receive endpoint datagram).isAlive x =
      s.isAlive x + if s.Counts x (.receive endpoint datagram) then 1 else 0 := by
  by_cases hkind : ∃ branch, IsA branch datagram
  · obtain ⟨branch, hbranch⟩ := hkind
    have hcounts : s.Counts x (.receive endpoint datagram) ↔
        s.sessions.find endpoint = some x ∧ (branch = .heartbeat ∨ branch = .data) := by
      apply and_congr_right'
      constructor
      · rintro (h | h)
        · exact Or.inl (hbranch.unique h)
        · exact Or.inr (hbranch.unique h)
      · rintro (rfl | rfl)
        · exact Or.inl hbranch
        · exact Or.inr hbranch
    rw [receive_of_isA hbranch]
    simp only [hcounts]
    cases branch with
    | syn =>
      have hne : x ≠ s.newSession endpoint := by
        rintro rfl
        simp [Constructed, newSession] at hx
      simpa [serve] using isAlive_syn_of_ne hne
    | ack => simpa [serve] using congrFun isAlive_ack x
    | heartbeat => simpa [serve] using isAlive_heartbeat
    | data => simpa [serve] using isAlive_data
    | other => simp [serve]
  · have hnone (branch : Branch) : ¬ IsA branch datagram := fun h ↦ hkind ⟨branch, h⟩
    rw [receive_of_not_isA hnone]
    simp [Counts, hnone]

/-- The session that an ACK establishes. -/
def Establishes (s : SessionTable) (x : SessionId) : TableAction → Prop
  | .receive endpoint datagram => IsA .ack datagram ∧ s.pendingSessions.find endpoint = some x ∧
    s.sessions.find x.endpoint = none
  | .tick => False

/-- A datagram removes no session from the map. -/
theorem mem_sessions_receive : x ∈ (s.receive endpoint datagram).sessions.values ↔
    x ∈ s.sessions.values ∨ s.Establishes x (.receive endpoint datagram) := by
  have hother (hsame : (s.receive endpoint datagram).sessions = s.sessions)
      (hack : ¬ IsA .ack datagram) : x ∈ (s.receive endpoint datagram).sessions.values ↔
        x ∈ s.sessions.values ∨ s.Establishes x (.receive endpoint datagram) := by
    rw [hsame]
    exact (or_iff_left fun h ↦ hack h.1).symm
  rcases receive_cases s endpoint datagram with ⟨hsyn, heq⟩ | ⟨hack, heq⟩ | ⟨-, hack, hquiet⟩
  · apply hother
    · rw [heq]
      rfl
    · exact fun h ↦ absurd (h.unique hsyn) (by decide)
  · rw [heq]
    cases hpending : s.pendingSessions.find endpoint with
    | none =>
      rw [ack_of_none hpending]
      simp [Establishes, hpending]
    | some y =>
      rw [ack_of_some hpending]
      change x ∈ (s.sessions.insert y.endpoint y).values ↔ _
      cases hfind : s.sessions.find y.endpoint with
      | some found =>
        rw [OrderedMap.insert_of_find hfind]
        apply (or_iff_left _).symm
        rintro ⟨-, hx, hnone⟩
        rw [hpending, Option.some.injEq] at hx
        rw [hx, hnone] at hfind
        cases hfind
      | none =>
        have hcount : (s.sessions.insert y.endpoint y).values.count x = _ :=
          OrderedMap.count_values_insert hfind x
        rw [← List.count_pos_iff, hcount, ← List.count_pos_iff]
        by_cases hyx : y = x
        · subst hyx
          simp [Establishes, hack, hpending, hfind]
        · simp [Establishes, hpending, hyx]
  · exact hother hquiet.sessions hack

/-- A session waits in the other map if it did before, or if a SYN has constructed it. -/
theorem mem_pendingSessions_receive
    (hx : x ∈ (s.receive endpoint datagram).pendingSessions.values) :
    x ∈ s.pendingSessions.values ∨
      x = s.newSession endpoint ∧ (s.receive endpoint datagram).isAlive x = 0 := by
  rcases receive_cases s endpoint datagram with ⟨-, heq⟩ | ⟨-, heq⟩ | ⟨-, -, hquiet⟩
  · rw [heq] at hx ⊢
    change x ∈ (s.pendingSessions.insert endpoint (s.newSession endpoint)).values at hx
    cases hfind : s.pendingSessions.find endpoint with
    | some found =>
      rw [OrderedMap.insert_of_find hfind] at hx
      exact Or.inl hx
    | none =>
      rw [← List.count_pos_iff, OrderedMap.count_values_insert hfind] at hx
      by_cases hnew : s.newSession endpoint = x
      · subst hnew
        exact Or.inr ⟨rfl, Function.update_self ..⟩
      · rw [if_neg hnew, Nat.add_zero, List.count_pos_iff] at hx
        exact Or.inl hx
  · rw [heq] at hx
    left
    cases hpending : s.pendingSessions.find endpoint with
    | none =>
      rw [ack_of_none hpending] at hx
      exact hx
    | some y =>
      rw [ack_of_some hpending] at hx
      change x ∈ (s.pendingSessions.erase endpoint).values at hx
      have herase := OrderedMap.count_values_erase hpending x
      rw [← List.count_pos_iff] at hx ⊢
      omega
  · rw [hquiet.pendingSessions] at hx
    exact Or.inl hx

/-- A session that waits is neither in the other map nor in the vector. -/
theorem SessionsFiled.not_mem_of_pending (hs : s.SessionsFiled)
    (hx : x ∈ s.pendingSessions.values) : x ∉ s.sessions.values ∧ x ∉ s.disconnected := by
  have honce := hs.once x
  have hpos := List.count_pos_iff.mpr hx
  unfold total holders at honce
  constructor
  all_goals
    rw [← List.count_eq_zero]
    omega

theorem SessionsFiled.constructed_of_mem (hs : s.SessionsFiled) (hx : x ∈ s.sessions.values) :
    s.Constructed x := by
  apply hs.constructed
  have hpos := List.count_pos_iff.mpr hx
  unfold total holders
  omega

theorem SessionsFiled.constructed_of_pending (hs : s.SessionsFiled)
    (hx : x ∈ s.pendingSessions.values) : s.Constructed x := by
  apply hs.constructed
  have hpos := List.count_pos_iff.mpr hx
  unfold total holders
  omega

/-- Sessions remain constructed. -/
theorem Constructed.step (hx : s.Constructed x) : (s.step action).Constructed x := by
  cases action with
  | tick =>
    unfold Constructed
    rw [SessionTable.step, passedOn_tick.created]
    exact hx
  | receive endpoint datagram =>
    change (s.receive endpoint datagram).Constructed x
    rcases receive_cases s endpoint datagram with ⟨-, heq⟩ | ⟨-, heq⟩ | ⟨-, -, hquiet⟩
    · rw [heq]
      exact constructed_syn.mpr (Or.inr hx)
    · rw [heq]
      unfold ack
      split
      · exact hx
      · exact hx
    · unfold Constructed
      rw [hquiet.created]
      exact hx

/-- The counter of a session that waits is left alone by ticks. -/
theorem isAlive_tick_of_pending (hs : s.SessionsFiled) (hx : x ∈ s.pendingSessions.values) :
    s.tick.isAlive x = s.isAlive x := by
  obtain ⟨hsessions, hdisconnected⟩ := hs.not_mem_of_pending hx
  have hswept := swept_sweep hs
  have hnot : x ∉ s.sweep.disconnected := by
    rw [hswept.disconnected, List.mem_append, List.mem_filter, not_or]
    exact ⟨hdisconnected, fun h ↦ hsessions h.1⟩
  calc
    s.tick.isAlive x = s.sweep.isAlive x := by
      rw [tick, (drained_drain (passedOn_sweep.sessionsFiled hs)).isAlive, if_neg hnot]
    _ = s.isAlive x := by
      rw [hswept.isAlive]
      exact if_neg hsessions

end SessionTable

/-! ## Accounts -/

/-- The table, and an account of one session: whether it has been established, how many datagrams were
counted into it since then less the ticks, and how many since the last tick. -/
structure Account where
  table : SessionTable
  established : Bool
  surplus : ℤ
  recent : ℕ

namespace Account

open SessionTable

variable {a after : Account} {x : SessionId} {action : TableAction}

def initial : Account := ⟨.initial, false, 0, 0⟩

/-- What the action adds to the surplus. -/
def change (x : SessionId) (a : Account) : TableAction → ℤ
  | .receive endpoint datagram => if a.table.Counts x (.receive endpoint datagram) then 1 else 0
  | .tick => if a.established then -1 else 0

/-- How many datagrams the interval has seen after the action. -/
def recentAfter (x : SessionId) (a : Account) : TableAction → ℕ
  | .receive endpoint datagram =>
    a.recent + if a.table.Counts x (.receive endpoint datagram) then 1 else 0
  | .tick => 0

def step (x : SessionId) (a : Account) (action : TableAction) : Account where
  table := a.table.step action
  established := a.established || decide (x ∈ (a.table.step action).sessions.values)
  surplus := a.surplus + a.change x action
  recent := a.recentAfter x action

/-- Any sequence of datagrams and ticks, with the account of a session. -/
def system (x : SessionId) : System Account TableAction where
  init a := a = initial
  step a action after := a.step x action = after

/-- An established session is in `sessions_`. -/
def Stays (x : SessionId) (a : Account) : Prop :=
  a.established = true → x ∈ a.table.sessions.values

/-- In the interval that a tick ends, a datagram was counted into an established session. -/
def Active (a : Account) : TableAction → Prop
  | .receive _ _ => True
  | .tick => a.established = true → 0 < a.recent

/-- The surplus modulo `2^16` is at most `2^15` at every tick. -/
def Bounded (a : Account) : TableAction → Prop
  | .receive _ _ => True
  | .tick => a.established = true → a.surplus % 2 ^ 16 ≤ 2 ^ 15

/-- The account is right. -/
structure Kept (x : SessionId) (a : Account) : Prop where
  filed : a.table.SessionsFiled
  constructed : a.established = true → a.table.Constructed x
  pending : x ∈ a.table.pendingSessions.values → a.table.isAlive x = 0 ∧ a.established = false
  counted : x ∈ a.table.sessions.values →
    a.table.isAlive x = BitVec.ofInt 16 a.surplus ∧ a.established = true
  fresh : a.established = false → a.surplus = 0

/-- The sweep removes a session whose counter is negative, unless it is the least of all numbers. -/
theorem expires_iff {surplus : ℤ} :
    (BitVec.ofInt 16 surplus + (-1)).toInt < -1 ↔ 2 ^ 15 < surplus % 2 ^ 16 := by
  have hsum : BitVec.ofInt 16 surplus + (-1) = BitVec.ofInt 16 (surplus - 1) := by
    rw [sub_eq_add_neg, BitVec.ofInt_add]
    rfl
  rw [hsum, BitVec.toInt_ofInt, Int.bmod_def]
  norm_num
  split
  · omega
  · omega

theorem kept_initial (x : SessionId) : initial.Kept x where
  filed := sessionsFiled_initial
  constructed := fun h ↦ absurd h (by decide)
  pending := fun _ ↦ ⟨rfl, rfl⟩
  counted := fun h ↦ absurd h List.not_mem_nil
  fresh := fun _ ↦ rfl

theorem mem_of_counts (h : a.table.Counts x action) : x ∈ a.table.sessions.values := by
  cases action with
  | receive endpoint datagram => exact OrderedMap.mem_values.mpr ⟨endpoint, h.1⟩
  | tick => exact h.elim

theorem established_step : (a.step x action).established = true ↔
    a.established = true ∨ x ∈ (a.table.step action).sessions.values := by
  simp [step]

theorem kept_receive {endpoint : Endpoint} {datagram : List UInt8} (ha : a.Kept x) :
    (a.step x (.receive endpoint datagram)).Kept x := by
  have hfiled : (a.table.step (.receive endpoint datagram)).SessionsFiled :=
    sessionsFiled_step ha.filed
  have hcounts (hwaits : x ∉ a.table.sessions.values) :
      ¬ a.table.Counts x (.receive endpoint datagram) := fun h ↦ hwaits (mem_of_counts h)
  refine ⟨hfiled, ?_, ?_, ?_, ?_⟩
  · rw [established_step]
    rintro (hold | hnew)
    · exact (ha.constructed hold).step
    · exact hfiled.constructed_of_mem hnew
  · intro hx
    have hout := (hfiled.not_mem_of_pending hx).1
    rw [Bool.eq_false_iff, ne_eq, established_step, not_or]
    rcases mem_pendingSessions_receive hx with hold | ⟨hnew, hzero⟩
    · obtain ⟨hzero, hestablished⟩ := ha.pending hold
      refine ⟨?_, by simp [hestablished], hout⟩
      change (a.table.receive endpoint datagram).isAlive x = 0
      rw [isAlive_receive (ha.filed.constructed_of_pending hold), hzero,
        if_neg (hcounts (ha.filed.not_mem_of_pending hold).1)]
      rfl
    · refine ⟨hzero, fun hestablished ↦ ?_, hout⟩
      have hconstructed := ha.constructed hestablished
      rw [hnew] at hconstructed
      simp [Constructed, newSession] at hconstructed
  · intro hx
    refine ⟨?_, established_step.mpr (Or.inr hx)⟩
    change (a.table.receive endpoint datagram).isAlive x = BitVec.ofInt 16 (a.surplus + _)
    rcases mem_sessions_receive.mp hx with hold | ⟨-, hpending, hnone⟩
    · rw [isAlive_receive (ha.filed.constructed_of_mem hold), (ha.counted hold).1,
        BitVec.ofInt_add]
      dsimp only [change]
      split
      · rfl
      · rfl
    · have hwaits : x ∈ a.table.pendingSessions.values :=
        OrderedMap.mem_values.mpr ⟨endpoint, hpending⟩
      have hnot := hcounts (ha.filed.not_mem_of_pending hwaits).1
      obtain ⟨hzero, hestablished⟩ := ha.pending hwaits
      rw [isAlive_receive (ha.filed.constructed_of_pending hwaits), hzero, ha.fresh hestablished,
        change, if_neg hnot, if_neg hnot]
      rfl
  · intro h
    rw [Bool.eq_false_iff, ne_eq, established_step, not_or, ← ne_eq, ← Bool.eq_false_iff] at h
    change a.surplus + _ = 0
    rw [ha.fresh h.1, change, if_neg]
    · rfl
    · intro hcounted
      have hestablished := (ha.counted (mem_of_counts hcounted)).2
      simp [h.1] at hestablished

theorem kept_tick (ha : a.Kept x) : (a.step x .tick).Kept x := by
  have hfiled : (a.table.step .tick).SessionsFiled := sessionsFiled_step ha.filed
  refine ⟨hfiled, ?_, ?_, ?_, ?_⟩
  · rw [established_step]
    rintro (hold | hnew)
    · exact (ha.constructed hold).step
    · exact hfiled.constructed_of_mem hnew
  · intro hx
    have hout := (hfiled.not_mem_of_pending hx).1
    have hwaits : x ∈ a.table.pendingSessions.values := passedOn_tick.pendingSessions ▸ hx
    obtain ⟨hzero, hestablished⟩ := ha.pending hwaits
    rw [Bool.eq_false_iff, ne_eq, established_step, not_or]
    refine ⟨?_, by simp [hestablished], hout⟩
    exact (isAlive_tick_of_pending ha.filed hwaits).trans hzero
  · intro hx
    refine ⟨?_, established_step.mpr (Or.inr hx)⟩
    change a.table.tick.isAlive x = BitVec.ofInt 16 (a.surplus + _)
    obtain ⟨halive, hestablished⟩ := ha.counted ((mem_sessions_tick ha.filed).mp hx).1
    rw [isAlive_tick_of_mem ha.filed hx, halive, BitVec.ofInt_add, change, if_pos hestablished]
    rfl
  · intro h
    rw [Bool.eq_false_iff, ne_eq, established_step, not_or, ← ne_eq, ← Bool.eq_false_iff] at h
    change a.surplus + _ = 0
    rw [ha.fresh h.1, change, h.1]
    rfl

theorem kept_step (ha : a.Kept x) : (a.step x action).Kept x := by
  cases action with
  | receive endpoint datagram => exact kept_receive ha
  | tick => exact kept_tick ha

/-- A tick removes the session exactly if its surplus is out of bounds. -/
theorem mem_sessions_tick_iff (ha : a.Kept x) : x ∈ a.table.tick.sessions.values ↔
    x ∈ a.table.sessions.values ∧ a.surplus % 2 ^ 16 ≤ 2 ^ 15 := by
  rw [mem_sessions_tick ha.filed]
  apply and_congr_right
  intro hx
  rw [Expires, (ha.counted hx).1, expires_iff, not_lt]

/-- **Activity.** In a run of datagrams and ticks an established session stays in `sessions_` if and
only if at every tick the number of datagrams counted since it was established, less the earlier ticks,
is at most `2^15` modulo `2^16`. -/
theorem stays_visited_iff_bounded {history : List (Account × TableAction)}
    (hrun : (system x).Run history a) :
    (∀ seen ∈ System.visited history a, seen.Stays x) ↔ System.Obeys Bounded history := by
  apply hrun.forall_visited_iff_obeys (Kept x)
  · rintro state rfl
    exact ⟨kept_initial x, fun h ↦ absurd h (by decide)⟩
  · rintro state action after hs - rfl
    exact kept_step hs
  · rintro state action after hs hstays rfl
    unfold Stays
    rw [established_step]
    cases action with
    | receive endpoint datagram =>
      refine iff_of_true ?_ trivial
      rintro (hold | hnew)
      · exact mem_sessions_receive.mpr (Or.inl (hstays hold))
      · exact hnew
    | tick =>
      change (_ ∨ x ∈ state.table.tick.sessions.values → x ∈ state.table.tick.sessions.values) ↔ _
      rw [mem_sessions_tick_iff hs]
      unfold Bounded
      constructor
      · intro hafter hestablished
        exact (hafter (Or.inl hestablished)).2
      · rintro hbounded (hold | hnew)
        · exact ⟨hstays hold, hbounded hold⟩
        · exact hnew

def heartbeatDatagram : List UInt8 := [0, 0, 255, 255]

def client : SessionId := ⟨⟨1, 1⟩, 0⟩

def handshake : List TableAction :=
  [.receive ⟨1, 1⟩ synDatagram, .receive ⟨1, 1⟩ ackDatagram]

/-- The account after the handshake. -/
def connected : Account :=
  handshake.foldl (step client) initial

theorem exists_run_of_foldl {history : List (Account × TableAction)} (hrun : (system x).Run history a)
    (actions : List TableAction) :
    ∃ longer, (system x).Run (longer ++ history) (actions.foldl (step x) a) := by
  induction actions generalizing history a with
  | nil => exact ⟨[], hrun⟩
  | cons action rest ih =>
    obtain ⟨longer, hlonger⟩ := ih (hrun.next rfl)
    exact ⟨longer ++ [(a, action)], by simpa using hlonger⟩

/-- The interval goes on with any number of heartbeats. -/
theorem exists_busy_run (n : ℕ) : ∃ history a, (system client).Run history a ∧
    System.Obeys Active history ∧ a.table.sessions = connected.table.sessions ∧
    a.established = true ∧ a.surplus = n ∧ a.recent = n := by
  induction n with
  | zero =>
    have hstart : (system client).Run [] initial := .start rfl
    have hrun : (system client).Run [_, _] connected := (hstart.next rfl).next rfl
    exact ⟨_, connected, hrun, by simp [Active], rfl, by decide, by decide, by decide⟩
  | succ n ih =>
    obtain ⟨history, a, hrun, hactive, hsessions, hestablished, hsurplus, hrecent⟩ := ih
    have hbeat : IsA .heartbeat heartbeatDatagram := by decide
    have hfind : a.table.sessions.find ⟨1, 1⟩ = some client := by
      rw [hsessions]
      decide
    have hcounts : a.table.Counts client (.receive ⟨1, 1⟩ heartbeatDatagram) :=
      ⟨hfind, Or.inl hbeat⟩
    have hsame : (a.table.receive ⟨1, 1⟩ heartbeatDatagram).sessions = a.table.sessions := by
      rw [receive_of_isA hbeat]
      exact quiet_heartbeat.sessions
    refine ⟨_, a.step client (.receive ⟨1, 1⟩ heartbeatDatagram), hrun.next rfl, ?_, ?_, ?_, ?_, ?_⟩
    · exact (System.obeys_cons _ _ _ _).mpr ⟨trivial, hactive⟩
    · exact hsame.trans hsessions
    · exact established_step.mpr (Or.inl hestablished)
    · change a.surplus + _ = _
      rw [change, if_pos hcounts, hsurplus]
      exact (Nat.cast_succ n).symm
    · change a.recent + _ = _
      rw [if_pos hcounts, hrecent]

theorem kept_of_reachable (hreach : (system x).Reachable a) : a.Kept x := by
  apply hreach.invariant (Kept x)
  · rintro state rfl
    exact kept_initial x
  · rintro state action after hs rfl
    exact kept_step hs

/-- A client that sends 32769 heartbeats before the first tick is removed by it. -/
theorem stays_fails :
    ¬ ∀ x history a, (system x).Run history a → System.Obeys Active history → a.Stays x := by
  intro hclaim
  obtain ⟨history, a, hrun, hactive, -, hestablished, hsurplus, hrecent⟩ := exists_busy_run 32769
  have htick : System.Obeys Active ((a, .tick) :: history) :=
    (System.obeys_cons _ _ _ _).mpr ⟨fun _ ↦ by omega, hactive⟩
  have hstays := hclaim client _ _ (hrun.next rfl) htick (established_step.mpr (Or.inl hestablished))
  have hbounded := ((mem_sessions_tick_iff (kept_of_reachable ⟨history, hrun⟩)).mp hstays).2
  rw [hsurplus] at hbounded
  exact absurd hbounded (by decide)

/-- The characterisation applied to a client that sends a heartbeat before the first tick. -/
theorem stays_visited_iff_bounded_applies :
    ∃ history a, (system client).Run history a ∧ a.established = true ∧
      ((∀ seen ∈ System.visited history a, seen.Stays client) ↔ System.Obeys Bounded history) := by
  have hstart : (system client).Run [] initial := .start rfl
  obtain ⟨history, hrun⟩ :=
    exists_run_of_foldl hstart (handshake ++ [.receive ⟨1, 1⟩ heartbeatDatagram, .tick])
  exact ⟨_, _, hrun, by decide, stays_visited_iff_bounded hrun⟩

/-! ## Silence -/

/-- Without datagrams that count, the session goes through the ticks as long as each finds its surplus
in bounds. -/
theorem mem_sessions_of_silent {actions : List TableAction} (ha : a.Kept x)
    (hestablished : a.established = true) (hsilent : a.table.Silent x actions) :
    x ∈ (actions.foldl SessionTable.step a.table).sessions.values ↔
      x ∈ a.table.sessions.values ∧
        ∀ i : ℕ, i < actions.count .tick → (a.surplus - i) % 2 ^ 16 ≤ 2 ^ 15 := by
  induction actions generalizing a with
  | nil => simp
  | cons action rest ih =>
    have hrest := ih (kept_step ha) (established_step.mpr (Or.inl hestablished)) hsilent.2
    rw [List.foldl_cons]
    refine hrest.trans ?_
    cases action with
    | receive endpoint datagram =>
      have hsame : x ∈ (a.table.receive endpoint datagram).sessions.values ↔
          x ∈ a.table.sessions.values := by
        rw [mem_sessions_receive, or_iff_left]
        rintro ⟨-, hpending, -⟩
        have hwaits := (ha.pending (OrderedMap.mem_values.mpr ⟨endpoint, hpending⟩)).2
        simp [hestablished] at hwaits
      have hsurplus : (a.step x (.receive endpoint datagram)).surplus = a.surplus := by
        simp [step, change, hsilent.1]
      rw [hsurplus, List.count_cons_of_ne (by simp)]
      exact and_congr_left' hsame
    | tick =>
      have hsurplus (i : ℕ) : (a.step x .tick).surplus - i = a.surplus - (i + 1 : ℕ) := by
        simp only [step, change, hestablished, if_true]
        push_cast
        ring
      rw [List.count_cons_self, Nat.forall_lt_succ_left]
      simp only [hsurplus]
      change x ∈ a.table.tick.sessions.values ∧ _ ↔ _
      rw [mem_sessions_tick_iff ha, and_assoc, Nat.cast_zero, sub_zero]

/-- **Silence.** A silent session is out of `sessions_` after two ticks if and only if it was before, or
the number of datagrams counted since it was established, less the ticks, was zero or more than `2^15`
modulo `2^16` when it fell silent. -/
theorem removed_iff_of_silent {actions : List TableAction} (hreach : (system x).Reachable a)
    (hestablished : a.established = true) (hsilent : a.table.Silent x actions)
    (hticks : actions.count .tick = 2) :
    x ∉ (actions.foldl SessionTable.step a.table).sessions.values ↔
      x ∉ a.table.sessions.values ∨ a.surplus % 2 ^ 16 = 0 ∨ 2 ^ 15 < a.surplus % 2 ^ 16 := by
  have htwo : (∀ i : ℕ, i < 2 → (a.surplus - i) % 2 ^ 16 ≤ 2 ^ 15) ↔
      ¬ (a.surplus % 2 ^ 16 = 0 ∨ 2 ^ 15 < a.surplus % 2 ^ 16) := by
    simp only [Nat.forall_lt_succ_left, Nat.not_lt_zero, false_implies, implies_true]
    norm_num
    omega
  rw [mem_sessions_of_silent (kept_of_reachable hreach) hestablished hsilent, hticks, htwo,
    not_and_or, not_not]

/-- Two heartbeats in one interval keep the session in `sessions_` for three ticks. -/
theorem removed_of_silent_fails :
    ¬ ∀ x before history a actions, (system x).Run ((before, .tick) :: history) a →
      a.established = true → a.table.Silent x actions → actions.count .tick = 2 →
        x ∉ (actions.foldl SessionTable.step a.table).sessions.values := by
  intro hclaim
  let beat : TableAction := .receive ⟨1, 1⟩ heartbeatDatagram
  have hstart : (system client).Run [] initial := .start rfl
  obtain ⟨history, hrun⟩ := exists_run_of_foldl hstart (handshake ++ [beat, beat])
  have hremoved := hclaim client _ _ _ [.tick, .tick] (hrun.next rfl)
  exact hremoved (by decide) ⟨id, id, trivial⟩ rfl (by decide)

/-- The characterisation applied to a client that has sent nothing since the handshake. -/
theorem removed_iff_of_silent_applies :
    (system client).Reachable connected ∧ connected.established = true ∧
      (client ∉ (([.tick, .tick] : List TableAction).foldl SessionTable.step
        connected.table).sessions.values ↔ client ∉ connected.table.sessions.values ∨
        connected.surplus % 2 ^ 16 = 0 ∨ 2 ^ 15 < connected.surplus % 2 ^ 16) := by
  have hstart : (system client).Run [] initial := .start rfl
  obtain ⟨history, hrun⟩ := exists_run_of_foldl hstart handshake
  have hreach : (system client).Reachable connected := ⟨_, hrun⟩
  exact ⟨hreach, by decide, removed_iff_of_silent hreach (by decide) ⟨id, id, trivial⟩ rfl⟩

end Account

end ServerCore.UdpServer
