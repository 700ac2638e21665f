import ServerCore.UdpServer.SessionOwnership

/-!
# What a tick does to a session

The sweep decrements the counters of the sessions in the map, each once, and moves those below -1 to
the vector. The drain decrements the counters of the sessions in the vector, those moved just now
included, and deletes those at -3.
-/

namespace ServerCore.UdpServer

open Foundation

namespace SessionTable

variable {s : SessionTable} {x : SessionId}

/-- The sweep takes the session out of the map. -/
def Expires (s : SessionTable) (x : SessionId) : Prop :=
  (s.isAlive x + (-1)).toInt < -1

/-- The drain deletes the session. -/
def Ends (s : SessionTable) (x : SessionId) : Prop :=
  (s.isAlive x + (-1)).toInt = -3

instance (s : SessionTable) : DecidablePred s.Expires :=
  fun x ↦ inferInstanceAs (Decidable ((s.isAlive x + (-1)).toInt < -1))

instance (s : SessionTable) : DecidablePred s.Ends :=
  fun x ↦ inferInstanceAs (Decidable ((s.isAlive x + (-1)).toInt = -3))

/-! ## The sweep -/

theorem isAlive_sweepSession (node : Endpoint × SessionId) :
    (s.sweepSession node).isAlive =
      Function.update s.isAlive node.2 (s.isAlive node.2 + (-1)) := by
  unfold sweepSession
  split
  all_goals rfl

theorem isAlive_sweepSession_of_ne {node : Endpoint × SessionId} (hne : x ≠ node.2) :
    (s.sweepSession node).isAlive x = s.isAlive x := by
  rw [isAlive_sweepSession, Function.update_of_ne hne]

theorem sessions_sweepSession (node : Endpoint × SessionId) (key : Endpoint) :
    (s.sweepSession node).sessions.find key =
      if key = node.1 ∧ s.Expires node.2 then none else s.sessions.find key := by
  by_cases hexpires : s.Expires node.2
  · have hswept : s.sweepSession node = { s.addAlive node.2 (-1) with
        disconnected := s.disconnected ++ [node.2]
        sessions := s.sessions.erase node.1 } := if_pos hexpires
    rw [hswept, OrderedMap.find_erase]
    simp only [hexpires, and_true]
  · have hkept : s.sweepSession node = s.addAlive node.2 (-1) := if_neg hexpires
    rw [hkept, if_neg fun h ↦ hexpires h.2]
    rfl

theorem disconnected_sweepSession (node : Endpoint × SessionId) :
    (s.sweepSession node).disconnected =
      s.disconnected ++ if s.Expires node.2 then [node.2] else [] := by
  by_cases hexpires : s.Expires node.2
  · rw [if_pos hexpires]
    exact congrArg SessionTable.disconnected (if_pos hexpires)
  · have hkept : s.sweepSession node = s.addAlive node.2 (-1) := if_neg hexpires
    rw [if_neg hexpires, List.append_nil, hkept]
    rfl

/-- What the rounds over some nodes do. -/
structure Swept (nodes : List (Endpoint × SessionId)) (s after : SessionTable) : Prop where
  isAlive : ∀ x, after.isAlive x =
    if x ∈ nodes.map Prod.snd then s.isAlive x + (-1) else s.isAlive x
  erased : ∀ node ∈ nodes, s.Expires node.2 → after.sessions.find node.1 = none
  kept : ∀ key, (∀ node ∈ nodes, key = node.1 → ¬ s.Expires node.2) →
    after.sessions.find key = s.sessions.find key
  disconnected : after.disconnected = s.disconnected ++ (nodes.map Prod.snd).filter s.Expires
  deleted : after.deleted = s.deleted

theorem swept_foldl (nodes : List (Endpoint × SessionId)) (s : SessionTable)
    (hnodup : (nodes.map Prod.snd).Nodup) : s.Swept nodes (nodes.foldl sweepSession s) := by
  induction nodes generalizing s with
  | nil => exact ⟨fun _ ↦ rfl, fun _ h ↦ absurd h List.not_mem_nil, fun _ _ ↦ rfl, by simp, rfl⟩
  | cons node rest ih =>
    rw [List.map_cons, List.nodup_cons] at hnodup
    have hrest := ih (s.sweepSession node) hnodup.2
    have hexpires (x : SessionId) (hx : x ∈ rest.map Prod.snd) :
        (s.sweepSession node).Expires x ↔ s.Expires x := by
      rw [Expires, Expires, isAlive_sweepSession_of_ne]
      rintro rfl
      exact hnodup.1 hx
    have hother (other : Endpoint × SessionId) (hmem : other ∈ rest) :
        (s.sweepSession node).Expires other.2 ↔ s.Expires other.2 :=
      hexpires _ (List.mem_map_of_mem hmem)
    rw [List.foldl_cons]
    refine ⟨?_, ?_, ?_, ?_, ?_⟩
    · intro x
      rw [hrest.isAlive]
      simp only [List.map_cons, List.mem_cons]
      by_cases hx : x = node.2
      · rw [if_neg (hx ▸ hnodup.1), if_pos (Or.inl hx), isAlive_sweepSession, hx,
          Function.update_self]
      · rw [isAlive_sweepSession_of_ne hx]
        simp only [hx, false_or]
    · intro other hmem hswept
      by_cases hlater : ∃ last ∈ rest, other.1 = last.1 ∧ (s.sweepSession node).Expires last.2
      · obtain ⟨last, hlast, hkey, hends⟩ := hlater
        rw [hkey]
        exact hrest.erased last hlast hends
      · have hkept := hrest.kept other.1 fun last hlast hkey hends ↦
          hlater ⟨last, hlast, hkey, hends⟩
        rcases List.mem_cons.mp hmem with rfl | hmem
        · rw [hkept, sessions_sweepSession, if_pos ⟨rfl, hswept⟩]
        · exact absurd ⟨other, hmem, rfl, (hother other hmem).mpr hswept⟩ hlater
    · intro key hkeep
      have hfirst : ¬ (key = node.1 ∧ s.Expires node.2) := fun h ↦
        hkeep node List.mem_cons_self h.1 h.2
      rw [hrest.kept, sessions_sweepSession, if_neg hfirst]
      intro other hmem hkey
      rw [hother other hmem]
      exact hkeep other (List.mem_cons_of_mem _ hmem) hkey
    · have hfilter : (rest.map Prod.snd).filter (s.sweepSession node).Expires =
          (rest.map Prod.snd).filter s.Expires :=
        List.filter_congr fun x hx ↦ decide_eq_decide.mpr (hexpires x hx)
      have hfirst : (if s.Expires node.2 then [node.2] else []) =
          [node.2].filter s.Expires := by
        by_cases hends : s.Expires node.2
        · simp [hends]
        · simp [hends]
      calc
        (rest.foldl sweepSession (s.sweepSession node)).disconnected =
            (s.sweepSession node).disconnected ++ (rest.map Prod.snd).filter s.Expires := by
          rw [hrest.disconnected, hfilter]
        _ = s.disconnected ++ ([node.2].filter s.Expires ++
              (rest.map Prod.snd).filter s.Expires) := by
          rw [disconnected_sweepSession, hfirst, List.append_assoc]
        _ = s.disconnected ++ ((node :: rest).map Prod.snd).filter s.Expires := by
          rw [← List.filter_append]
          rfl
    · refine hrest.deleted.trans ?_
      unfold sweepSession
      split
      all_goals rfl

theorem SessionsFiled.nodup_sessions (hs : s.SessionsFiled) : s.sessions.values.Nodup := by
  rw [List.nodup_iff_count_le_one]
  intro x
  have honce := hs.once x
  unfold total holders at honce
  omega

theorem SessionsFiled.nodup_disconnected (hs : s.SessionsFiled) : s.disconnected.Nodup := by
  rw [List.nodup_iff_count_le_one]
  intro x
  have honce := hs.once x
  unfold total holders at honce
  omega

/-- A session in the map is neither in the vector nor deleted. -/
theorem SessionsFiled.not_mem_of_session (hs : s.SessionsFiled) (hx : x ∈ s.sessions.values) :
    x ∉ s.disconnected ∧ x ∉ s.deleted := by
  have honce := hs.once x
  have hpos := List.count_pos_iff.mpr hx
  unfold total holders at honce
  constructor
  all_goals
    rw [← List.count_eq_zero]
    omega

theorem swept_sweep (hs : s.SessionsFiled) : s.Swept s.sessions.nodes s.sweep :=
  swept_foldl s.sessions.nodes s hs.nodup_sessions

/-- A session that does not expire stays in the map. -/
theorem mem_sessions_sweep (hs : s.SessionsFiled) :
    x ∈ s.sweep.sessions.values ↔ x ∈ s.sessions.values ∧ ¬ s.Expires x := by
  have hswept := swept_sweep hs
  have hnode (key : Endpoint) (hkey : s.sessions.find key = some x) :
      (key, x) ∈ s.sessions.nodes := OrderedMap.find_eq_some.mp hkey
  rw [OrderedMap.mem_values, OrderedMap.mem_values]
  constructor
  · rintro ⟨key, hkey⟩
    have hbefore := passedOn_sweep.sessions key x hkey
    refine ⟨⟨key, hbefore⟩, fun hexpires ↦ ?_⟩
    rw [hswept.erased (key, x) (hnode key hbefore) hexpires] at hkey
    cases hkey
  · rintro ⟨⟨key, hkey⟩, hexpires⟩
    refine ⟨key, ?_⟩
    rw [hswept.kept, hkey]
    rintro node hmem rfl
    have hsame : s.sessions.find node.1 = some node.2 := OrderedMap.find_eq_some.mpr hmem
    obtain rfl := Option.some.inj (hkey.symm.trans hsame)
    exact hexpires

/-! ## The drain -/

/-- What the rounds over some sessions do. -/
structure Drained (remaining : List SessionId) (s after : SessionTable) : Prop where
  isAlive : ∀ x, after.isAlive x = if x ∈ remaining then s.isAlive x + (-1) else s.isAlive x
  sessions : after.sessions = s.sessions
  disconnected : after.disconnected = s.disconnected ++ remaining.filter (¬ s.Ends ·)
  deleted : ∀ x, x ∈ after.deleted ↔ x ∈ s.deleted ∨ x ∈ remaining ∧ s.Ends x

theorem isAlive_drainSession (x : SessionId) :
    (s.drainSession x).isAlive = Function.update s.isAlive x (s.isAlive x + (-1)) := by
  unfold drainSession
  split
  all_goals rfl

theorem deleted_drainSession (x : SessionId) :
    (s.drainSession x).deleted = if s.Ends x then x :: s.deleted else s.deleted := by
  unfold drainSession
  split
  case isTrue hends => exact (if_pos hends).symm
  case isFalse hends => exact (if_neg hends).symm

theorem drained_foldl (remaining : List SessionId) (s : SessionTable) (hnodup : remaining.Nodup) :
    s.Drained remaining (remaining.foldl drainSession s) := by
  induction remaining generalizing s with
  | nil => exact ⟨fun _ ↦ rfl, rfl, by simp, fun _ ↦ by simp⟩
  | cons y rest ih =>
    obtain ⟨hy, hrestNodup⟩ := List.nodup_cons.mp hnodup
    have hrest := ih (s.drainSession y) hrestNodup
    have hends (x : SessionId) (hx : x ∈ rest) : (s.drainSession y).Ends x ↔ s.Ends x := by
      rw [Ends, Ends, isAlive_drainSession, Function.update_of_ne]
      rintro rfl
      exact hy hx
    have hfilter : rest.filter (¬ (s.drainSession y).Ends ·) = rest.filter (¬ s.Ends ·) :=
      List.filter_congr fun x hx ↦ decide_eq_decide.mpr (not_congr (hends x hx))
    have hdeleted (x : SessionId) : x ∈ rest ∧ (s.drainSession y).Ends x ↔ x ∈ rest ∧ s.Ends x :=
      and_congr_right (hends x)
    have halive (x : SessionId) : (rest.foldl drainSession (s.drainSession y)).isAlive x =
        if x ∈ y :: rest then s.isAlive x + (-1) else s.isAlive x := by
      rw [hrest.isAlive, isAlive_drainSession]
      simp only [List.mem_cons]
      by_cases hx : x = y
      · rw [if_neg (hx ▸ hy), if_pos (Or.inl hx), hx, Function.update_self]
      · rw [Function.update_of_ne hx]
        simp only [hx, false_or]
    rw [List.foldl_cons]
    by_cases hyends : s.Ends y
    · have hround : s.drainSession y = { s.addAlive y (-1) with
          events := .disconnect y :: s.events
          deleted := y :: s.deleted } := if_pos hyends
      refine ⟨halive, hrest.sessions.trans (by rw [hround]; rfl), ?_, ?_⟩
      · rw [hrest.disconnected, hfilter, hround, List.filter_cons_of_neg (by simpa using hyends)]
        rfl
      · intro x
        rw [hrest.deleted, hdeleted, hround]
        simp only [List.mem_cons]
        constructor
        · rintro ((rfl | hx) | ⟨hx, hxends⟩)
          · exact Or.inr ⟨Or.inl rfl, hyends⟩
          · exact Or.inl hx
          · exact Or.inr ⟨Or.inr hx, hxends⟩
        · rintro (hx | ⟨rfl | hx, hxends⟩)
          · exact Or.inl (Or.inr hx)
          · exact Or.inl (Or.inl rfl)
          · exact Or.inr ⟨hx, hxends⟩
    · have hround : s.drainSession y = { s.addAlive y (-1) with
          disconnected := s.disconnected ++ [y] } := if_neg hyends
      refine ⟨halive, hrest.sessions.trans (by rw [hround]; rfl), ?_, ?_⟩
      · rw [hrest.disconnected, hfilter, hround, List.filter_cons_of_pos (by simpa using hyends),
          List.append_assoc]
        rfl
      · intro x
        rw [hrest.deleted, hdeleted, hround, List.mem_cons]
        refine or_congr_right ⟨fun ⟨hx, hxends⟩ ↦ ⟨Or.inr hx, hxends⟩, ?_⟩
        rintro ⟨rfl | hx, hxends⟩
        · exact absurd hxends hyends
        · exact ⟨hx, hxends⟩

theorem drained_drain (hs : s.SessionsFiled) :
    Drained s.disconnected { s with disconnected := [] } s.drain :=
  drained_foldl s.disconnected { s with disconnected := [] } hs.nodup_disconnected

/-! ## The tick -/

/-- The drain leaves the map and the sessions in it as they are. -/
theorem mem_sessions_tick (hs : s.SessionsFiled) :
    x ∈ s.tick.sessions.values ↔ x ∈ s.sessions.values ∧ ¬ s.Expires x := by
  rw [tick, (drained_drain (passedOn_sweep.sessionsFiled hs)).sessions]
  exact mem_sessions_sweep hs

theorem isAlive_tick_of_mem (hs : s.SessionsFiled) (hx : x ∈ s.tick.sessions.values) :
    s.tick.isAlive x = s.isAlive x + (-1) := by
  have hsweep := passedOn_sweep.sessionsFiled hs
  obtain ⟨hmem, hstays⟩ := (mem_sessions_tick hs).mp hx
  have hswept : x ∈ s.sweep.sessions.values := (mem_sessions_sweep hs).mpr ⟨hmem, hstays⟩
  calc
    s.tick.isAlive x = s.sweep.isAlive x := by
      rw [tick, (drained_drain hsweep).isAlive, if_neg (hsweep.not_mem_of_session hswept).1]
    _ = s.isAlive x + (-1) := by
      rw [(swept_sweep hs).isAlive]
      exact if_pos hmem

theorem add_neg_one_eq_iff {value result : BitVec 16} :
    value + (-1) = result ↔ value = result + 1 := by
  constructor
  · rintro rfl
    rw [BitVec.add_assoc]
    exact (BitVec.add_zero value).symm
  · rintro rfl
    rw [BitVec.add_assoc]
    exact BitVec.add_zero result

theorem ends_iff : s.Ends x ↔ s.isAlive x = -2 := by
  rw [Ends, show (-3 : ℤ) = (-3 : BitVec 16).toInt from rfl, BitVec.toInt_inj, add_neg_one_eq_iff]
  rfl

/-- A session ends in the tick that brings its counter from -1, or from -2 in the vector, to -3. -/
theorem mem_deleted_tick (hs : s.SessionsFiled) : x ∈ s.tick.deleted ↔ x ∈ s.deleted ∨
    (x ∈ s.sessions.values ∧ s.isAlive x = -1) ∨ (x ∈ s.disconnected ∧ s.isAlive x = -2) := by
  have hswept := swept_sweep hs
  have hdrained := (drained_drain (passedOn_sweep.sessionsFiled hs)).deleted x
  have hends : s.sweep.Ends x ↔
      if x ∈ s.sessions.values then s.isAlive x = -1 else s.isAlive x = -2 := by
    rw [ends_iff, hswept.isAlive]
    by_cases hx : x ∈ s.sessions.values
    · rw [if_pos hx, if_pos (show x ∈ s.sessions.nodes.map Prod.snd from hx), add_neg_one_eq_iff]
      rfl
    · rw [if_neg hx, if_neg (show x ∉ s.sessions.nodes.map Prod.snd from hx)]
  have hmem : x ∈ s.sweep.disconnected ↔
      x ∈ s.disconnected ∨ (x ∈ s.sessions.values ∧ s.Expires x) := by
    rw [hswept.disconnected, List.mem_append, List.mem_filter, decide_eq_true_eq]
    rfl
  rw [tick, hdrained]
  change x ∈ s.sweep.deleted ∨ (x ∈ s.sweep.disconnected ∧ s.sweep.Ends x) ↔ _
  rw [hswept.deleted, hmem, hends]
  refine or_congr_right ?_
  by_cases hx : x ∈ s.sessions.values
  · have hnot := (hs.not_mem_of_session hx).1
    have hexpires (h : s.isAlive x = -1) : s.Expires x := by
      rw [Expires, h]
      decide
    simp only [hx, hnot, if_true, false_and, true_and, false_or, or_false]
    exact and_iff_right_of_imp hexpires
  · simp only [hx, if_false, false_and, or_false, false_or]

/-- No datagram but a SYN constructs a session, and none deletes one. -/
theorem receive_of_not_syn (s : SessionTable) (endpoint : Endpoint) {datagram : List UInt8}
    (hsyn : ¬ IsA .syn datagram) : (s.receive endpoint datagram).created = s.created ∧
      (s.receive endpoint datagram).deleted = s.deleted := by
  rcases receive_cases s endpoint datagram with ⟨h, -⟩ | ⟨-, hack⟩ | ⟨-, -, hquiet⟩
  · exact absurd h hsyn
  · rw [hack]
    unfold ack
    split
    all_goals exact ⟨rfl, rfl⟩
  · exact ⟨hquiet.created, hquiet.deleted⟩

end SessionTable

end ServerCore.UdpServer
