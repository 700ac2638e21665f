import ServerCore.Foundation.Rounds
import ServerCore.UdpServer.SessionTable

/-!
# The order of the rounds of a tick

The sweep walks `sessions_` and the drain walks `disconnected`, each round about one session. `Alike`
says of two tables that they differ at most in the order of the vector, in that of the sessions deleted
and in that of the calls of `dhandler_` among each other. The rounds respect it, and two rounds about
different sessions may be exchanged. So a tick that walks the sessions in any order ends in a table
alike.
-/

namespace ServerCore.UdpServer

open Foundation

/-- What a reply, a handler thread that was started or a call of `dhandler_` says. -/
def TableEvent.replied : TableEvent → Option (Endpoint × Packet)
  | .reply endpoint answer => some (endpoint, answer)
  | .accept _ _ | .packet _ _ | .disconnect _ => none

def TableEvent.accepted : TableEvent → Option SessionId
  | .accept session _ => some session
  | .reply _ _ | .packet _ _ | .disconnect _ => none

def TableEvent.delivered : TableEvent → Option (SessionId × Packet)
  | .packet session content => some (session, content)
  | .reply _ _ | .accept _ _ | .disconnect _ => none

def TableEvent.disconnected : TableEvent → Option SessionId
  | .disconnect session => some session
  | .reply _ _ | .accept _ _ | .packet _ _ => none

namespace SessionTable

variable {s t : SessionTable}

/-- The tables differ at most in the order of what a tick does. -/
structure Alike (s t : SessionTable) : Prop where
  isAlive : s.isAlive = t.isAlive
  created : s.created = t.created
  pendingSessions : s.pendingSessions = t.pendingSessions
  sessions : s.sessions = t.sessions
  disconnected : s.disconnected.Perm t.disconnected
  deleted : s.deleted.Perm t.deleted
  replied : s.events.filterMap TableEvent.replied = t.events.filterMap TableEvent.replied
  accepted : s.events.filterMap TableEvent.accepted = t.events.filterMap TableEvent.accepted
  delivered : s.events.filterMap TableEvent.delivered = t.events.filterMap TableEvent.delivered
  disconnects : (s.events.filterMap TableEvent.disconnected).Perm
    (t.events.filterMap TableEvent.disconnected)

theorem Alike.refl (s : SessionTable) : s.Alike s :=
  ⟨rfl, rfl, rfl, rfl, .refl _, .refl _, rfl, rfl, rfl, .refl _⟩

theorem Alike.trans {u : SessionTable} (hfirst : s.Alike t) (hsecond : t.Alike u) : s.Alike u where
  isAlive := hfirst.isAlive.trans hsecond.isAlive
  created := hfirst.created.trans hsecond.created
  pendingSessions := hfirst.pendingSessions.trans hsecond.pendingSessions
  sessions := hfirst.sessions.trans hsecond.sessions
  disconnected := hfirst.disconnected.trans hsecond.disconnected
  deleted := hfirst.deleted.trans hsecond.deleted
  replied := hfirst.replied.trans hsecond.replied
  accepted := hfirst.accepted.trans hsecond.accepted
  delivered := hfirst.delivered.trans hsecond.delivered
  disconnects := hfirst.disconnects.trans hsecond.disconnects

instance : Std.Refl Alike :=
  ⟨Alike.refl⟩

instance : IsTrans SessionTable Alike :=
  ⟨fun _ _ _ ↦ Alike.trans⟩

/-! ## The sweep -/

/-- What a round of the sweep does behind the decrement. -/
def test (s : SessionTable) (node : Endpoint × SessionId) : SessionTable :=
  if (s.isAlive node.2).toInt < -1 then
    { s with
      disconnected := s.disconnected ++ [node.2]
      sessions := s.sessions.erase node.1 }
  else s

theorem sweepSession_eq (s : SessionTable) (node : Endpoint × SessionId) :
    s.sweepSession node = (s.addAlive node.2 (-1)).test node := by
  unfold sweepSession test
  simp only [addAlive, Function.update_self]

theorem Alike.addAlive (h : s.Alike t) (x : SessionId) (change : BitVec 16) :
    (s.addAlive x change).Alike (t.addAlive x change) where
  isAlive := by
    change Function.update s.isAlive x _ = Function.update t.isAlive x _
    rw [h.isAlive]
  created := h.created
  pendingSessions := h.pendingSessions
  sessions := h.sessions
  disconnected := h.disconnected
  deleted := h.deleted
  replied := h.replied
  accepted := h.accepted
  delivered := h.delivered
  disconnects := h.disconnects

theorem Alike.test (h : s.Alike t) (node : Endpoint × SessionId) : (s.test node).Alike (t.test node) := by
  unfold SessionTable.test
  rw [congrFun h.isAlive node.2]
  split
  · exact { h with
      sessions := by rw [h.sessions]
      disconnected := h.disconnected.append_right _ }
  · exact h

theorem Alike.sweepSession (h : s.Alike t) (node : Endpoint × SessionId) :
    (s.sweepSession node).Alike (t.sweepSession node) := by
  rw [sweepSession_eq, sweepSession_eq]
  exact (h.addAlive node.2 (-1)).test node

theorem addAlive_comm {x y : SessionId} (hne : x ≠ y) (first second : BitVec 16) :
    (s.addAlive x first).addAlive y second = (s.addAlive y second).addAlive x first := by
  unfold addAlive
  simp only [Function.update_of_ne hne, Function.update_of_ne hne.symm]
  rw [Function.update_comm hne]

theorem test_addAlive {node : Endpoint × SessionId} {y : SessionId} (hne : node.2 ≠ y)
    (change : BitVec 16) : (s.addAlive y change).test node = (s.test node).addAlive y change := by
  have halive : (s.addAlive y change).isAlive node.2 = s.isAlive node.2 :=
    Function.update_of_ne hne _ _
  unfold test
  rw [halive]
  split
  all_goals rfl

/-- Two tests may be exchanged. -/
theorem alike_test_test (s : SessionTable) (a b : Endpoint × SessionId) :
    ((s.test a).test b).Alike ((s.test b).test a) := by
  by_cases ha : (s.isAlive a.2).toInt < -1
  · by_cases hb : (s.isAlive b.2).toInt < -1
    · simp only [test, if_pos ha, if_pos hb]
      exact { Alike.refl s with
        sessions := by
          simp only [OrderedMap.erase, OrderedMap.mk.injEq]
          exact List.filter_comm _ _ _
        disconnected := by
          rw [List.append_assoc, List.append_assoc]
          exact (List.Perm.swap b.2 a.2 []).append_left _ }
    · simp only [test, if_pos ha, if_neg hb]
      exact .refl _
  · by_cases hb : (s.isAlive b.2).toInt < -1
    · simp only [test, if_neg ha, if_pos hb]
      exact .refl _
    · simp only [test, if_neg ha, if_neg hb]
      exact .refl _

theorem alike_sweepSession_sweepSession (s : SessionTable) {a b : Endpoint × SessionId}
    (hne : a.2 ≠ b.2) :
    ((s.sweepSession a).sweepSession b).Alike ((s.sweepSession b).sweepSession a) := by
  have hfirst : (s.sweepSession a).sweepSession b =
      (((s.addAlive a.2 (-1)).addAlive b.2 (-1)).test a).test b := by
    rw [sweepSession_eq, sweepSession_eq, test_addAlive hne]
  have hsecond : (s.sweepSession b).sweepSession a =
      (((s.addAlive a.2 (-1)).addAlive b.2 (-1)).test b).test a := by
    rw [sweepSession_eq, sweepSession_eq, addAlive_comm hne, test_addAlive hne.symm]
  rw [hfirst, hsecond]
  exact alike_test_test _ a b

/-! ## The drain -/

/-- What a round of the drain does behind the decrement. -/
def settle (s : SessionTable) (x : SessionId) : SessionTable :=
  if (s.isAlive x).toInt = -3 then
    { s with
      events := .disconnect x :: s.events
      deleted := x :: s.deleted }
  else { s with disconnected := s.disconnected ++ [x] }

theorem drainSession_eq (s : SessionTable) (x : SessionId) :
    s.drainSession x = (s.addAlive x (-1)).settle x := by
  unfold drainSession settle
  simp only [addAlive, Function.update_self]

theorem Alike.settle (h : s.Alike t) (x : SessionId) : (s.settle x).Alike (t.settle x) := by
  unfold SessionTable.settle
  rw [congrFun h.isAlive x]
  split
  · exact { h with
      deleted := h.deleted.cons x
      replied := h.replied
      accepted := h.accepted
      delivered := h.delivered
      disconnects := h.disconnects.cons x }
  · exact { h with disconnected := h.disconnected.append_right _ }

theorem Alike.drainSession (h : s.Alike t) (x : SessionId) :
    (s.drainSession x).Alike (t.drainSession x) := by
  rw [drainSession_eq, drainSession_eq]
  exact (h.addAlive x (-1)).settle x

theorem settle_addAlive {x y : SessionId} (hne : x ≠ y) (change : BitVec 16) :
    (s.addAlive y change).settle x = (s.settle x).addAlive y change := by
  have halive : (s.addAlive y change).isAlive x = s.isAlive x := Function.update_of_ne hne _ _
  unfold settle
  rw [halive]
  split
  all_goals rfl

theorem alike_settle_settle (s : SessionTable) (x y : SessionId) :
    ((s.settle x).settle y).Alike ((s.settle y).settle x) := by
  by_cases hx : (s.isAlive x).toInt = -3
  · by_cases hy : (s.isAlive y).toInt = -3
    · simp only [settle, if_pos hx, if_pos hy]
      exact { Alike.refl s with
        deleted := List.Perm.swap _ _ _
        replied := rfl
        accepted := rfl
        delivered := rfl
        disconnects := List.Perm.swap _ _ _ }
    · simp only [settle, if_pos hx, if_neg hy]
      exact .refl _
  · by_cases hy : (s.isAlive y).toInt = -3
    · simp only [settle, if_neg hx, if_pos hy]
      exact .refl _
    · simp only [settle, if_neg hx, if_neg hy]
      exact { Alike.refl s with
        disconnected := by
          rw [List.append_assoc, List.append_assoc]
          exact (List.Perm.swap y x []).append_left _ }

theorem alike_drainSession_drainSession (s : SessionTable) (x y : SessionId) :
    ((s.drainSession x).drainSession y).Alike ((s.drainSession y).drainSession x) := by
  by_cases hne : x = y
  · rw [hne]
    exact .refl _
  have hfirst : (s.drainSession x).drainSession y =
      (((s.addAlive x (-1)).addAlive y (-1)).settle x).settle y := by
    rw [drainSession_eq, drainSession_eq, settle_addAlive hne]
  have hsecond : (s.drainSession y).drainSession x =
      (((s.addAlive x (-1)).addAlive y (-1)).settle y).settle x := by
    rw [drainSession_eq, drainSession_eq, addAlive_comm hne, settle_addAlive (Ne.symm hne)]
  rw [hfirst, hsecond]
  exact alike_settle_settle _ x y

/-- The drain of a vector in any order. -/
theorem Alike.foldl_drainSession {remaining permuted : List SessionId} (h : s.Alike t)
    (hperm : remaining.Perm permuted) :
    (remaining.foldl SessionTable.drainSession s).Alike (permuted.foldl SessionTable.drainSession t) :=
  foldl_related_of_perm (fun x _ _ hst ↦ hst.drainSession x)
    (fun x _ y _ state ↦ alike_drainSession_drainSession state x y) hperm h

theorem Alike.drain (h : s.Alike t) : s.drain.Alike t.drain := by
  have hempty : ({ s with disconnected := [] } : SessionTable).Alike { t with disconnected := [] } :=
    { h with disconnected := .refl _ }
  exact hempty.foldl_drainSession h.disconnected

/-- A tick that walks the map in another order. -/
theorem alike_tick {nodes : List (Endpoint × SessionId)} (hperm : s.sessions.nodes.Perm nodes)
    (hnodup : (nodes.map Prod.snd).Nodup) : s.tick.Alike (nodes.foldl sweepSession s).drain := by
  apply Alike.drain
  apply foldl_related_of_perm (fun node _ _ hst ↦ hst.sweepSession node) _ hperm (Alike.refl s)
  intro a ha b hb state
  by_cases hsame : a.2 = b.2
  · rw [List.inj_on_of_nodup_map hnodup (hperm.mem_iff.mp ha) (hperm.mem_iff.mp hb) hsame]
    exact .refl _
  · exact alike_sweepSession_sweepSession state hsame

end SessionTable

end ServerCore.UdpServer
