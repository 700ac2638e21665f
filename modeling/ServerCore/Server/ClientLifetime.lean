import Mathlib.Data.Fintype.Basic
import ServerCore.Server.IocpWork

/-!
# The lifetime of a client

A client is destroyed when the first of its disconnects completes, whatever else is outstanding: its
other contexts then point to freed memory, or to the next client at the address, and a second
disconnect removes that one. The main theorem says that neither happens in every run in which
`RemoveClient` destroys a client with no other operation outstanding, and a client is added while no
disconnect of an earlier client at its address is outstanding.
-/

namespace ServerCore.Server

open Foundation

/-- What may be left to do for a completion. -/
def IoType.stages : IoType → List (List ClientCall)
  | .accept => [[.addClient, .prepareReceive], [.prepareReceive], [.disconnect], []]
  | .recvReady => [[.receive], [.disconnect], []]
  | .recv => [[.postReceive, .prepareReceive], [.prepareReceive], [.disconnect], []]
  | .send => [[.postSend], [.disconnect], []]
  | .disconnect => [[.removeClient], []]

namespace IoType

theorem calls_mem_stages (t : IoType) (failed : Bool) : t.calls failed ∈ t.stages := by
  cases t <;> cases failed <;> decide

theorem eq_accept_of_mem (t : IoType) : ∀ todo ∈ t.stages, .addClient ∈ todo → t = .accept := by
  cases t <;> decide

/-- The next call is one of those made for this type, and what is left then is a later stage. -/
theorem next_stage (t : IoType) : ∀ todo ∈ t.stages, ∀ c ∈ todo.head?,
    todo.tail ∈ t.stages ∧ .addClient ∉ todo.tail ∧ (c = .removeClient ↔ t = .disconnect) ∧
      (c = .addClient → t = .accept) ∧
      (c = .prepareReceive ∨ c = .receive → todo.tail ++ [.disconnect] ∈ t.stages) := by
  cases t <;> decide

end IoType

namespace ServerState

variable {ι : Type}

/-- The operation is in flight, or its completion is being processed and calls are left. -/
def Outstanding (s : ServerState ι) (c : IoContext) : Prop :=
  c ∈ s.inFlight ∨ ∃ w, (s.worker w).todo ≠ [] ∧ (s.worker w).context = c

/-- The accept of a client that is not yet in `clients_` is outstanding. -/
def Unadded (s : ServerState ι) (c : IoContext) : Prop :=
  (c ∈ s.inFlight ∧ c.ioType = .accept) ∨
    ∃ w, .addClient ∈ (s.worker w).todo ∧ (s.worker w).context = c

/-- A call on a client finds the client of its context alive, and `RemoveClient` removes no other. -/
def CallsLive (s : ServerState ι) : ServerAction ι → Prop
  | .call w _ =>
    match (s.worker w).todo with
    | .prepareReceive :: _ | .receive :: _ | .postReceive :: _ | .postSend :: _
    | .disconnect :: _ =>
      s.client (s.worker w).context.client = some (s.worker w).context.incarnation
    | .removeClient :: _ => (s.worker w).context.client ∈ s.clients →
      s.client (s.worker w).context.client = some (s.worker w).context.incarnation
    | .addClient :: _ | [] => True
  | _ => True

/-- `RemoveClient` destroys a client when no accept, receive or send of it is outstanding, and
`AddClient` is called when no disconnect of an earlier client at the address is outstanding. -/
def Orderly (s : ServerState ι) : ServerAction ι → Prop
  | .call w _ =>
    match (s.worker w).todo with
    | .removeClient :: _ => (s.worker w).context.client ∈ s.clients →
      ∀ c, s.Outstanding c → c.ioType ≠ .disconnect → c.client ≠ (s.worker w).context.client
    | .addClient :: _ => ∀ c, s.Outstanding c → c.ioType = .disconnect →
      c.client = (s.worker w).context.client → c.incarnation = (s.worker w).context.incarnation
    | _ => True
  | _ => True

/-- What holds between the contexts, the client pool and `clients_` in orderly runs. -/
structure Owned (s : ServerState ι) : Prop where
  stages : ∀ w, (s.worker w).todo ∈ (s.worker w).context.ioType.stages
  live : ∀ c, s.Outstanding c → c.ioType ≠ .disconnect → s.client c.client = some c.incarnation
  listed : ∀ a ∈ s.clients, (s.client a).isSome = true
  current : ∀ c, s.Outstanding c → c.ioType = .disconnect → c.client ∈ s.clients →
    s.client c.client = some c.incarnation
  nodup : s.clients.Nodup
  unadded : ∀ c, s.Unadded c → c.client ∉ s.clients
  flights : s.inFlight.Pairwise fun c d ↦
    c.ioType = .accept → d.ioType = .accept → c.client ≠ d.client
  mixed : ∀ w, .addClient ∈ (s.worker w).todo → ∀ c ∈ s.inFlight, c.ioType = .accept →
    c.client ≠ (s.worker w).context.client
  adders : ∀ v w, .addClient ∈ (s.worker v).todo → .addClient ∈ (s.worker w).todo →
    (s.worker v).context.client = (s.worker w).context.client → v = w

variable {s after : ServerState ι}

theorem owned_initial : (initial ι).Owned where
  stages _ := by
    change [] ∈ IoType.stages .disconnect
    decide
  live c h := by simp [Outstanding, initial] at h
  listed := by simp [initial]
  current c h := by simp [Outstanding, initial] at h
  nodup := List.nodup_nil
  unadded c h := by simp [Unadded, initial] at h
  flights := List.Pairwise.nil
  mixed := by simp [initial]
  adders := by simp [initial]

theorem Owned.of_unadded {c : IoContext} (hs : s.Owned) (hc : s.Unadded c) :
    s.Outstanding c ∧ c.ioType = .accept := by
  rcases hc with ⟨hc, haccept⟩ | ⟨w, hw, rfl⟩
  · exact ⟨Or.inl hc, haccept⟩
  · exact ⟨Or.inr ⟨w, List.ne_nil_of_mem hw, rfl⟩,
      IoType.eq_accept_of_mem _ _ (hs.stages w) hw⟩

/-- Workers go on, and contexts are added. -/
theorem outstanding_of_posted {new : List IoContext} {c : IoContext}
    (hflight : after.inFlight = new ++ s.inFlight)
    (hcontext : ∀ w, (after.worker w).context = (s.worker w).context)
    (htodo : ∀ w, (after.worker w).todo ≠ [] → (s.worker w).todo ≠ [])
    (hc : after.Outstanding c) : c ∈ new ∨ s.Outstanding c := by
  rcases hc with hc | ⟨w, hw, rfl⟩
  · rw [hflight] at hc
    exact (List.mem_append.mp hc).imp_right Or.inl
  · exact Or.inr (Or.inr ⟨w, htodo w hw, (hcontext w).symm⟩)

/-- Contexts are added for living clients, none of them an accept, and workers go on. -/
theorem Owned.of_posted {new : List IoContext} (hs : s.Owned)
    (hclient : after.client = s.client) (hclients : after.clients = s.clients)
    (hflight : after.inFlight = new ++ s.inFlight)
    (hnew : ∀ c ∈ new, c.ioType ≠ .accept ∧ s.client c.client = some c.incarnation)
    (hstages : ∀ w, (after.worker w).todo ∈ (after.worker w).context.ioType.stages)
    (hworker : ∀ w, (after.worker w).context = (s.worker w).context ∧
      ((after.worker w).todo ≠ [] → (s.worker w).todo ≠ []) ∧
      (.addClient ∈ (after.worker w).todo → .addClient ∈ (s.worker w).todo)) : after.Owned := by
  have hcontext (w : ι) := (hworker w).1
  have hadder (w : ι) := (hworker w).2.2
  have hout (c : IoContext) (hc : after.Outstanding c) : c ∈ new ∨ s.Outstanding c :=
    outstanding_of_posted hflight hcontext (fun w ↦ (hworker w).2.1) hc
  have hold (c : IoContext) (hc : c ∈ after.inFlight) (haccept : c.ioType = .accept) :
      c ∈ s.inFlight := by
    rw [hflight] at hc
    rcases List.mem_append.mp hc with hc | hc
    · exact absurd haccept (hnew c hc).1
    · exact hc
  refine ⟨hstages, ?_, ?_, ?_, ?_, ?_, ?_, ?_, ?_⟩
  · intro c hc htype
    rw [hclient]
    rcases hout c hc with hc | hc
    · exact (hnew c hc).2
    · exact hs.live c hc htype
  · rw [hclients, hclient]
    exact hs.listed
  · intro c hc htype hmem
    rw [hclient]
    rw [hclients] at hmem
    rcases hout c hc with hc | hc
    · exact (hnew c hc).2
    · exact hs.current c hc htype hmem
  · rw [hclients]
    exact hs.nodup
  · intro c hc
    rw [hclients]
    apply hs.unadded c
    rcases hc with ⟨hc, haccept⟩ | ⟨w, hw, rfl⟩
    · exact Or.inl ⟨hold c hc haccept, haccept⟩
    · exact Or.inr ⟨w, hadder w hw, (hcontext w).symm⟩
  · rw [hflight]
    apply List.pairwise_append.mpr
    refine ⟨List.pairwise_of_forall_mem_list ?_, hs.flights, ?_⟩
    · intro c hc d _ haccept
      exact absurd haccept (hnew c hc).1
    · intro c hc d _ haccept
      exact absurd haccept (hnew c hc).1
  · intro w hw c hc haccept
    rw [hcontext w]
    exact hs.mixed w (hadder w hw) c (hold c hc haccept) haccept
  · intro v w hv hw heq
    rw [hcontext v, hcontext w] at heq
    exact hs.adders v w (hadder v hv) (hadder w hw) heq

/-- A client is constructed in a chunk in which none lives. -/
theorem owned_construct {a : ℕ} {new : List IoContext} (hs : s.Owned) (hfree : s.client a = none)
    (hnew : ∀ c ∈ new, c = ⟨.accept, a, s.numClients⟩) (honce : new.length ≤ 1)
    (hclient : ∀ b, b ≠ a → after.client b = s.client b)
    (hfirst : after.client a = some s.numClients) (hclients : after.clients = s.clients)
    (hflight : after.inFlight = new ++ s.inFlight) (hworker : after.worker = s.worker) :
    after.Owned := by
  have hlisted (b : ℕ) (hb : b ∈ s.clients) : b ≠ a := by
    intro heq
    have hsome := hs.listed b hb
    rw [heq, hfree] at hsome
    cases hsome
  have hlive (c : IoContext) (hc : s.Outstanding c) (htype : c.ioType ≠ .disconnect) :
      c.client ≠ a := by
    intro heq
    have hsome := hs.live c hc htype
    rw [heq, hfree] at hsome
    cases hsome
  have hout (c : IoContext) (hc : after.Outstanding c) : c ∈ new ∨ s.Outstanding c :=
    outstanding_of_posted hflight (fun w ↦ by rw [hworker]) (fun w ↦ by rw [hworker]; exact id) hc
  refine ⟨?_, ?_, ?_, ?_, ?_, ?_, ?_, ?_, ?_⟩
  · rw [hworker]
    exact hs.stages
  · intro c hc htype
    rcases hout c hc with hc | hc
    · rw [hnew c hc]
      exact hfirst
    · rw [hclient _ (hlive c hc htype)]
      exact hs.live c hc htype
  · rw [hclients]
    intro b hb
    rw [hclient b (hlisted b hb)]
    exact hs.listed b hb
  · intro c hc htype hmem
    rw [hclients] at hmem
    rcases hout c hc with hc | hc
    · rw [hnew c hc] at htype
      cases htype
    · rw [hclient _ (hlisted _ hmem)]
      exact hs.current c hc htype hmem
  · rw [hclients]
    exact hs.nodup
  · intro c hc hmem
    rw [hclients] at hmem
    rcases hc with ⟨hc, haccept⟩ | ⟨w, hw, rfl⟩
    · rw [hflight] at hc
      rcases List.mem_append.mp hc with hc | hc
      · rw [hnew c hc] at hmem
        exact hlisted a hmem rfl
      · exact hs.unadded c (Or.inl ⟨hc, haccept⟩) hmem
    · rw [hworker] at hw hmem
      exact hs.unadded _ (Or.inr ⟨w, hw, rfl⟩) hmem
  · rw [hflight]
    apply List.pairwise_append.mpr
    refine ⟨?_, hs.flights, ?_⟩
    · match new, honce with
      | [], _ => exact List.Pairwise.nil
      | [c], _ => exact List.pairwise_singleton _ c
    · intro c hc d hd _ haccept
      rw [hnew c hc]
      exact (hlive d (Or.inl hd) (by rw [haccept]; decide)).symm
  · rw [hworker]
    intro w hw c hc haccept
    rw [hflight] at hc
    rcases List.mem_append.mp hc with hc | hc
    · rw [hnew c hc]
      obtain ⟨hout, htype⟩ := hs.of_unadded (Or.inr ⟨w, hw, rfl⟩)
      exact (hlive _ hout (by rw [htype]; decide)).symm
    · exact hs.mixed w hw c hc haccept
  · rw [hworker]
    exact hs.adders

theorem mem_ite_singleton {accepted : Bool} {c new : IoContext}
    (h : c ∈ if accepted then [new] else []) : c = new := by
  cases accepted with
  | true => exact List.mem_singleton.mp h
  | false => cases h

/-! ## The steps -/

variable [DecidableEq ι]

omit [DecidableEq ι] in
theorem owned_newClient {a : ℕ} {accepted : Bool} (hs : s.Owned)
    (hstep : s.newClient a accepted = some after) : after.Owned := by
  obtain ⟨⟨hfree, -⟩, hafter⟩ := Option.ite_none_right_eq_some.mp hstep
  rw [← Option.some.inj hafter]
  have hnew (c : IoContext)
      (hc : c ∈ if accepted then [IoContext.mk .accept a s.numClients] else []) :
      c = ⟨.accept, a, s.numClients⟩ := mem_ite_singleton hc
  refine owned_construct hs hfree hnew ?_ ?_ (Function.update_self _ _ _) rfl rfl rfl
  · split
    all_goals simp
  · intro b hb
    exact Function.update_of_ne hb _ _

omit [DecidableEq ι] in
/-- The application operates on a client that lives. -/
theorem owned_operate {ioType : IoType} {a : ℕ} {accepted : Bool} (hs : s.Owned)
    (htype : ioType ≠ .accept) (hstep : s.operate ioType a accepted = some after) :
    after.Owned := by
  obtain ⟨incarnation, hclient, rfl⟩ := Option.map_eq_some_iff.mp hstep
  refine hs.of_posted rfl rfl rfl ?_ hs.stages (fun w ↦ ⟨rfl, id, id⟩)
  intro c hc
  rw [mem_ite_singleton hc]
  exact ⟨htype, hclient⟩

/-- A worker takes a completion. -/
theorem owned_dequeue {w : ι} {c : IoContext} {failed : Bool} (hs : s.Owned)
    (hstep : s.dequeue w c failed = some after) : after.Owned := by
  obtain ⟨⟨htodo, hmem⟩, hafter⟩ := Option.ite_none_right_eq_some.mp hstep
  rw [Option.some.injEq] at hafter
  have hself : after.worker w = ⟨c, c.ioType.calls failed⟩ := by
    rw [← hafter]
    exact Function.update_self _ _ _
  have hother (v : ι) (hv : v ≠ w) : after.worker v = s.worker v := by
    rw [← hafter]
    exact Function.update_of_ne hv _ _
  have hclient : after.client = s.client := by rw [← hafter]
  have hclients : after.clients = s.clients := by rw [← hafter]
  have hflight : after.inFlight = s.inFlight.erase c := by rw [← hafter]
  have hsub (d : IoContext) (hd : d ∈ after.inFlight) : d ∈ s.inFlight :=
    List.mem_of_mem_erase (hflight ▸ hd)
  have haccept (h : .addClient ∈ (after.worker w).todo) : c.ioType = .accept := by
    rw [hself] at h
    exact IoType.eq_accept_of_mem _ _ (IoType.calls_mem_stages _ _) h
  -- the accepts that stay in flight are for other clients
  have hrest (haccept : c.ioType = .accept) (d : IoContext) (hd : d ∈ after.inFlight)
      (hd' : d.ioType = .accept) : d.client ≠ c.client := by
    have hpairs := (List.perm_cons_erase hmem).pairwise hs.flights fun h hx hy ↦ (h hy hx).symm
    exact ((List.pairwise_cons.mp hpairs).1 d (hflight ▸ hd) haccept hd').symm
  have hout (d : IoContext) (hd : after.Outstanding d) : s.Outstanding d := by
    rcases hd with hd | ⟨v, hv, rfl⟩
    · exact Or.inl (hsub d hd)
    · by_cases hvw : v = w
      · rw [hvw, hself]
        exact Or.inl hmem
      · rw [hother v hvw] at hv ⊢
        exact Or.inr ⟨v, hv, rfl⟩
  refine ⟨?_, ?_, ?_, ?_, ?_, ?_, ?_, ?_, ?_⟩
  · intro v
    by_cases hvw : v = w
    · rw [hvw, hself]
      exact IoType.calls_mem_stages _ _
    · rw [hother v hvw]
      exact hs.stages v
  · rw [hclient]
    exact fun d hd ↦ hs.live d (hout d hd)
  · rw [hclients, hclient]
    exact hs.listed
  · rw [hclients, hclient]
    exact fun d hd ↦ hs.current d (hout d hd)
  · rw [hclients]
    exact hs.nodup
  · intro d hd
    rw [hclients]
    apply hs.unadded d
    rcases hd with ⟨hd, hd'⟩ | ⟨v, hv, rfl⟩
    · exact Or.inl ⟨hsub d hd, hd'⟩
    · by_cases hvw : v = w
      · rw [hvw] at hv ⊢
        rw [hself]
        exact Or.inl ⟨hmem, haccept hv⟩
      · rw [hother v hvw] at hv ⊢
        exact Or.inr ⟨v, hv, rfl⟩
  · rw [hflight]
    exact hs.flights.sublist List.erase_sublist
  · intro v hv d hd hd'
    by_cases hvw : v = w
    · rw [hvw] at hv ⊢
      rw [hself]
      exact hrest (haccept hv) d hd hd'
    · rw [hother v hvw] at hv ⊢
      exact hs.mixed v hv d (hsub d hd) hd'
  · intro u v hu hv heq
    by_cases huw : u = w
    · by_cases hvw : v = w
      · rw [huw, hvw]
      · rw [huw] at hu heq
        rw [hother v hvw] at hv heq
        rw [hself] at heq
        exact absurd heq (hs.mixed v hv c hmem (haccept hu))
    · by_cases hvw : v = w
      · rw [hvw] at hv heq
        rw [hother u huw] at hu heq
        rw [hself] at heq
        exact absurd heq.symm (hs.mixed u hu c hmem (haccept hv))
      · rw [hother u huw] at hu heq
        rw [hother v hvw] at hv heq
        exact hs.adders u v hu hv heq

theorem context_setTodo (w v : ι) (todo : List ClientCall) :
    ((s.setTodo w todo).worker v).context = (s.worker v).context := by
  by_cases hvw : v = w
  · simp [setTodo, hvw]
  · simp [setTodo, hvw]

theorem todo_setTodo (w v : ι) (todo : List ClientCall) :
    ((s.setTodo w todo).worker v).todo = if v = w then todo else (s.worker v).todo := by
  by_cases hvw : v = w
  · simp [setTodo, hvw]
  · simp [setTodo, hvw]

/-- A busy worker goes on, and may have posted an operation of its client. -/
theorem owned_setTodo {w : ι} {todo : List ClientCall} {new : List IoContext} (hs : s.Owned)
    (hbusy : (s.worker w).todo ≠ []) (hstage : todo ∈ (s.worker w).context.ioType.stages)
    (hadd : .addClient ∉ todo)
    (hnew : ∀ c ∈ new, c.ioType ≠ .accept ∧ s.client c.client = some c.incarnation) :
    Owned { s.setTodo w todo with inFlight := new ++ s.inFlight } := by
  refine hs.of_posted rfl rfl rfl hnew ?_ ?_
  · intro v
    change ((s.setTodo w todo).worker v).todo ∈ ((s.setTodo w todo).worker v).context.ioType.stages
    rw [context_setTodo, todo_setTodo]
    split
    · next hvw =>
      rw [hvw]
      exact hstage
    · exact hs.stages v
  · intro v
    change ((s.setTodo w todo).worker v).context = _ ∧
      (((s.setTodo w todo).worker v).todo ≠ [] → _) ∧
      (.addClient ∈ ((s.setTodo w todo).worker v).todo → _)
    rw [context_setTodo, todo_setTodo]
    split
    · next hvw =>
      rw [hvw]
      exact ⟨rfl, fun _ ↦ hbusy, fun h ↦ absurd h hadd⟩
    · exact ⟨rfl, id, id⟩

omit [DecidableEq ι] in
/-- The context of a busy worker is outstanding. -/
theorem outstanding_of_todo {w : ι} {c : ClientCall} {rest : List ClientCall}
    (htodo : (s.worker w).todo = c :: rest) : s.Outstanding (s.worker w).context :=
  Or.inr ⟨w, by simp [htodo], rfl⟩

theorem outstanding_of_setTodo {w : ι} {todo : List ClientCall} {c : IoContext}
    (hbusy : (s.worker w).todo ≠ []) (hc : (s.setTodo w todo).Outstanding c) :
    s.Outstanding c := by
  rcases hc with hc | ⟨v, hv, rfl⟩
  · exact Or.inl hc
  · rw [context_setTodo]
    rw [todo_setTodo] at hv
    split at hv
    · next hvw =>
      rw [hvw]
      exact Or.inr ⟨w, hbusy, rfl⟩
    · exact Or.inr ⟨v, hv, rfl⟩

omit [DecidableEq ι] in
/-- `AddClient` of a client that lives and has just been accepted. -/
theorem owned_addClient {a : ℕ} (hs : s.Owned) (hlive : (s.client a).isSome = true)
    (hnew : a ∉ s.clients) (hunadded : ∀ c, s.Unadded c → c.client ≠ a)
    (hcurrent : ∀ c, s.Outstanding c → c.ioType = .disconnect → c.client = a →
      s.client a = some c.incarnation) : (s.addClient a).Owned where
  stages := hs.stages
  live := hs.live
  listed := by
    intro b hb
    rcases List.mem_append.mp hb with hb | hb
    · exact hs.listed b hb
    · rw [List.mem_singleton.mp hb]
      exact hlive
  current := by
    intro c hc htype hmem
    rcases List.mem_append.mp hmem with hmem | hmem
    · exact hs.current c hc htype hmem
    · have hclient := List.mem_singleton.mp hmem
      have halive := hcurrent c hc htype hclient
      rwa [← hclient] at halive
  nodup := by
    apply List.nodup_append.mpr
    refine ⟨hs.nodup, List.nodup_singleton a, ?_⟩
    intro b hb d hd heq
    rw [heq, List.mem_singleton.mp hd] at hb
    exact hnew hb
  unadded := by
    intro c hc hmem
    rcases List.mem_append.mp hmem with hmem | hmem
    · exact hs.unadded c hc hmem
    · exact hunadded c hc (List.mem_singleton.mp hmem)
  flights := hs.flights
  mixed := hs.mixed
  adders := hs.adders

omit [DecidableEq ι] in
/-- `RemoveClient` of a client with no other operation outstanding. -/
theorem owned_removeClient {a : ℕ} (hs : s.Owned)
    (hlast : a ∈ s.clients → ∀ c, s.Outstanding c → c.ioType ≠ .disconnect → c.client ≠ a) :
    (s.removeClient a).Owned := by
  unfold removeClient
  split
  · next hmem =>
    have hother (b : ℕ) (hb : b ≠ a) : Function.update s.client a none b = s.client b :=
      Function.update_of_ne hb _ _
    have herase (b : ℕ) (hb : b ∈ s.clients.erase a) : b ≠ a ∧ b ∈ s.clients :=
      hs.nodup.mem_erase_iff.mp hb
    refine ⟨hs.stages, ?_, ?_, ?_, hs.nodup.erase a, ?_, hs.flights, hs.mixed, hs.adders⟩
    · intro c hc htype
      exact (hother _ (hlast hmem c hc htype)).trans (hs.live c hc htype)
    · intro b hb
      obtain ⟨hne, hb⟩ := herase b hb
      exact (congrArg Option.isSome (hother b hne)).trans (hs.listed b hb)
    · intro c hc htype hb
      obtain ⟨hne, hb⟩ := herase _ hb
      exact (hother _ hne).trans (hs.current c hc htype hb)
    · intro c hc hb
      exact hs.unadded c hc (herase _ hb).2
  · exact hs

/-- A worker calls `AddClient`. -/
theorem owned_call_addClient {w : ι} {rest : List ClientCall} (hs : s.Owned)
    (htodo : (s.worker w).todo = .addClient :: rest) (hafter : (s.setTodo w rest).Owned)
    (htype : (s.worker w).context.ioType = .accept) (hrest : .addClient ∉ rest)
    (horderly : ∀ c, s.Outstanding c → c.ioType = .disconnect →
      c.client = (s.worker w).context.client →
      c.incarnation = (s.worker w).context.incarnation) :
    ((s.setTodo w rest).addClient (s.worker w).context.client).Owned := by
  have hbusy : (s.worker w).todo ≠ [] := by simp [htodo]
  have hmem : .addClient ∈ (s.worker w).todo := by simp [htodo]
  have halive := hs.live _ (outstanding_of_todo htodo) (by rw [htype]; decide)
  refine owned_addClient hafter ?_ (hs.unadded _ (Or.inr ⟨w, hmem, rfl⟩)) ?_ ?_
  · exact Option.isSome_of_eq_some halive
  · intro c hc heq
    rcases hc with ⟨hc, haccept⟩ | ⟨v, hv, rfl⟩
    · exact hs.mixed w hmem c hc haccept heq
    · rw [context_setTodo] at heq
      rw [todo_setTodo] at hv
      split at hv
      · exact hrest hv
      · next hvw => exact hvw (hs.adders v w hv hmem heq)
  · intro c hc hdisconnect heq
    rw [horderly c (outstanding_of_setTodo hbusy hc) hdisconnect heq]
    exact halive

theorem owned_call {w : ι} {accepted : Bool} (hs : s.Owned)
    (horderly : s.Orderly (.call w accepted)) (hstep : s.call w accepted = some after) :
    after.Owned := by
  cases htodo : (s.worker w).todo with
  | nil => simp [call, htodo] at hstep
  | cons c rest =>
    have hbusy : (s.worker w).todo ≠ [] := by simp [htodo]
    have hnext := IoType.next_stage _ _ (hs.stages w) c (by rw [htodo]; rfl)
    rw [htodo, List.tail_cons] at hnext
    obtain ⟨hstage, hrest, hremove, hadd, hreceive⟩ := hnext
    have hnothing : ∀ d ∈ ([] : List IoContext), d.ioType ≠ .accept ∧
        s.client d.client = some d.incarnation := by simp
    have hplain : (s.setTodo w rest).Owned := owned_setTodo hs hbusy hstage hrest hnothing
    -- a call that may post an operation is made for a context whose client lives
    have hposted (ioType : IoType) (todo : List ClientCall) (hc : c ≠ .removeClient)
        (hioType : ioType ≠ .accept) (htodo' : todo ∈ (s.worker w).context.ioType.stages)
        (hnone : .addClient ∉ todo) : ((s.setTodo w todo).postOperation w ioType accepted).Owned := by
      have halive := hs.live _ (outstanding_of_todo htodo) (fun h ↦ hc (hremove.mpr h))
      unfold postOperation
      rw [context_setTodo]
      refine owned_setTodo hs hbusy htodo' hnone ?_
      intro d hd
      rw [mem_ite_singleton hd]
      exact ⟨hioType, halive⟩
    unfold call at hstep
    rw [htodo] at hstep
    cases c with
    | addClient =>
      simp only [Orderly, htodo] at horderly
      rw [← Option.some.inj hstep]
      exact owned_call_addClient hs htodo hplain (hadd rfl) hrest horderly
    | removeClient =>
      simp only [Orderly, htodo] at horderly
      rw [← Option.some.inj hstep]
      refine owned_removeClient hplain ?_
      intro hmem d hd hdisconnect
      exact horderly hmem d (outstanding_of_setTodo hbusy hd) hdisconnect
    | postReceive | postSend =>
      rw [← Option.some.inj hstep]
      exact hplain
    | disconnect =>
      rw [← Option.some.inj hstep]
      exact hposted .disconnect rest (by decide) (by decide) hstage hrest
    | prepareReceive | receive =>
      rw [← Option.some.inj hstep]
      refine hposted _ _ (by decide) (by decide) ?_ ?_
      · cases accepted
        · exact hreceive (by decide)
        · exact hstage
      · cases accepted
        · simpa using hrest
        · exact hrest

theorem owned_step {action : ServerAction ι} (hs : s.Owned) (horderly : s.Orderly action)
    (hstep : s.step action = some after) : after.Owned := by
  cases action with
  | newClient a accepted => exact owned_newClient hs hstep
  | dequeue w c failed => exact owned_dequeue hs hstep
  | call w accepted => exact owned_call hs horderly hstep
  | send a accepted => exact owned_operate hs (by decide) hstep
  | disconnect a accepted => exact owned_operate hs (by decide) hstep

omit [DecidableEq ι] in
/-- What the invariant is for. -/
theorem Owned.callsLive (hs : s.Owned) (action : ServerAction ι) : s.CallsLive action := by
  cases action with
  | newClient | dequeue | send | disconnect => trivial
  | call w accepted =>
    cases htodo : (s.worker w).todo with
    | nil => simp [CallsLive, htodo]
    | cons c rest =>
      have hnext := IoType.next_stage _ _ (hs.stages w) c (by rw [htodo]; rfl)
      have hremove := hnext.2.2.1
      have hout := outstanding_of_todo htodo
      cases c with
      | addClient => simp only [CallsLive, htodo]
      | removeClient =>
        simp only [CallsLive, htodo]
        exact hs.current _ hout (hremove.mp rfl)
      | prepareReceive | receive | postReceive | postSend | disconnect =>
        simp only [CallsLive, htodo]
        exact hs.live _ hout fun h ↦ absurd (hremove.mpr h) (by decide)

/-- **Client lifetime.** In an orderly run no completion makes a call on a client that has been
destroyed, and `RemoveClient` destroys only the client that its disconnect was issued for. -/
theorem callsLive_of_orderly {history : List (ServerState ι × ServerAction ι)}
    (hrun : (system ι).Run history s) (horderly : System.Obeys Orderly history) :
    System.Obeys CallsLive history := by
  refine hrun.obeys_of_invariant Owned ?_ ?_ ?_ horderly
  · intro start hstart
    subst hstart
    exact owned_initial
  · intro state action next hs hcondition hstep
    exact owned_step hs hcondition hstep
  · intro state action next hs _ _
    exact hs.callsLive action

/-- A client is accepted and receives, and its receive fails. -/
def disconnected : List (ServerAction (Fin 1)) :=
  [.newClient 0 true, .dequeue 0 ⟨.accept, 0, 0⟩ true, .call 0 true, .call 0 true,
    .dequeue 0 ⟨.recvReady, 0, 0⟩ true, .call 0 true, .dequeue 0 ⟨.recv, 0, 0⟩ true, .call 0 true]

/-- The client is removed while a send is outstanding, which then fails. -/
def abandoned : List (ServerAction (Fin 1)) :=
  disconnected.take 4 ++ [.send 0 true] ++ disconnected.drop 4 ++
    [.dequeue 0 ⟨.disconnect, 0, 0⟩ true, .call 0 true, .dequeue 0 ⟨.send, 0, 0⟩ true]

/-- The worker then calls `Disconnect` on the destroyed client. -/
theorem callsLive_fails :
    ¬ ∀ history s, (system (Fin 1)).Run history s → System.Obeys CallsLive history := by
  intro hclaim
  have hreplay : (System.replay step (initial (Fin 1)) abandoned).map
      (fun s ↦ decide ((s.step (.call 0 true)).isSome = true ∧
        (s.worker 0).todo = [.disconnect] ∧ s.client (s.worker 0).context.client = none)) =
          some true := by decide +kernel
  obtain ⟨history, s, hrun, htest⟩ := System.exists_run_of_replay
    (fun s ↦ s = initial (Fin 1)) rfl hreplay
  obtain ⟨henabled, htodo, hended⟩ := of_decide_eq_true htest
  obtain ⟨after, hstep⟩ := Option.isSome_iff_exists.mp henabled
  have hobeys := hclaim _ after (hrun.next hstep)
  rw [System.obeys_cons] at hobeys
  have hlive := hobeys.1
  simp only [CallsLive, htodo, hended, reduceCtorEq] at hlive

section Decidable

omit [DecidableEq ι]

theorem forall_outstanding_iff {property : IoContext → Prop} :
    (∀ c, s.Outstanding c → property c) ↔ (∀ c ∈ s.inFlight, property c) ∧
      ∀ w, (s.worker w).todo ≠ [] → property (s.worker w).context := by
  constructor
  · intro h
    exact ⟨fun c hc ↦ h c (Or.inl hc), fun w hw ↦ h _ (Or.inr ⟨w, hw, rfl⟩)⟩
  · rintro ⟨hflight, hworker⟩ c (hc | ⟨w, hw, rfl⟩)
    · exact hflight c hc
    · exact hworker w hw

variable [Fintype ι]

instance {property : IoContext → Prop} [DecidablePred property] :
    Decidable (∀ c, s.Outstanding c → property c) :=
  decidable_of_iff _ forall_outstanding_iff.symm

instance (action : ServerAction ι) : Decidable (s.Orderly action) :=
  match action with
  | .call w _ =>
    match h : (s.worker w).todo with
    | .removeClient :: _ => decidable_of_iff
      ((s.worker w).context.client ∈ s.clients →
        ∀ c, s.Outstanding c → c.ioType ≠ .disconnect → c.client ≠ (s.worker w).context.client)
      (by simp only [Orderly, h])
    | .addClient :: _ => decidable_of_iff
      (∀ c, s.Outstanding c → c.ioType = .disconnect →
        c.client = (s.worker w).context.client →
          c.incarnation = (s.worker w).context.incarnation)
      (by simp only [Orderly, h])
    | [] | .prepareReceive :: _ | .receive :: _ | .postReceive :: _ | .postSend :: _
    | .disconnect :: _ => isTrue (by simp only [Orderly, h])
  | .newClient _ _ | .dequeue _ _ _ | .send _ _ | .disconnect _ _ => isTrue trivial

end Decidable

/-- The client is removed, and the next one is placed at the same address. -/
def replaced : List (ServerAction (Fin 1)) :=
  disconnected ++ [.dequeue 0 ⟨.disconnect, 0, 0⟩ true, .call 0 true, .newClient 0 true,
    .dequeue 0 ⟨.accept, 0, 1⟩ true, .call 0 true]

/-- The main theorem applied to a run in which an address is used again. -/
theorem callsLive_of_orderly_applies :
    ∃ history s, (system (Fin 1)).Run history s ∧ s.clients = [0] ∧ s.client 0 = some 1 ∧
      System.Obeys CallsLive history := by
  have hreplay : (System.replay
      (fun s action ↦ if s.Orderly action then s.step action else none)
      (initial (Fin 1)) replaced).map
      (fun s ↦ decide (s.clients = [0] ∧ s.client 0 = some 1)) = some true := by decide +kernel
  obtain ⟨history, s, hrun, htest⟩ := System.exists_run_of_replay
    (fun s ↦ s = initial (Fin 1)) rfl hreplay
  obtain ⟨hclients, hclient⟩ := of_decide_eq_true htest
  obtain ⟨hrun, horderly⟩ := hrun.of_tested
  exact ⟨history, s, hrun, hclients, hclient, callsLive_of_orderly hrun horderly⟩

end ServerState

end ServerCore.Server
