import ServerCore.MemoryPool.ObjectPoolThreads
import ServerCore.UdpServer.TickEffect

/-!
# The memory of the sessions

A SYN constructs a session in a chunk that the worker takes from `session_pool_`. The tick that ends a
session passes the pointer to `delete`, which runs the destructor and calls the global `operator
delete`. What that makes of a chunk is undefined and not modelled. The main theorem says that the
chunks of `session_pool_` are accounted for exactly in the runs in which no session ends.
-/

namespace ServerCore.UdpServer

open Foundation MemoryPool

/-- What takes the memory of a session back. -/
inductive Deallocator
  | sessionPool
  | operatorDelete
  deriving DecidableEq, Repr

/-- The sessions with `session_pool_`. `chunk` says where a session is constructed, and `destroyed` and
`released` what became of those that ended. -/
structure SessionMemory (ι : Type) where
  table : SessionTable
  pool : ObjectPool ι
  chunk : SessionId → ℕ
  destroyed : List SessionId
  released : List (SessionId × Deallocator)

/-- `image` is what the constructor writes, and `write` is what anybody writes into a session later. -/
inductive MemoryAction (ι : Type)
  | receive (worker : ι) (endpoint : Endpoint) (datagram : List UInt8) (answer : Answer)
      (image : List UInt8)
  | tick
  | write (session : SessionId) (offset : ℕ) (data : List UInt8)

namespace SessionMemory

variable {ι : Type}

def initial (ι : Type) (heap : Heap) : SessionMemory ι where
  table := .initial
  pool := .initial ι heap
  chunk _ := 0
  destroyed := []
  released := []

/-- The session was constructed and has not ended. -/
def Lives (s : SessionMemory ι) (x : SessionId) : Prop :=
  s.table.Constructed x ∧ x ∉ s.table.deleted

/-! ## The steps -/

section Steps

variable [DecidableEq ι] (o : Instantiation)

/-- `new(session_pool_.Malloc()) Session(...)`, and the rest of the SYN branch. -/
def syn (s : SessionMemory ι) (w : ι) (endpoint : Endpoint) (datagram : List UInt8)
    (answer : Answer) (image : List UInt8) : Except Fault (SessionMemory ι) := do
  let (ret, pool) ← s.pool.malloc o w answer
  return { s with
    table := s.table.syn endpoint datagram
    pool := pool.overwrite ret image
    chunk := Function.update s.chunk (s.table.newSession endpoint) ret }

def receive (s : SessionMemory ι) (w : ι) (endpoint : Endpoint) (datagram : List UInt8)
    (answer : Answer) (image : List UInt8) : Except Fault (SessionMemory ι) :=
  if SessionTable.IsA .syn datagram then s.syn o w endpoint datagram answer image
  else return { s with table := s.table.receive endpoint datagram }

/-- One round of the loop over `disconnected`, with `delete (*session)` for a session that ends. -/
def drainSession (s : SessionMemory ι) (x : SessionId) : SessionMemory ι :=
  if s.table.Ends x then
    { s with
      table := s.table.drainSession x
      destroyed := x :: s.destroyed
      released := (x, .operatorDelete) :: s.released }
  else { s with table := s.table.drainSession x }

def tick (s : SessionMemory ι) : SessionMemory ι :=
  s.table.sweep.disconnected.foldl drainSession
    { s with table := { s.table.sweep with disconnected := [] } }

/-- A session is written. -/
def write (s : SessionMemory ι) (x : SessionId) (offset : ℕ) (data : List UInt8) :
    SessionMemory ι :=
  { s with pool := s.pool.overwrite (s.chunk x + offset) data }

/-- `::malloc` answers with fresh blocks, and only the bytes of living sessions are written. -/
def Allowed (s : SessionMemory ι) : MemoryAction ι → Prop
  | .receive w _ datagram answer image => SessionTable.IsA .syn datagram →
    s.pool.FreshFor o w answer ∧ image.length ≤ o.sizeofT
  | .tick => True
  | .write x offset data => s.Lives x ∧ offset + data.length ≤ o.sizeofT

def perform (s : SessionMemory ι) : MemoryAction ι → Except Fault (SessionMemory ι)
  | .receive w endpoint datagram answer image => s.receive o w endpoint datagram answer image
  | .tick => .ok s.tick
  | .write x offset data => .ok (s.write x offset data)

/-- All runs of datagrams and ticks, until the first undefined behaviour of the pool. -/
def system (ι : Type) [DecidableEq ι] (o : Instantiation) :
    System (SessionMemory ι) (MemoryAction ι) where
  init s := ∃ heap, s = initial ι heap
  step s action after := s.Allowed o action ∧ s.perform o action = .ok after

end Steps

/-! ## What is claimed of the pool -/

/-- With free lists `free`: every chunk of the pool is on one list or holds one living session. -/
structure Partitioned (o : Instantiation) (s : SessionMemory ι) (free : ℕ → List ℕ) : Prop where
  lists : ∀ id pool, s.pool.objectPoolArray id = some pool →
    pool.FreeList o.platform s.pool.heap (free id)
  noList : ∀ id, s.pool.objectPoolArray id = none → free id = []
  complete : ∀ c, (∃ id pool, s.pool.objectPoolArray id = some pool ∧ c ∈ pool.chunks o.platform) ↔
    (∃ id, c ∈ free id) ∨ ∃ x, s.Lives x ∧ s.chunk x = c
  oneList : ∀ id other c, c ∈ free id → c ∈ free other → id = other
  notBoth : ∀ id x, s.Lives x → s.chunk x ∉ free id
  oneSession : ∀ x y, s.Lives x → s.Lives y → s.chunk x = s.chunk y → x = y

/-- A session that has ended was destroyed once and given back to its pool once, and to nothing else,
and the chunks of the pool are accounted for. -/
structure Returned (o : Instantiation) (s : SessionMemory ι) : Prop where
  ended : ∀ x ∈ s.table.deleted, s.destroyed.count x = 1 ∧
    s.released.filter (fun entry ↦ entry.1 = x) = [(x, .sessionPool)]
  partition : ∃ free, s.Partitioned o free

/-- The tick ends no session: none in the map has a counter of -1, and none in the vector of -2. -/
def NoneEnds (s : SessionMemory ι) : MemoryAction ι → Prop
  | .tick => (∀ x ∈ s.table.sessions.values, s.table.isAlive x ≠ -1) ∧
    ∀ x ∈ s.table.disconnected, s.table.isAlive x ≠ -2
  | .receive _ _ _ _ _ | .write _ _ _ => True

/-! ## While no session has ended -/

/-- No session has ended, and the chunks in use of the pool hold the sessions. -/
structure Sound (o : Instantiation) (s : SessionMemory ι) : Prop where
  filed : s.table.SessionsFiled
  deleted : s.table.deleted = []
  released : s.released = []
  owned : ∃ free, s.pool.Owned o free
  held : ∀ c, s.pool.Live c ↔ ∃ x, s.table.Constructed x ∧ s.chunk x = c
  apart : ∀ x y, s.table.Constructed x → s.table.Constructed y → s.chunk x = s.chunk y → x = y

variable {o : Instantiation} {s after : SessionMemory ι}

theorem sound_initial (heap : Heap) : (initial ι heap).Sound o where
  filed := SessionTable.sessionsFiled_initial
  deleted := rfl
  released := rfl
  owned := ⟨_, ObjectPool.identified_initial heap, ObjectPool.shared_initial heap⟩
  held c := by
    simp [initial, ObjectPool.Live, ObjectPool.initial, SessionTable.Constructed,
      SessionTable.initial]
  apart x y hx := by simp [initial, SessionTable.Constructed, SessionTable.initial] at hx

theorem Sound.lives_iff (hs : s.Sound o) {x : SessionId} :
    s.Lives x ↔ s.table.Constructed x := by
  rw [Lives, hs.deleted]
  exact and_iff_left List.not_mem_nil

/-- The chunks of the pool are on its lists or live, and those that live hold sessions. -/
theorem Sound.returned (hs : s.Sound o) : s.Returned o := by
  obtain ⟨free, howned⟩ := hs.owned
  have hown := howned.ownership
  refine ⟨?_, free, hown.lists, hown.noList, ?_, hown.oneList, ?_, ?_⟩
  · rw [hs.deleted]
    exact fun x hx ↦ absurd hx List.not_mem_nil
  · intro c
    have hlive : (∃ x, s.Lives x ∧ s.chunk x = c) ↔ s.pool.Live c := by
      rw [hs.held]
      exact exists_congr fun x ↦ and_congr_left fun _ ↦ hs.lives_iff
    rw [hlive]
    constructor
    · rintro ⟨id, pool, hpool, hc⟩
      exact ((hown.complete id pool hpool c).mp hc).imp (⟨id, ·⟩) (⟨id, ·⟩)
    · have hpool (id : ℕ) (hc : c ∈ free id ∨ c ∈ s.pool.live id) :
          ∃ pool, s.pool.objectPoolArray id = some pool := by
        refine Option.ne_none_iff_exists'.mp fun hnone ↦ ?_
        have habsent := howned.2.absent id hnone
        rw [habsent.1, habsent.2] at hc
        exact hc.elim List.not_mem_nil List.not_mem_nil
      have hchunk (id : ℕ) (hc : c ∈ free id ∨ c ∈ s.pool.live id) :
          ∃ id pool, s.pool.objectPoolArray id = some pool ∧ c ∈ pool.chunks o.platform := by
        obtain ⟨pool, hsome⟩ := hpool id hc
        exact ⟨id, pool, hsome, (hown.complete id pool hsome c).mpr hc⟩
      rintro (⟨id, hc⟩ | ⟨id, hc⟩)
      · exact hchunk id (Or.inl hc)
      · exact hchunk id (Or.inr hc)
  · intro id x hx hc
    obtain ⟨other, hlive⟩ := (hs.held _).mpr ⟨x, hs.lives_iff.mp hx, rfl⟩
    exact hown.notBoth id other _ hc hlive
  · exact fun x y hx hy ↦ hs.apart x y (hs.lives_iff.mp hx) (hs.lives_iff.mp hy)

/-- A step that constructs no session and ends none. -/
theorem Sound.of_table (hs : s.Sound o) (hfiled : after.table.SessionsFiled)
    (hcreated : after.table.created = s.table.created)
    (hdeleted : after.table.deleted = s.table.deleted) (hreleased : after.released = s.released)
    (howned : ∃ free, after.pool.Owned o free) (hlive : after.pool.live = s.pool.live)
    (hchunk : after.chunk = s.chunk) : after.Sound o where
  filed := hfiled
  deleted := hdeleted.trans hs.deleted
  released := hreleased.trans hs.released
  owned := howned
  held := by
    intro c
    rw [ObjectPool.Live, hlive, hchunk]
    simp only [SessionTable.Constructed, hcreated]
    exact hs.held c
  apart := by
    rw [hchunk]
    simp only [SessionTable.Constructed, hcreated]
    exact hs.apart

variable [DecidableEq ι]

/-- A SYN constructs its session in a chunk that no session has. -/
theorem sound_syn {w : ι} {endpoint : Endpoint} {datagram image : List UInt8} {answer : Answer}
    (hs : s.Sound o) (hfresh : s.pool.FreshFor o w answer) (hroom : image.length ≤ o.sizeofT)
    (hstep : s.syn o w endpoint datagram answer image = .ok after) : after.Sound o := by
  cases hmalloc : s.pool.malloc o w answer with
  | error fault =>
    simp only [syn, hmalloc, bind, Except.bind] at hstep
    cases hstep
  | ok result =>
    obtain ⟨ret, pool⟩ := result
    simp only [syn, hmalloc, bind, Except.bind, pure, Except.pure] at hstep
    rw [← Except.ok.inj hstep]
    obtain ⟨free, howned⟩ := hs.owned
    have hperform : s.pool.perform o (.malloc w answer) = .ok (ret, pool) := hmalloc
    have hspace := ObjectPool.hasRoom_of_perform hperform w rfl
    obtain ⟨free', hobtained⟩ := ObjectPool.malloc_spec howned hspace hfresh hmalloc
    have hlive := ObjectPool.live_malloc hmalloc
    have hnew : ¬ s.pool.Live ret := by
      rintro ⟨id, hid⟩
      exact hobtained.notLive id hid
    have hliveIff (c : ℕ) : pool.Live c ↔ c = ret ∨ s.pool.Live c := by
      simp only [ObjectPool.Live, hlive, Function.update_apply]
      constructor
      · rintro ⟨id, hid⟩
        split at hid
        case isTrue =>
          rcases List.mem_cons.mp hid with rfl | hid
          · exact Or.inl rfl
          · exact Or.inr ⟨_, hid⟩
        case isFalse => exact Or.inr ⟨id, hid⟩
      · rintro (rfl | ⟨id, hid⟩)
        · exact ⟨pool.threadId w, by rw [if_pos rfl]; exact List.mem_cons_self⟩
        · refine ⟨id, ?_⟩
          split
          case isTrue heq => exact List.mem_cons_of_mem _ (heq ▸ hid)
          case isFalse => exact hid
    have hchunk (x : SessionId) (hx : s.table.Constructed x) :
        Function.update s.chunk (s.table.newSession endpoint) ret x = s.chunk x := by
      apply Function.update_of_ne
      rintro rfl
      simp [SessionTable.Constructed, SessionTable.newSession] at hx
    have hother (x : SessionId) (hx : s.table.Constructed x) : s.chunk x ≠ ret := by
      intro heq
      exact hnew ((hs.held ret).mpr ⟨x, hx, heq⟩)
    refine ⟨SessionTable.sessionsFiled_syn hs.filed, hs.deleted, hs.released, ?_, ?_, ?_⟩
    · have hstart : 0 + image.length ≤ o.requestedSize := by
        rw [Nat.zero_add]
        exact hroom.trans o.fits
      exact ⟨free', hobtained.owned.overwrite hobtained.live hstart⟩
    · intro c
      change pool.Live c ↔ _
      rw [hliveIff, hs.held]
      simp only [SessionTable.constructed_syn]
      constructor
      · rintro (rfl | ⟨x, hx, rfl⟩)
        · exact ⟨_, Or.inl rfl, Function.update_self _ _ _⟩
        · exact ⟨x, Or.inr hx, hchunk x hx⟩
      · rintro ⟨x, rfl | hx, rfl⟩
        · exact Or.inl (Function.update_self _ _ _)
        · exact Or.inr ⟨x, hx, (hchunk x hx).symm⟩
    · intro x y hx hy heq
      rw [SessionTable.constructed_syn] at hx hy
      change Function.update s.chunk _ ret x = Function.update s.chunk _ ret y at heq
      rcases hx with rfl | hx
      · rcases hy with rfl | hy
        · rfl
        · rw [Function.update_self, hchunk y hy] at heq
          exact absurd heq.symm (hother y hy)
      · rcases hy with rfl | hy
        · rw [Function.update_self, hchunk x hx] at heq
          exact absurd heq (hother x hx)
        · rw [hchunk x hx, hchunk y hy] at heq
          exact hs.apart x y hx hy heq

theorem sound_receive {w : ι} {endpoint : Endpoint} {datagram image : List UInt8}
    {answer : Answer} (hs : s.Sound o)
    (hallowed : s.Allowed o (.receive w endpoint datagram answer image))
    (hstep : s.receive o w endpoint datagram answer image = .ok after) : after.Sound o := by
  by_cases hsyn : SessionTable.IsA .syn datagram
  · rw [receive, if_pos hsyn] at hstep
    obtain ⟨hfresh, hroom⟩ := hallowed hsyn
    exact sound_syn hs hfresh hroom hstep
  · rw [receive, if_neg hsyn] at hstep
    rw [← Except.ok.inj hstep]
    have hfiled : (s.table.step (.receive endpoint datagram)).SessionsFiled :=
      SessionTable.sessionsFiled_step hs.filed
    obtain ⟨hcreated, hdeleted⟩ := SessionTable.receive_of_not_syn s.table endpoint hsyn
    exact hs.of_table hfiled hcreated hdeleted rfl hs.owned rfl rfl

omit [DecidableEq ι] in
theorem sound_write {x : SessionId} {offset : ℕ} {data : List UInt8} (hs : s.Sound o)
    (hlives : s.Lives x) (hroom : offset + data.length ≤ o.sizeofT) :
    (s.write x offset data).Sound o := by
  obtain ⟨free, howned⟩ := hs.owned
  obtain ⟨id, hlive⟩ := (hs.held _).mpr ⟨x, hlives.1, rfl⟩
  exact hs.of_table hs.filed rfl rfl rfl
    ⟨free, howned.overwrite hlive (hroom.trans o.fits)⟩ rfl rfl

omit [DecidableEq ι] in
/-- One round touches neither the pool nor where the sessions are. -/
theorem drainSession_frame (s : SessionMemory ι) (x : SessionId) :
    (s.drainSession x).table = s.table.drainSession x ∧ (s.drainSession x).pool = s.pool ∧
      (s.drainSession x).chunk = s.chunk := by
  by_cases hends : s.table.Ends x
  · simp only [drainSession, if_pos hends, and_self]
  · simp only [drainSession, if_neg hends, and_self]

omit [DecidableEq ι] in
theorem released_drainSession (s : SessionMemory ι) (x : SessionId) :
    (s.drainSession x).released =
      if s.table.Ends x then (x, .operatorDelete) :: s.released else s.released := by
  unfold drainSession
  split
  all_goals rfl

omit [DecidableEq ι] in
/-- The rounds of the drain pass the sessions that end to `operator delete`. -/
theorem foldl_drainSession (remaining : List SessionId) (s : SessionMemory ι) :
    (remaining.foldl drainSession s).table =
        remaining.foldl SessionTable.drainSession s.table ∧
      (remaining.foldl drainSession s).pool = s.pool ∧
      (remaining.foldl drainSession s).chunk = s.chunk ∧
      ∃ ended, (remaining.foldl drainSession s).table.deleted = ended ++ s.table.deleted ∧
        (remaining.foldl drainSession s).released =
          ended.map (fun x ↦ (x, .operatorDelete)) ++ s.released := by
  induction remaining generalizing s with
  | nil => exact ⟨rfl, rfl, rfl, [], rfl, rfl⟩
  | cons x rest ih =>
    rw [List.foldl_cons, List.foldl_cons]
    obtain ⟨htable, hpool, hchunk, ended, hdeleted, hreleased⟩ := ih (s.drainSession x)
    obtain ⟨hround, hsamePool, hsameChunk⟩ := s.drainSession_frame x
    rw [hround] at htable hdeleted
    rw [SessionTable.deleted_drainSession] at hdeleted
    rw [released_drainSession] at hreleased
    refine ⟨htable, hpool.trans hsamePool, hchunk.trans hsameChunk, ?_⟩
    by_cases hends : s.table.Ends x
    · rw [if_pos hends] at hdeleted hreleased
      refine ⟨ended ++ [x], ?_, ?_⟩
      · rw [hdeleted, List.append_assoc]
        rfl
      · rw [hreleased, List.map_append, List.append_assoc]
        rfl
    · rw [if_neg hends] at hdeleted hreleased
      exact ⟨ended, hdeleted, hreleased⟩

omit [DecidableEq ι] in
theorem tick_spec (hdeleted : s.table.deleted = []) (hreleased : s.released = []) :
    s.tick.table = s.table.tick ∧ s.tick.pool = s.pool ∧ s.tick.chunk = s.chunk ∧
      s.tick.released = s.table.tick.deleted.map fun x ↦ (x, .operatorDelete) := by
  obtain ⟨htable, hpool, hchunk, ended, hended, hafter⟩ := foldl_drainSession
    s.table.sweep.disconnected { s with table := { s.table.sweep with disconnected := [] } }
  have hsame : s.tick.table = s.table.tick := htable
  have hsweep : s.table.sweep.deleted = [] := by
    have hkept : ∀ (nodes : List (Endpoint × SessionId)) (t : SessionTable),
        (nodes.foldl SessionTable.sweepSession t).deleted = t.deleted := by
      intro nodes
      induction nodes with
      | nil => exact fun t ↦ rfl
      | cons node rest ih =>
        intro t
        rw [List.foldl_cons, ih]
        unfold SessionTable.sweepSession
        split
        all_goals rfl
    exact (hkept _ _).trans hdeleted
  refine ⟨hsame, hpool, hchunk, ?_⟩
  have hended : s.table.tick.deleted = ended := by
    rw [← hsame]
    change s.tick.table.deleted = _ at hended
    rw [hended]
    change ended ++ s.table.sweep.deleted = _
    rw [hsweep, List.append_nil]
  rw [hended]
  change s.tick.released = _ at hafter
  rw [hafter]
  change _ ++ s.released = _
  rw [hreleased, List.append_nil]

omit [DecidableEq ι] in
theorem noneEnds_tick_iff (hs : s.Sound o) : s.NoneEnds .tick ↔ s.table.tick.deleted = [] := by
  rw [List.eq_nil_iff_forall_not_mem]
  simp only [SessionTable.mem_deleted_tick hs.filed, hs.deleted, List.not_mem_nil, false_or]
  constructor
  · rintro ⟨hmap, hvector⟩ x (⟨hx, hcounter⟩ | ⟨hx, hcounter⟩)
    · exact hmap x hx hcounter
    · exact hvector x hx hcounter
  · intro hnone
    exact ⟨fun x hx hcounter ↦ hnone x (Or.inl ⟨hx, hcounter⟩),
      fun x hx hcounter ↦ hnone x (Or.inr ⟨hx, hcounter⟩)⟩

omit [DecidableEq ι] in
theorem sound_tick (hs : s.Sound o) (hnone : s.NoneEnds .tick) : s.tick.Sound o := by
  obtain ⟨htable, hpool, hchunk, hreleased⟩ := tick_spec hs.deleted hs.released
  have hdeleted := (noneEnds_tick_iff hs).mp hnone
  have hpassed : s.table.PassedOn s.table.tick := SessionTable.passedOn_tick
  apply hs.of_table
  · rw [htable]
    exact hpassed.sessionsFiled hs.filed
  · rw [htable]
    exact hpassed.created
  · rw [htable, hdeleted, hs.deleted]
  · rw [hreleased, hdeleted, hs.released]
    rfl
  · rw [hpool]
    exact hs.owned
  · rw [hpool]
  · exact hchunk

omit [DecidableEq ι] in
/-- A session that ends is not given back to the pool. -/
theorem not_returned_tick (hs : s.Sound o) (hends : ¬ s.NoneEnds .tick) :
    ¬ s.tick.Returned o := by
  intro hreturned
  obtain ⟨htable, -, -, hreleased⟩ := tick_spec hs.deleted hs.released
  rw [noneEnds_tick_iff hs] at hends
  obtain ⟨x, hx⟩ := List.exists_mem_of_ne_nil _ hends
  rw [← htable] at hx
  have hentry : (x, Deallocator.sessionPool) ∈
      s.tick.released.filter (fun entry ↦ entry.1 = x) := by
    rw [(hreturned.ended x hx).2]
    exact List.mem_singleton_self _
  have hpassed := (List.mem_filter.mp hentry).1
  rw [hreleased, List.mem_map] at hpassed
  obtain ⟨y, -, heq⟩ := hpassed
  cases heq

/-- The chunks of `session_pool_` are accounted for, and every ended session was given back to it,
exactly in the runs in which no tick ends a session. -/
theorem returned_visited_iff_noneEnds {history : List (SessionMemory ι × MemoryAction ι)}
    (hrun : (system ι o).Run history s) :
    (∀ seen ∈ System.visited history s, seen.Returned o) ↔ System.Obeys NoneEnds history := by
  apply hrun.forall_visited_iff_obeys_of_sound (Sound o) fun _ ↦ Sound.returned
  · rintro state ⟨heap, rfl⟩
    exact sound_initial heap
  · intro state action after hs hnone hstep
    obtain ⟨hallowed, hperform⟩ := hstep
    cases action with
    | receive w endpoint datagram answer image => exact sound_receive hs hallowed hperform
    | tick =>
      obtain rfl := Except.ok.inj hperform
      exact sound_tick hs hnone
    | write x offset data =>
      obtain rfl := Except.ok.inj hperform
      exact sound_write hs hallowed.1 hallowed.2
  · intro state action after hs hends hstep
    cases action with
    | receive => exact absurd trivial hends
    | tick =>
      obtain rfl := Except.ok.inj hstep.2
      exact not_returned_tick hs hends
    | write => exact absurd trivial hends

/-! ## Runs of one worker -/

/-- `session_pool_` of a 64-bit build. -/
def sessionPool : Instantiation := ⟨.x64, 40, 40, le_rfl, by decide⟩

instance (s : SessionMemory ι) (action : MemoryAction ι) :
    Decidable (s.Allowed sessionPool action) := by
  cases action
  all_goals
    unfold Allowed
    try unfold Lives SessionTable.Constructed
    infer_instance

/-- The steps without undefined behaviour, as a function. -/
def definedStep (s : SessionMemory (Fin 1)) (action : MemoryAction (Fin 1)) :
    Option (SessionMemory (Fin 1)) :=
  if s.Allowed sessionPool action then (s.perform sessionPool action).toOption else none

def untouched : SessionMemory (Fin 1) := initial (Fin 1) ⟨fun _ ↦ 0, []⟩

theorem run_of_definedStep {history : List (SessionMemory (Fin 1) × MemoryAction (Fin 1))}
    {state : SessionMemory (Fin 1)}
    (hrun : (System.ofStep (fun s ↦ s = untouched) definedStep).Run history state) :
    (system (Fin 1) sessionPool).Run history state := by
  apply hrun.mono
  · rintro state rfl
    exact ⟨_, rfl⟩
  · intro state action after hstep
    obtain ⟨hallowed, hafter⟩ := Option.ite_none_right_eq_some.mp hstep
    refine ⟨hallowed, ?_⟩
    cases hperform : state.perform sessionPool action with
    | error fault =>
      rw [hperform] at hafter
      cases hafter
    | ok result =>
      rw [hperform] at hafter
      rw [Option.some.inj hafter]

/-- A client connects: its session is constructed in the first chunk of a block at 4096. -/
def connection : List (MemoryAction (Fin 1)) :=
  [.receive 0 ⟨1, 2⟩ SessionTable.synDatagram ⟨4096, fun _ ↦ 0⟩ [],
    .receive 0 ⟨1, 2⟩ SessionTable.ackDatagram ⟨8192, fun _ ↦ 0⟩ []]

/-- The second tick after the connection ends the session, and `operator delete` gets a chunk of
`session_pool_`. -/
theorem returned_fails : ¬ ∀ history s, (system (Fin 1) sessionPool).Run history s →
    s.Returned sessionPool := by
  intro hclaim
  have hreplay : (System.replay definedStep untouched (connection ++ [.tick, .tick])).map
      (fun s ↦ decide (s.table.deleted = [⟨⟨1, 2⟩, 0⟩] ∧
        s.released = [(⟨⟨1, 2⟩, 0⟩, .operatorDelete)])) = some true := by
    decide +kernel
  obtain ⟨history, s, hrun, htest⟩ := System.exists_run_of_replay (fun s ↦ s = untouched) rfl hreplay
  obtain ⟨hdeleted, hreleased⟩ := of_decide_eq_true htest
  have hended := (hclaim history s (run_of_definedStep hrun)).ended ⟨⟨1, 2⟩, 0⟩
  rw [hdeleted, hreleased] at hended
  exact absurd (hended (by decide)).2 (by decide)

/-- The characterisation applied to a client that sends a heartbeat after each of two ticks. -/
theorem returned_visited_iff_noneEnds_applies :
    ∃ history s, (system (Fin 1) sessionPool).Run history s ∧ s.table.sessions.values ≠ [] ∧
      ((∀ seen ∈ System.visited history s, seen.Returned sessionPool) ↔
        System.Obeys NoneEnds history) := by
  have hreplay : (System.replay definedStep untouched (connection ++
      [.tick, .receive 0 ⟨1, 2⟩ [0, 0, 255, 255] ⟨8192, fun _ ↦ 0⟩ [], .tick])).map
      (fun s ↦ decide (s.table.sessions.values ≠ [])) = some true := by
    decide +kernel
  obtain ⟨history, s, hrun, htest⟩ := System.exists_run_of_replay (fun s ↦ s = untouched) rfl hreplay
  have hdefined := run_of_definedStep hrun
  exact ⟨history, s, hdefined, of_decide_eq_true htest, returned_visited_iff_noneEnds hdefined⟩

end SessionMemory

end ServerCore.UdpServer
