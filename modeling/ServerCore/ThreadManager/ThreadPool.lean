import ServerCore.Lock.ExclusiveLockHolder

/-!
# The thread pool

The workers of a `ThreadPool`, any number of threads that call `Enqueue`, and the thread that destroys
the pool interleave here at every atomic step of `spinlock_`, at every test and change of `stop` and
`tasks_` made under it, and at the end of each task. A task that itself calls `Enqueue` does so as one
of the calling threads. `tasks_.emplace` may throw too.

The destructor has all workers return before the members are destroyed; a thread that is still in
`Enqueue` then finds them as they were left.
-/

namespace ServerCore.ThreadManager

open Foundation Lock

/-- Where a worker stands in its loop, with its local `task` where it has one. -/
inductive WorkerPc
  | locking
  | taking
  | unlocking (task : Option ℕ)
  | leaving
  | running (task : ℕ)
  | returned
  deriving DecidableEq, Repr

/-- Where a thread stands in `Enqueue`. -/
inductive EnqueuePc
  | outside
  | locking (task : ℕ)
  | emplacing (task : ℕ)
  | unlocking
  deriving DecidableEq, Repr

/-- Where the thread that destroys the pool stands, with the workers that it has still to join. -/
inductive DestructorPc (threadAmount : ℕ)
  | outside
  | locking
  | unlocking
  | joining (workers : List (Fin threadAmount))
  deriving DecidableEq, Repr

def WorkerPc.lockUse : WorkerPc → LockUse
  | .locking => .constructing
  | .taking => .inScope
  | .unlocking _ | .leaving => .destructing
  | .running _ | .returned => .unused

def EnqueuePc.lockUse : EnqueuePc → LockUse
  | .outside => .unused
  | .locking _ => .constructing
  | .emplacing _ => .inScope
  | .unlocking => .destructing

def DestructorPc.lockUse {threadAmount : ℕ} : DestructorPc threadAmount → LockUse
  | .outside | .joining _ => .unused
  | .locking => .constructing
  | .unlocking => .destructing

/-- The task in the hands of a worker. -/
def WorkerPc.task : WorkerPc → Option ℕ
  | .unlocking task => task
  | .running task => some task
  | .locking | .taking | .leaving | .returned => none

/-- The task that a call of `Enqueue` has neither accepted nor refused yet. -/
def EnqueuePc.task : EnqueuePc → Option ℕ
  | .locking task | .emplacing task => some task
  | .outside | .unlocking => none

/-- Where a worker goes when it has unlocked. -/
def WorkerPc.unlocked : WorkerPc → WorkerPc
  | .unlocking (some task) => .running task
  | .unlocking none => .locking
  | .leaving => .returned
  | .locking => .locking
  | .taking => .taking
  | .running task => .running task
  | .returned => .returned

/-- The threads that use `spinlock_`. -/
inductive Party (threadAmount : ℕ) (E : Type)
  | worker (w : Fin threadAmount)
  | enqueuer (e : E)
  | destructor
  deriving DecidableEq, Repr

/-- The pool and the threads that use it. Tasks are numbered in the order of the calls of `Enqueue`.
`accepted`, `refused`, `taken` and `finished` are ghost state: the tasks put into the queue, in this
order, those whose `Enqueue` threw, those taken by workers, in this order, and those run to their
end. -/
structure ThreadPool (threadAmount : ℕ) (E : Type) where
  tasks : List ℕ
  stop : Bool
  spinlock : Spinlock (Party threadAmount E)
  worker : Fin threadAmount → WorkerPc
  enqueuer : E → EnqueuePc
  destructor : DestructorPc threadAmount
  created : ℕ
  accepted : List ℕ
  refused : List ℕ
  taken : List ℕ
  finished : List ℕ

inductive ThreadPoolStep (threadAmount : ℕ) (E : Type)
  | callEnqueue (e : E)
  | callDestructor
  | spinlock (step : SpinlockStep (Party threadAmount E))
  | worker (w : Fin threadAmount)
  | enqueuer (e : E) (allocated : Bool)
  | destructor
  deriving DecidableEq, Repr

namespace ThreadPool

variable {threadAmount : ℕ} {E : Type}

/-- The pool after its constructor: the workers are about to lock for the first time. -/
def initial (threadAmount : ℕ) (E : Type) : ThreadPool threadAmount E where
  tasks := []
  stop := false
  spinlock := Spinlock.initial (Party threadAmount E)
  worker _ := .locking
  enqueuer _ := .outside
  destructor := .outside
  created := 0
  accepted := []
  refused := []
  taken := []
  finished := []

/-- What a thread does with `spinlock_`. -/
def lockUse (s : ThreadPool threadAmount E) : Party threadAmount E → LockUse
  | .worker w => (s.worker w).lockUse
  | .enqueuer e => (s.enqueuer e).lockUse
  | .destructor => s.destructor.lockUse

def gotoWorker (s : ThreadPool threadAmount E) (w : Fin threadAmount) (pc : WorkerPc) :
    ThreadPool threadAmount E :=
  { s with worker := Function.update s.worker w pc }

/-- The statements of a worker: the tests under the lock, the move out of the queue, the task. -/
def workerStep (s : ThreadPool threadAmount E) (w : Fin threadAmount) :
    Option (ThreadPool threadAmount E) :=
  match s.worker w with
  | .locking =>
    if s.spinlock.pc (.worker w) = .writing then
      some (s.gotoWorker w (if s.stop = true ∧ s.tasks = [] then .leaving
        else if s.tasks ≠ [] then .taking
        else .unlocking none))
    else none
  | .taking =>
    match s.tasks with
    | [] => none
    | task :: rest =>
      some ({ s with tasks := rest, taken := s.taken ++ [task] }.gotoWorker w
        (.unlocking (some task)))
  | .running task => some ({ s with finished := s.finished ++ [task] }.gotoWorker w .locking)
  | .unlocking _ | .leaving | .returned => none

/-- `~ThreadPool`: `stop` is set, and the workers are joined one after the other. -/
def destructorStep (s : ThreadPool threadAmount E) : Option (ThreadPool threadAmount E) :=
  match s.destructor with
  | .locking =>
    if s.spinlock.pc .destructor = .writing then
      some { s with stop := true, destructor := .unlocking }
    else none
  | .joining (w :: rest) =>
    if s.worker w = .returned then some { s with destructor := .joining rest } else none
  | .joining [] | .outside | .unlocking => none

def callDestructor (s : ThreadPool threadAmount E) : Option (ThreadPool threadAmount E) :=
  if s.destructor = .outside then some { s with destructor := .locking } else none

variable [DecidableEq E]

def gotoEnqueuer (s : ThreadPool threadAmount E) (e : E) (pc : EnqueuePc) :
    ThreadPool threadAmount E :=
  { s with enqueuer := Function.update s.enqueuer e pc }

/-- A call of `Enqueue`, up to the constructor of `lock_holder`. -/
def callEnqueue (s : ThreadPool threadAmount E) (e : E) : Option (ThreadPool threadAmount E) :=
  if s.enqueuer e = .outside then
    some ({ s with created := s.created + 1 }.gotoEnqueuer e (.locking s.created))
  else none

/-- The statements of `Enqueue` under the lock. Either of them may throw, which unwinds the scope. -/
def enqueuerStep (s : ThreadPool threadAmount E) (e : E) (allocated : Bool) :
    Option (ThreadPool threadAmount E) :=
  match s.enqueuer e with
  | .locking task =>
    if s.spinlock.pc (.enqueuer e) = .writing then
      some (if s.stop then { s with refused := s.refused ++ [task] }.gotoEnqueuer e .unlocking
        else s.gotoEnqueuer e (.emplacing task))
    else none
  | .emplacing task =>
    some (if allocated then
        { s with tasks := s.tasks ++ [task], accepted := s.accepted ++ [task] }.gotoEnqueuer e
          .unlocking
      else { s with refused := s.refused ++ [task] }.gotoEnqueuer e .unlocking)
  | .outside | .unlocking => none

/-- Where a thread goes when it has unlocked. -/
def unlocked (s : ThreadPool threadAmount E) : Party threadAmount E → ThreadPool threadAmount E
  | .worker w => s.gotoWorker w (s.worker w).unlocked
  | .enqueuer e => s.gotoEnqueuer e .outside
  | .destructor => { s with destructor := .joining (List.finRange threadAmount) }

/-- A step of `spinlock_.Lock()` or of `spinlock_.Unlock()`. -/
def spinlockStep (s : ThreadPool threadAmount E) (a : SpinlockStep (Party threadAmount E)) :
    Option (ThreadPool threadAmount E) :=
  if (s.lockUse a.thread).Allows a then
    (s.spinlock.step a).map fun spinlock ↦
      if s.lockUse a.thread = .destructing then
        { s with spinlock := spinlock }.unlocked a.thread
      else { s with spinlock := spinlock }
  else none

def step (s : ThreadPool threadAmount E) :
    ThreadPoolStep threadAmount E → Option (ThreadPool threadAmount E)
  | .callEnqueue e => s.callEnqueue e
  | .callDestructor => s.callDestructor
  | .spinlock a => s.spinlockStep a
  | .worker w => s.workerStep w
  | .enqueuer e allocated => s.enqueuerStep e allocated
  | .destructor => s.destructorStep

/-- A pool of `threadAmount` workers with one calling thread for each element of `E`. -/
def system (threadAmount : ℕ) (E : Type) [DecidableEq E] :
    System (ThreadPool threadAmount E) (ThreadPoolStep threadAmount E) :=
  System.ofStep (fun s ↦ s = initial threadAmount E) step

end ThreadPool

end ServerCore.ThreadManager
