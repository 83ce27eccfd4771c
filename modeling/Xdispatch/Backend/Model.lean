/-!
# Queues and their backends

A queue reports the backend that it belongs to, and a waitable queue that of the
queue it wraps. Timers, socket notifiers and groups of the libdispatch backend
need a queue of its own: `impl_2_native` asserts the backend that the queue
reports and casts it.
-/

namespace Xdispatch.Backend

inductive BackendType where
  | naive
  | qt5
  | libdispatch
  deriving DecidableEq

/-- The implementations of `iqueue_impl`: `native` is `libdispatch::queue_impl`, and
those of the naive backend may belong to another. -/
inductive Queue where
  | native
  | serial (backend : BackendType)
  | parallel (backend : BackendType)
  | waitable (inner : Queue)
  deriving DecidableEq

def Queue.backend : Queue → BackendType
  | .native => .libdispatch
  | .serial b | .parallel b => b
  | .waitable inner => inner.backend

/-- The implementations of `ibackend`; that of qt5 derives from that of libdispatch. -/
inductive Instance where
  | naive
  | libdispatch
  | qt5
  deriving DecidableEq

/-- What `backend_for_type` finds for qt5, which may be missing: there are fallbacks. -/
structure Build where
  qt5 : Instance
  deriving DecidableEq

def backendForType (build : Build) : BackendType → Instance
  | .naive => .naive
  | .qt5 => build.qt5
  | .libdispatch => .libdispatch

inductive QueueKind where
  | main
  | serial
  | parallel
  deriving DecidableEq

/-- `create_main_queue` and its siblings; `application` says whether there is a `QCoreApplication`. -/
def Instance.createQueue (application : Bool) : Instance → QueueKind → Queue
  | .naive, .parallel => .parallel .naive
  | .naive, _ => .serial .naive
  | .libdispatch, _ => .native
  | .qt5, .main => if application then .serial .qt5 else .native
  | .qt5, _ => .native

/-- The queues that the library constructs. -/
inductive Constructed : Queue → Prop
  | ofBackend (i : Instance) (application : Bool) (k : QueueKind) : Constructed (i.createQueue application k)
  | libdispatchQueue : Constructed .native
  | naiveSerialQueue : Constructed (.serial .naive)
  | naiveParallelQueue : Constructed (.parallel .naive)
  | qt5SerialQueue : Constructed (.serial .qt5)
  | qt5ParallelQueue : Constructed (.parallel .qt5)
  | waitableQueue {inner : Queue} : Constructed inner → Constructed (.waitable inner)

/-- `assertion` terminates the program, and `badCast` goes on with an object of another type. -/
inductive Failure where
  | assertion
  | logicError
  | badCast
  deriving DecidableEq

def impl2Native (q : Queue) : Except Failure Unit :=
  if q.backend = .libdispatch then
    match q with
    | .native => .ok ()
    | _ => .error .badCast
  else .error .assertion

/-- `create_timer` and `create_socket_notifier`, which agree in what they do with the
queue, with the backend of what they create. -/
def Instance.createSource (q : Queue) : Instance → Except Failure BackendType
  | .naive => .ok .naive
  | .libdispatch => (impl2Native q).map fun _ => .libdispatch
  | .qt5 => if q.backend = .qt5 then .ok .qt5 else (impl2Native q).map fun _ => .libdispatch

def assertSameBackend (a b : BackendType) : Except Failure Unit := if a = b then .ok () else .error .logicError

/-- What brings a queue to `impl_2_native`: the constructors of `timer` and `socket_notifier`, `target_queue` of
a timer or a notifier of libdispatch, `async` and `notify` of a group of libdispatch, and `after` of the queue. -/
inductive Path where
  | timer
  | socketNotifier
  | timerTargetQueue
  | socketNotifierTargetQueue
  | groupAsync
  | groupNotify
  | after
  deriving DecidableEq

def construct (build : Build) (q : Queue) : Except Failure Unit :=
  ((backendForType build q.backend).createSource q).bind fun b => assertSameBackend b q.backend

def group (q : Queue) : Except Failure Unit :=
  (assertSameBackend .libdispatch q.backend).bind fun _ => impl2Native q

/-- `after` of a native queue needs no timer. -/
def Queue.after (build : Build) (q : Queue) : Except Failure Unit :=
  match q with
  | .native => .ok ()
  | .serial b | .parallel b => ((backendForType build b).createSource q).map fun _ => ()
  | .waitable _ => ((backendForType build q.backend).createSource q).map fun _ => ()

def Path.take (build : Build) (q : Queue) : Path → Except Failure Unit
  | .timer | .socketNotifier => construct build q
  | .timerTargetQueue | .socketNotifierTargetQueue => impl2Native q
  | .groupAsync | .groupNotify => group q
  | .after => q.after build

end Xdispatch.Backend
