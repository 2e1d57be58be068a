import BodyArchive.Body.Sink
import BodyArchive.Http.Dialog

/-!
# Errors and tunables of the asynchronous adaptors
-/

namespace BodyArchive

inductive FutioError where
  | body (e : BodyError)
  | unsupportedEncoding (e : Encoding)
  /-- A blocking operation was canceled. -/
  | opCanceled
  deriving DecidableEq, Repr

/-- How blocking operations are kept from the threads of the runtime. The semaphore of `permit` is
the program's. -/
inductive BlockingPolicy where
  | direct
  | permit
  | dispatch
  deriving DecidableEq, Repr

structure FutioTunables where
  image : Tunables
  blockingPolicy : BlockingPolicy

/-- `blocking_semaphore`: whether there is one. -/
def FutioTunables.blockingSemaphore (tune : FutioTunables) : Bool :=
  tune.blockingPolicy == .permit

end BodyArchive
