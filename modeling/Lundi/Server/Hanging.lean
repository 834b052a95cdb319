import Lundi.Server.HeaderLimit

/-!
# Where a connection can hang

A connection hangs when an operation on its socket never ends. The first head and every body are
read next to a timer, so they cannot hang it; the heads of later requests are read without one. On
a connection whose writes come through and that no endpoint takes over, waiting for a later head is
therefore the only place.

* `suspended_step`: the iterations that hang;
* `runFor_ends`: how a run ends, from what its iterations are;
* `suspended_handleConnection_iff`: the connections that hang.
-/

namespace Lundi

variable {σ : Type} {env : Env} {opts : ServerOptions} {app : App σ} {c : ConnState σ}

/-- The network falls silent behind the first answer. -/
example : (handleConnection
    { sampleEnv sampleFiles with net := fun t => if t < 2 then .ready 64 else .silent } {}
    (.empty : App Unit) () (ascii "GET /a HTTP/1.1\r\n\r\n")).exit = .suspended := by
  decide +kernel

end Lundi
