import JobRunner.Identity
import JobRunner.Coordinator

/-!
# The gRPC service

`StoreServer` with its interceptor in front of a coordinator: a request comes with the certificates
of its peer, passes the interceptors and `get_ctx`, and gets to the coordinator with the user found
there, or is refused.
-/

namespace JobRunner

/-- The message of a request. What `SpawnRequest` has besides the name goes to the spawner. -/
inductive Message where
  | spawn (name : String)
  | job (op : Op) (jobId : String)
  deriving DecidableEq, Repr

/-- What the handlers of `GrpcStoreImpl` ask of the coordinator. -/
def Message.act (c : Nat) (user : User) (res : Except SpawnError Coord.Spawned) :
    Message → Coord.Act
  | .spawn name => .spawn c user name res
  | .job op jobId => .call c user op ⟨jobId⟩

/-- The coordinator, and the calls that have been refused before they got to it. -/
structure Server where
  coord : Coord
  refused : Nat → Option Status

namespace Server

def init : Server := { coord := Coord.init, refused := fun _ => none }

/-- A request, with what becomes of its child if it spawns one, or another step of the
coordinator. -/
inductive Act (CertificateDer : Type) where
  | request (c : Nat) (req : Request CertificateDer) (msg : Message)
      (res : Except SpawnError Coord.Spawned)
  | coord (a : Coord.Act)

/-- A step that begins a call. -/
def begins : Coord.Act → Bool
  | .spawn _ _ _ _ => true
  | .call _ _ _ _ => true
  | _ => false

section Steps

variable {CertificateDer : Type} (x509 : X509Parser CertificateDer)

/-- The `Ctx` a handler finds in a request, or why there is none. -/
def context (req : Request CertificateDer) : Except Status Ctx := do
  let req ← serverInterceptor x509 req
  req.getCtx

def step (s : Server) : Act CertificateDer → Option Server
  | .request c req msg res =>
    match s.refused c with
    | some _ => none
    | none =>
      match context x509 req with
      | .error st =>
        if (s.coord.calls c).isNone then
          some { s with refused := Function.update s.refused c (some st) }
        else none
      | .ok ctx => (s.coord.step (msg.act c ctx.user res)).map fun coord => { s with coord }
  | .coord a => if begins a then none else (s.coord.step a).map fun coord => { s with coord }

end Steps

/-- What the client of call `c` gets, once it is answered. -/
def response (s : Server) (c : Nat) : Option Response :=
  match s.refused c with
  | some st => some (.status st)
  | none => (s.coord.calls c).bind Call.response

end Server

end JobRunner
