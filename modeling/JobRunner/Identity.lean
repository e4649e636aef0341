import JobRunner.Grpc

/-!
# The user of a request

`extract_client_cert` takes the user of a request from its client certificate: the subject name of
the certificate, as a string, is the id of the user. Certificates are parsed and names displayed by
`x509_parser`, which is a parameter here; `X509Name.display` is what it is known to write.
-/

namespace JobRunner

/-! ## Subject names -/

/-- The characters of keywords and OIDs are others than those that separate attributes. -/
def isTypeChar (c : Char) : Bool := c ≠ ' ' && c ≠ ',' && c ≠ '+' && c ≠ '='

/-- A type of attributes, by its keyword or OID as it is displayed. -/
@[ext]
structure AttributeType where
  name : String
  ne : name ≠ ""
  chars : ∀ c ∈ name.toList, isTypeChar c = true
  deriving DecidableEq

structure Attribute where
  type : AttributeType
  value : String
  deriving DecidableEq

/-- A relative distinguished name, in the order of the certificate. It has an attribute at least. -/
structure Rdn where
  head : Attribute
  tail : List Attribute
  deriving DecidableEq

structure X509Name where
  rdns : List Rdn
  deriving DecidableEq

def Attribute.display (a : Attribute) : String := a.type.name ++ "=" ++ a.value

def Rdn.display (r : Rdn) : String := " + ".intercalate ((r.head :: r.tail).map Attribute.display)

/-- The display of a name. Values are not escaped. -/
def X509Name.display (n : X509Name) : String := ", ".intercalate (n.rdns.map Rdn.display)

/-! ## Requests -/

/-- What the server uses of `x509_parser`: `parse_x509_certificate` up to the subject of the
certificate, or the text of its error, and `to_string` of a subject. -/
structure X509Parser (CertificateDer : Type) where
  subject : CertificateDer → Except String X509Name
  toString : X509Name → String

/-- A gRPC request: the certificates of its peer and the `Ctx` among its extensions. -/
structure Request (CertificateDer : Type) where
  peerCerts : Option (List CertificateDer)
  ctx : Option Ctx

namespace Request

variable {CertificateDer : Type}

def setCtx (req : Request CertificateDer) (ctx : Ctx) : Request CertificateDer :=
  { req with ctx := some ctx }

def getCtx (req : Request CertificateDer) : Except Status Ctx :=
  match req.ctx with
  | none => .error (.unauthenticated "no ctx found")
  | some ctx => .ok ctx

end Request

section Authentication

variable {CertificateDer : Type} (x509 : X509Parser CertificateDer)

def Ctx.tryFrom (cert : CertificateDer) : Except Status Ctx :=
  match x509.subject cert with
  | .error err => .error (.unauthenticated ("bad cert: " ++ err))
  | .ok subject => .ok { user := { id := x509.toString subject } }

def extractClientCert (req : Request CertificateDer) : Except Status (Request CertificateDer) :=
  match req.peerCerts with
  | none => .error (.unauthenticated "mtls required")
  | some [cert] => (Ctx.tryFrom x509 cert).map req.setCtx
  | some certs =>
    .error (.unauthenticated ("expected exactly one peer cert but got " ++ toString certs.length))

/-- The chain of interceptors has one link. -/
def serverInterceptor (req : Request CertificateDer) : Except Status (Request CertificateDer) :=
  [extractClientCert x509].foldlM (fun req i => i req) req

end Authentication

end JobRunner
