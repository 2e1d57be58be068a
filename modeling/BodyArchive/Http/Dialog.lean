import BodyArchive.Http.Header
import BodyArchive.Body.Image

/-!
# Dialogs

An HTTP request and its response, as recorded: a `Prolog` and an `Epilog`. `Uri`, `Method` and
`StatusCode` are opaque types of the *http* crate; `HttpTypes` has them with the texts they are
written as and parsed from. `Encoding` and `Version` are enumerations, and their texts are given.
-/

namespace BodyArchive

/-- The types of the *http* crate that are known by their texts, and the conversions between
header values and strings. -/
structure HttpTypes where
  Uri : Type
  Method : Type
  StatusCode : Type
  /-- `to_string` of each type. -/
  uriText : Uri → Bytes
  methodText : Method → Bytes
  statusText : StatusCode → Bytes
  /-- `Uri::try_from`. -/
  uri : Bytes → Except Nat Uri
  /-- `Method::from_bytes`. -/
  method : Bytes → Except Nat Method
  /-- `StatusCode::from_bytes`. -/
  statusCode : Bytes → Except Nat StatusCode
  /-- `str::parse::<HeaderValue>`. -/
  valueOfStr : Bytes → Option HeaderValue
  /-- `HeaderValue::to_str`. -/
  valueToStr : HeaderValue → Option Bytes

/-- Every type parses back from its own text, of a status code from the three digits in front;
and a header value parsed from a string is that string. -/
structure HttpTypes.Lawful (http : HttpTypes) : Prop where
  uri_back : ∀ u, http.uri (http.uriText u) = .ok u
  method_back : ∀ m, http.method (http.methodText m) = .ok m
  status_length : ∀ s, 3 ≤ (http.statusText s).length
  status_back : ∀ s, http.statusCode ((http.statusText s).take 3) = .ok s
  value_bytes : ∀ {s v}, http.valueOfStr s = some v → v.bytes = s
  value_back : ∀ {s v}, http.valueOfStr s = some v → http.valueToStr v = some s

/-- `http::Version`. -/
inductive Version where
  | http09
  | http10
  | http11
  | http2
  | http3
  deriving DecidableEq, Repr

/-- The debug format. -/
def Version.debug : Version → Bytes
  | .http09 => ascii "HTTP/0.9"
  | .http10 => ascii "HTTP/1.0"
  | .http11 => ascii "HTTP/1.1"
  | .http2 => ascii "HTTP/2.0"
  | .http3 => ascii "HTTP/3.0"

inductive Encoding where
  | chunked
  | deflate
  | gzip
  | brotli
  | compress
  | identity
  deriving DecidableEq, Repr

/-- The `Display` text, as in an HTTP header. -/
def Encoding.text : Encoding → Bytes
  | .chunked => ascii "chunked"
  | .deflate => ascii "deflate"
  | .gzip => ascii "gzip"
  | .brotli => ascii "br"
  | .compress => ascii "compress"
  | .identity => ascii "identity"

variable (http : HttpTypes)

structure Prolog where
  method : http.Method
  url : http.Uri
  reqHeaders : HeaderMap
  reqBody : BodyImage

structure Epilog where
  version : Version
  status : http.StatusCode
  resHeaders : HeaderMap
  resBody : BodyImage
  resDecoded : List Encoding

structure Dialog where
  pro : Prolog http
  epi : Epilog http

end BodyArchive
