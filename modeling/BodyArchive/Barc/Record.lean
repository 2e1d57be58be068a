import BodyArchive.Barc.Headers
import BodyArchive.Barc.Compress
import BodyArchive.Body.Content

/-!
# Records and their layout

A `Record` keeps its bodies as images; its `Contents` are what it is about, the header maps and
the bytes of the bodies. `Laid` says how the contents lie in the file: five parts after the head,
whose lengths are in the head but for the last, and which are encoded as one if the record is
compressed.
-/

namespace BodyArchive

structure Record where
  recType : RecordType
  metaHeaders : HeaderMap
  reqHeaders : HeaderMap
  reqBody : BodyImage
  resHeaders : HeaderMap
  resBody : BodyImage
  deriving DecidableEq

/-- What a record is about. -/
structure Contents where
  metaHeaders : HeaderMap
  reqHeaders : HeaderMap
  reqBody : Bytes
  resHeaders : HeaderMap
  resBody : Bytes
  deriving DecidableEq

/-- A dialog record with these contents. -/
structure Record.Holds (r : Record) (c : Contents) : Prop where
  rec_type : r.recType = .dialog
  meta_eq : r.metaHeaders = c.metaHeaders
  req_eq : r.reqHeaders = c.reqHeaders
  req_body : r.reqBody.Backs c.reqBody
  res_eq : r.resHeaders = c.resHeaders
  res_body : r.resBody.Backs c.resBody

namespace Contents

variable (c : Contents)

/-- The parts before the response body. -/
def fore (withCrlf : Bool) : Bytes :=
  block withCrlf c.metaHeaders ++ block withCrlf c.reqHeaders ++ pad withCrlf c.reqBody ++
    block withCrlf c.resHeaders

/-- All five parts. -/
def parts (withCrlf : Bool) : Bytes := c.fore withCrlf ++ pad withCrlf c.resBody

/-- The limits that are asserted while the parts are written. -/
structure Within (withCrlf : Bool) : Prop where
  meta_le : (block withCrlf c.metaHeaders).length ≤ v2MaxHblock
  req_le : (block withCrlf c.reqHeaders).length ≤ v2MaxHblock
  res_le : (block withCrlf c.resHeaders).length ≤ v2MaxHblock
  len_le : (c.fore withCrlf).length + c.resBody.length + 2 ≤ v2MaxRecord

/-- The limits in the order of the assertions. -/
theorem within_iff (withCrlf : Bool) :
    ((block withCrlf c.metaHeaders).length ≤ v2MaxHblock ∧
      (block withCrlf c.reqHeaders).length ≤ v2MaxHblock ∧
      (block withCrlf c.resHeaders).length ≤ v2MaxHblock ∧
      (c.fore withCrlf).length + c.resBody.length + 2 ≤ v2MaxRecord ∧ True) ↔ c.Within withCrlf :=
  ⟨fun ⟨h₁, h₂, h₃, h₄, _⟩ => ⟨h₁, h₂, h₃, h₄⟩,
    fun h => ⟨h.meta_le, h.req_le, h.res_le, h.len_le, trivial⟩⟩

end Contents

/-- The parts of a plain record are padded. -/
def Compression.withCrlf (mode : Compression) : Bool := decide (mode = .plain)

/-- A head and a payload that lay out some contents. -/
structure Laid (cr : Crates) (c : Contents) (head : RecordHead) (payload : Bytes) : Prop where
  rec_type : head.recType = .dialog
  payload_eq : Encodes cr head.compress (c.parts head.compress.withCrlf) payload
  len_eq : head.len = payload.length
  meta_eq : head.metaH = (block head.compress.withCrlf c.metaHeaders).length
  req_eq : head.reqH = (block head.compress.withCrlf c.reqHeaders).length
  req_body : head.reqB = (pad head.compress.withCrlf c.reqBody).length
  res_eq : head.resH = (block head.compress.withCrlf c.resHeaders).length
  within : c.Within head.compress.withCrlf
  fits : head.Fits

theorem Laid.format_length {cr : Crates} {c : Contents} {head : RecordHead} {payload : Bytes}
    (h : Laid cr c head payload) : head.format.length = v2HeadSize := h.fits.format_length

end BodyArchive
