import Khorost.Util.RawBuffer

namespace Khorost

/-- `http_curl_string::get_uri_encode`, and `m_ab_buffer_` after it. `uri` is the
memory that the argument points to. `unescape` is `curl_easy_unescape`: the bytes
that it allocates in front of a terminator, with their number, or a null pointer. -/
def getUriEncode (realloc : Realloc UInt8) (unescape : List UInt8 → Int → Option (List UInt8))
    (abBuffer : RawBuffer UInt8) (uri : Option (List UInt8)) : Option (RawBuffer UInt8) :=
  match uri.map cStr with
  | none | some [] => (abBuffer.checkSize realloc 1).memcpy 0 [nul]
  | some text => do
    let temp ← RawBuffer.empty.append realloc text
    let (temp, _) ← temp.replace realloc (ascii "+") (ascii "%20") false
    let pt ← unescape temp.buffer ((temp.readyPosition : Int).bmod (2 ^ 32))
    let abBuffer := abBuffer.checkSize realloc pt.length
    -- the copy ends with the first terminator
    let abBuffer ← abBuffer.memcpy 0 (cStr (pt ++ [nul]) ++ [nul])
    some (abBuffer.flushFreeSize.decrementFreeSize pt.length)

end Khorost
