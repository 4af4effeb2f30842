import Khorost.Util.CString

namespace Khorost

/-- The strings that `init_message` pushes, the front of the queue first. -/
def initMessage (to_ from_ subject_ message_ : List UInt8) : List (List UInt8) :=
  [ascii "To: " ++ to_ ++ ascii "\n",
    ascii "From: " ++ from_ ++ ascii "\n",
    ascii "Subject: " ++ subject_ ++ ascii "\n",
    ascii "\n",
    message_]

/-- `payload_source`: what it copies to `ptr`, the number of which it returns,
and the queue that it leaves. `size` and `nmemb` are not looked at. -/
def payloadSource (msg : List (List UInt8)) (_sizeNmemb : Nat × Nat) :
    List UInt8 × List (List UInt8) :=
  match msg with
  | [] => ([], [])
  | s :: msg => (s, msg)

end Khorost
