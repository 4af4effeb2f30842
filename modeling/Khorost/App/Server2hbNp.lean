import Khorost.Net.CompactBinary

namespace Khorost

namespace S2bChunk

abbrev login : UInt8 := 0x02
abbrev salt : UInt8 := 0x03
abbrev saltM : UInt8 := 0x04
abbrev status : UInt8 := 0x05
abbrev hash : UInt8 := 0x06

end S2bChunk

/-- The functions of `cbChunkIn` that no `s2b` handler overrides. -/
def s2bChunkIn : ChunkIn ν := ⟨fun _ _ _ _ => none, fun _ _ _ _ => none⟩

structure S2bConnectClient where
  login : List UInt8

def S2bConnectClient.receive (c : S2bConnectClient) : ChunkCall → S2bConnectClient
  | .setString id value => if id = S2bChunk.login then { c with login := value } else c
  | _ => c

structure S2bConnectServer where
  salt : List UInt8
  saltM : List UInt8

def S2bConnectServer.receive (c : S2bConnectServer) : ChunkCall → S2bConnectServer
  | .setString id value =>
    if id = S2bChunk.salt then { c with salt := value }
    else if id = S2bChunk.saltM then { c with saltM := value }
    else c
  | _ => c

structure S2bLogonClient where
  login : List UInt8
  hash : List UInt8

def S2bLogonClient.receive (c : S2bLogonClient) : ChunkCall → S2bLogonClient
  | .setString id value =>
    if id = S2bChunk.login then { c with login := value }
    else if id = S2bChunk.hash then { c with hash := value }
    else c
  | _ => c

structure S2bLogonServer where
  status : UInt8

def S2bLogonServer.receive (c : S2bLogonServer) : ChunkCall → S2bLogonServer
  | .setValue8 id value => if id = S2bChunk.status then { c with status := value } else c
  | _ => c

/-- A handler that `ParsePacket` has filled from a packet. -/
def s2bParse (receive : σ → ChunkCall → σ) (c : σ) (pBuffer : List UInt8) (nBufferSize : Nat) :
    σ :=
  ((parsePacket s2bChunkIn () pBuffer nBufferSize).1.map Prod.snd).foldl receive c

end Khorost
