import Khorost.Proofs.CookieJar
import Khorost.Proofs.LoggedIn

namespace Khorost

namespace HttpProcessor

variable {p p' : HttpProcessor}

theorem calculate_response (h : p.calculateHostPort = some p') : p'.response = p.response := by
  unfold calculateHostPort at h
  split at h
  · cases h
    rfl
  · obtain ⟨⟨n, atColon⟩, -, h⟩ := Option.bind_eq_some_iff.mp h
    dsimp only at h
    split at h
    · cases h
      rfl
    · cases h
      rfl

theorem with_host_response (h : p.withHost = some p') : p'.response = p.response := by
  unfold withHost at h
  split at h
  · exact calculate_response h
  · cases h
    rfl

theorem get_host_response (h : p.getHost = some (domain, p')) : p'.response = p.response := by
  obtain ⟨q, hq, h⟩ := Option.bind_eq_some_iff.mp h
  split at h
  · cases h
    exact with_host_response hq
  · cases h
    exact with_host_response hq

end HttpProcessor

namespace Server2hb

open Messages SessionController Throwing

variable {env : HbEnv} {versions : SessionVersions} {driver : SessionDb SessionObject}
  {m : Moment} {http : HttpHeader} {session : Session S2hData} {s s' : Server2hb}
  {id : List UInt8} {kept : S2hSessions} {user : User} {history : List Mark}

def IdText (id : List UInt8) : Prop := ∀ b ∈ id, b ∉ [semicolon, equals, nul, cr, lf]

instance (id : List UInt8) : Decidable (IdText id) := inferInstanceAs (Decidable (∀ b ∈ id, _))

theorem IdText.plain (h : IdText id) : PlainText id := by
  intro b hb
  have hclear := h b hb
  simp only [List.mem_cons, List.not_mem_nil, or_false, not_or] at hclear
  exact ⟨hclear.2.2.2.1, hclear.2.2.2.2⟩

theorem ActionCall.params {p p' : HttpProcessor} (h : ActionCall id call)
    (hp : p.perform call = some p') : p'.response.headerParams = p.response.headerParams := by
  cases h with
  | cookie expire =>
    obtain ⟨⟨domain, q⟩, hget, rfl⟩ := Option.map_eq_some_iff.mp hp
    change q.response.headerParams = _
    rw [HttpProcessor.get_host_response hget]
  | content | token | unauthorized | notFound =>
    cases hp
    rfl

end Server2hb

end Khorost
