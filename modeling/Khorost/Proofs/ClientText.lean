import Khorost.App.ClientIp
import Khorost.Proofs.Grounded

namespace Khorost

open HttpHeader.Checked

/-- A call of `get_client_ip` for a request, with what the buffer holds before it. -/
structure IpCall where
  libevent : Libevent
  header : HttpHeader
  reached : header.Reached
  peer : SockAddr
  buffer : List UInt8
  room : buffer ≠ []

/-- The buffer holds a terminated string afterwards. -/
def IpCall.Terminates (c : IpCall) : Prop :=
  ∃ filled, getClientIp c.libevent c.header c.peer c.buffer = some filled ∧
    filled.length = c.buffer.length ∧ nul ∈ filled

/-- A copy that stops at the size has a terminator if there is room for it. -/
theorem strncpy_terminated_iff (buffer : List UInt8) (hs : nul ∉ source) :
    nul ∈ strncpy buffer source ↔ source.length < buffer.length := by
  have htake : nul ∉ source.take buffer.length := fun h => hs (List.mem_of_mem_take h)
  rw [strncpy, List.mem_append, List.mem_replicate]
  constructor
  · rintro (h | ⟨hne, -⟩)
    · exact absurd h htake
    · omega
  · intro hlt
    exact .inr ⟨by omega, rfl⟩

theorem strncpy_length (buffer source : List UInt8) :
    (strncpy buffer source).length = buffer.length := by
  simp only [strncpy, List.length_append, List.length_take, List.length_replicate]
  omega

theorem end_at_colon_length (buffer : List UInt8) : (endAtColon buffer).length = buffer.length := by
  induction buffer with
  | nil => rfl
  | cons c buffer ih =>
    rw [endAtColon]
    split
    · rfl
    · split
      · rfl
      · exact congrArg (· + 1) ih

theorem end_at_colon_terminated (h : nul ∈ buffer) : nul ∈ endAtColon buffer := by
  induction buffer with
  | nil => cases h
  | cons c buffer ih =>
    rw [endAtColon]
    split
    · next hc => exact hc ▸ List.mem_cons_self
    · next hc =>
      split
      · exact List.mem_cons_self
      · exact List.mem_cons_of_mem _ (ih ((List.mem_cons.mp h).resolve_left fun he => hc he.symm))

/-- Whatever the address is, it is printed by one call. -/
theorem format_prints (ev : Libevent) (sa : SockAddr) (out : List UInt8) :
    ∃ text, xEvutilFormatSockaddrPort ev sa out = ev.snprintf out text := by
  unfold xEvutilFormatSockaddrPort
  dsimp only
  repeat' split
  all_goals exact ⟨_, rfl⟩

theorem peer_ip_terminated (ev : Libevent) (sa : SockAddr) {buffer : List UInt8} (h : buffer ≠ []) :
    (connectionGetClientIp ev sa buffer).length = buffer.length ∧
      nul ∈ connectionGetClientIp ev sa buffer := by
  obtain ⟨text, htext⟩ := format_prints ev sa buffer
  obtain ⟨stale, hstale⟩ := ev.prints h text
  rw [connectionGetClientIp, htext, end_at_colon_length, ev.room]
  refine ⟨rfl, end_at_colon_terminated ?_⟩
  rw [hstale]
  exact List.mem_append_right _ List.mem_cons_self

theorem string_at_clear {b : AutoBuffer UInt8} (h : b.stringAt position = some s) : nul ∉ s := by
  rw [← (string_at_some h).2]
  exact c_str_clear _

/-- An address that is read from a header is a C string. -/
theorem proxy_ip_clear {h : HttpHeader} (hcpi : getClientProxyIp h = some (some cpi)) :
    nul ∉ cpi := by
  have hread : ∀ {idx}, (h.abHeader.stringAt idx).map some = some (some cpi) → nul ∉ cpi := by
    intro idx hidx
    obtain ⟨s, hs, hsame⟩ := Option.map_eq_some_iff.mp hidx
    cases hsame
    exact string_at_clear hs
  unfold getClientProxyIp at hcpi
  obtain ⟨forwarded, -, hcpi⟩ := Option.bind_eq_some_iff.mp hcpi
  cases forwarded with
  | some idx => exact hread hcpi
  | none =>
    obtain ⟨real, -, hcpi⟩ := Option.bind_eq_some_iff.mp hcpi
    cases real with
    | some idx => exact hread hcpi
    | none => cases hcpi

/-- The buffer is terminated if the lookups read inside of the header buffer and there is no
header with an address or its value is shorter than the buffer. -/
theorem client_ip_terminated_iff (c : IpCall) :
    c.Terminates ↔ ∃ found, getClientProxyIp c.header = some found ∧
      ∀ cpi ∈ found, cpi.length < c.buffer.length := by
  rw [IpCall.Terminates, getClientIp]
  cases hfound : getClientProxyIp c.header with
  | none => simp
  | some found =>
    simp only [Option.bind_eq_bind, Option.bind_some, Option.some.injEq, exists_eq_left']
    cases found with
    | none =>
      exact iff_of_true ⟨_, rfl, peer_ip_terminated c.libevent c.peer c.room⟩ nofun
    | some cpi =>
      have hiff := strncpy_terminated_iff c.buffer (proxy_ip_clear hfound)
      constructor
      · rintro ⟨filled, hfilled, -, hnul⟩ _ hcpi
        cases hcpi
        cases hfilled
        exact hiff.mp hnul
      · intro hshort
        exact ⟨_, rfl, strncpy_length _ _, hiff.mpr (hshort cpi rfl)⟩

/-- A printer that leaves what is behind the text as it is. -/
def plainLibevent : Libevent where
  inetNtop _ _ := none
  snprintf out text :=
    text.take (out.length - 1) ++ (if out = [] then [] else [nul]) ++ out.drop (text.length + 1)
  prints := by
    intro out h text
    exact ⟨out.drop (text.length + 1), by simp [h]⟩
  room := by
    intro out text
    have hpos : out ≠ [] → 0 < out.length := List.length_pos_of_ne_nil
    simp only [List.length_append, List.length_take, List.length_drop]
    split
    · next h => simp [h]
    · next h =>
      have := hpos h
      rw [List.length_singleton]
      omega

/-- A request with an address that fills the buffer of `processing_session`. -/
def longAddressCall : IpCall where
  libevent := plainLibevent
  header := .parsed (ascii "GET / HTTP/1.1\r\nX-Forwarded-For: " ++ List.replicate 255 49 ++
    ascii "\r\n\r\n")
  reached := (HttpHeader.parsed_forward _).reached
  peer := ⟨afInet, [127, 0, 0, 1], 80⟩
  buffer := List.replicate 255 0xCC
  room := List.cons_ne_nil _ _

theorem long_address_unterminated : ¬ ∀ c : IpCall, c.Terminates := by
  intro h
  obtain ⟨filled, hfilled, -, hnul⟩ := h longAddressCall
  have hfull : getClientIp longAddressCall.libevent longAddressCall.header longAddressCall.peer
      longAddressCall.buffer = some (List.replicate 255 49) := by
    decide +kernel
  rw [hfull] at hfilled
  cases hfilled
  exact absurd (List.eq_of_mem_replicate hnul) (by decide)

end Khorost
