import Khorost.Proofs.RecasedLines

namespace Khorost

open Scan

namespace View

variable {v w : View} {p rest y : List UInt8}

theorem read_first (h : v.headerProcess = .processingFirst) (p : List UInt8) : v.read p =
    andRead readMethod (andRead readUri (andRead readParams (andRead readVersion readNext))) v p := by
  unfold read
  rw [h]

theorem and_read_none {part : ReadPart} {next : View → List UInt8 → View × List UInt8}
    (h : part v p = none) : andRead part next v p = (v, p) := by
  rw [andRead, h]

theorem method_done (h : v.method.isSome) (p : List UInt8) : v.readMethod p = some (v, p) :=
  if_pos h

theorem uri_done (h : v.uri.isSome) (p : List UInt8) : v.readUri p = some (v, p) := if_pos h

theorem method_some (h : v.readMethod p = some (w, rest)) : w.method.isSome := by
  unfold readMethod at h
  split at h
  · rename_i hv
    obtain ⟨rfl, -⟩ := Prod.mk.inj (Option.some.inj h)
    exact hv
  · obtain ⟨c, -, h⟩ := Option.map_eq_some_iff.mp h
    obtain ⟨rfl, -⟩ := Prod.mk.inj h
    rfl

theorem uri_some (h : v.readUri p = some (w, rest)) : w.uri.isSome := by
  unfold readUri at h
  split at h
  · rename_i hv
    obtain ⟨rfl, -⟩ := Prod.mk.inj (Option.some.inj h)
    exact hv
  · obtain ⟨c, -, h⟩ := Option.map_eq_some_iff.mp h
    obtain ⟨rfl, -⟩ := Prod.mk.inj h
    rfl

theorem method_on (h : v.readMethod p = some (w, rest)) (y : List UInt8) :
    v.readMethod (p ++ y) = some (w, rest ++ y) := by
  unfold readMethod at h ⊢
  split at h
  · rename_i hv
    obtain ⟨rfl, rfl⟩ := Prod.mk.inj (Option.some.inj h)
    rw [if_pos hv]
  · rename_i hv
    obtain ⟨c, hc, h⟩ := Option.map_eq_some_iff.mp h
    obtain ⟨rfl, rfl⟩ := Prod.mk.inj h
    rw [if_neg hv, cut_extend hc]
    rfl

theorem uri_on (h : v.readUri p = some (w, rest)) (y : List UInt8) :
    v.readUri (p ++ y) = some (w, rest ++ y) := by
  unfold readUri at h ⊢
  split at h
  · rename_i hv
    obtain ⟨rfl, rfl⟩ := Prod.mk.inj (Option.some.inj h)
    rw [if_pos hv]
  · rename_i hv
    obtain ⟨c, hc, h⟩ := Option.map_eq_some_iff.mp h
    obtain ⟨rfl, rfl⟩ := Prod.mk.inj h
    rw [if_neg hv, cut_extend hc, Option.map_some]
    dsimp only
    split <;> rfl

/-- Where nothing has come behind the URI, the first byte to come must not begin a query. -/
theorem params_on (h : v.readParams p = some (w, rest))
    (hy : v.params = [] → p = [] → y.head? ≠ some question) :
    v.readParams (p ++ y) = some (w, rest ++ y) ∧ w.readParams (rest ++ y) = some (w, rest ++ y) := by
  unfold readParams at h
  split at h
  · rename_i hv
    obtain ⟨rfl, rfl⟩ := Prod.mk.inj (Option.some.inj h)
    exact ⟨if_pos hv, if_pos hv⟩
  · rename_i hv
    have hv := Decidable.not_not.mp hv
    cases p with
    | nil =>
      obtain ⟨rfl, rfl⟩ := Prod.mk.inj (Option.some.inj h)
      have hwait := Head.read_params_none hv (hy hv rfl)
      exact ⟨hwait, hwait⟩
    | cons c p =>
      dsimp only at h
      split at h
      · rename_i hc
        obtain ⟨cut, hcut, h⟩ := Option.map_eq_some_iff.mp h
        obtain ⟨rfl, rfl⟩ := Prod.mk.inj h
        refine ⟨?_, if_pos (by simp)⟩
        rw [List.cons_append]
        unfold readParams
        rw [if_neg (by simp [hv])]
        dsimp only
        rw [if_pos hc, cut_extend hcut]
        rfl
      · rename_i hc
        obtain ⟨rfl, rfl⟩ := Prod.mk.inj (Option.some.inj h)
        have hwait := Head.read_params_none (p := c :: p ++ y) hv fun h =>
          hc (Option.some.inj h)
        exact ⟨hwait, hwait⟩

/-- The URI has been read and nothing behind it. -/
structure AtUri (r : View × List UInt8) : Prop where
  uri : r.1.uri.isSome
  params : r.1.params = []
  rest : r.2 = []

theorem next_phase (hv : v.headerProcess ≠ .processingFirst) (p : List UInt8) :
    (v.readNext p).1.headerProcess ≠ .processingFirst := by
  rw [readNext, body_keeps_phase]
  exact lines_phase hv p

/-- Without its version the first line waits behind the URI. -/
theorem version_waits (hv : v.version = none) (hp : ∀ c ∈ p, c ∉ [cr, lf]) :
    andRead readVersion readNext v p = (v, p) := by
  refine and_read_none ?_
  rw [readVersion, if_neg (by simp [hv]), cut_open (open_of_clear space hp)]
  rfl

theorem UriCut.at_uri (h : v.UriCut p) (hv : v.Starting) :
    AtUri (v.read p) ∧ (v.read p).1.headerProcess = .processingFirst := by
  obtain ⟨hfirst, hparams, w, rest, w', hm, hu⟩ := h
  have hstart := (hv.method hm).uri hu
  have hnone : w'.params = [] := by
    obtain ⟨-, m, rfl⟩ := method_reads hm
    obtain ⟨-, n, rfl⟩ := uri_reads hu
    exact hparams
  rw [read_first hfirst, Head.and_read_some hm, Head.and_read_some hu,
    Head.and_read_some (Head.read_params_none hnone (by simp)),
    version_waits (hstart.sound.version hstart.first) (by simp)]
  exact ⟨⟨uri_some hu, hnone, rfl⟩, hstart.first⟩

/-- While the first line is being read, more bytes continue what has been left. -/
theorem read_on (hv : v.Starting) (hfirst : (v.read p).1.headerProcess = .processingFirst)
    (hq : AtUri (v.read p) → y.head? ≠ some question) :
    v.read (p ++ y) = (v.read p).1.read ((v.read p).2 ++ y) := by
  rw [read_first hv.first] at hfirst hq ⊢
  rw [read_first hv.first]
  cases hm : v.readMethod p with
  | none => rw [and_read_none hm, read_first hv.first]
  | some r =>
    obtain ⟨w₁, r₁⟩ := r
    have hv₁ := hv.method hm
    have hmethod := method_some hm
    rw [Head.and_read_some hm] at hfirst hq ⊢
    rw [Head.and_read_some (method_on hm y)]
    cases hu : w₁.readUri r₁ with
    | none => rw [and_read_none hu, read_first hv₁.first, Head.and_read_some (method_done hmethod _)]
    | some r =>
      obtain ⟨w₂, r₂⟩ := r
      have hv₂ := hv₁.uri hu
      have huri := uri_some hu
      have hmethod₂ : w₂.method.isSome := by
        obtain ⟨-, m, rfl⟩ := uri_reads hu
        exact hmethod
      rw [Head.and_read_some hu] at hfirst hq ⊢
      rw [Head.and_read_some (uri_on hu y)]
      cases hp : w₂.readParams r₂ with
      | none =>
        rw [and_read_none hp, read_first hv₂.first, Head.and_read_some (method_done hmethod₂ _),
          Head.and_read_some (uri_done huri _)]
      | some r =>
        obtain ⟨w₃, r₃⟩ := r
        have hv₃ := hv₂.params hp
        have hversion := hv₃.sound.version hv₃.first
        have hquiet : w₂.params = [] → r₂ = [] → y.head? ≠ some question := by
          rintro hparams rfl
          refine hq ?_
          have hwait := Head.read_params_none (p := []) hparams (by simp)
          rw [Head.and_read_some hwait,
            version_waits (hv₂.sound.version hv₂.first) (by simp)]
          exact ⟨huri, hparams, rfl⟩
        obtain ⟨hon, hdone⟩ := params_on hp hquiet
        rw [Head.and_read_some hp] at hfirst ⊢
        rw [Head.and_read_some hon]
        cases hr : w₃.readVersion r₃ with
        | none =>
          have hsame : w₃.method = w₂.method ∧ w₃.uri = w₂.uri := by
            obtain ⟨-, rfl | ⟨q, rfl⟩⟩ := params_reads hp
            · exact ⟨rfl, rfl⟩
            · exact ⟨rfl, rfl⟩
          rw [and_read_none hr, read_first hv₃.first,
            Head.and_read_some (method_done (hsame.1 ▸ hmethod₂) _),
            Head.and_read_some (uri_done (hsame.2 ▸ huri) _), Head.and_read_some hdone]
        | some r =>
          rw [Head.and_read_some hr] at hfirst
          have hnext := (hv₃.version hr).2.1
          exact absurd hfirst (next_phase (by rw [hnext]; decide) _)

/-- With `p` in the buffer and the bytes `y` up to the carriage return of the first
line to come, the parser is on its way to `w`. -/
structure Leads (v : View) (p y : List UInt8) (w : View) : Prop where
  starting : v.Starting
  waits : ∀ z y', y = z ++ y' → y' ≠ [] →
    (v.read (p ++ z)).1.headerProcess = .processingFirst ∧
      (AtUri (v.read (p ++ z)) → y'.head? ≠ some question)
  whole : v.read (p ++ y) = (w, [])
  more : ∀ x, v.read (p ++ (y ++ lf :: x)) = w.readNext x

theorem Leads.arrive (h : Leads v p (z ++ y) w) : Leads v (p ++ z) y w := by
  refine ⟨h.starting, ?_, ?_, ?_⟩
  · rintro z' y' rfl hy
    rw [List.append_assoc]
    exact h.waits (z ++ z') y' (List.append_assoc _ _ _).symm hy
  · rw [List.append_assoc]
    exact h.whole
  · intro x
    rw [List.append_assoc, ← List.append_assoc z]
    exact h.more x

theorem Leads.call (h : Leads v p y w) (hy : y ≠ []) :
    Leads (v.read p).1 (v.read p).2 y w := by
  obtain ⟨hfirst, hquiet⟩ := h.waits [] y rfl hy
  rw [List.append_nil] at hfirst hquiet
  have hon : ∀ z, z.head? = none ∨ z.head? = y.head? →
      v.read (p ++ z) = (v.read p).1.read ((v.read p).2 ++ z) := by
    intro z hz
    refine read_on h.starting hfirst fun hat => ?_
    rcases hz with hz | hz
    · rw [hz]
      simp
    · rw [hz]
      exact hquiet hat
  have hpart : ∀ z y', y = z ++ y' → z.head? = none ∨ z.head? = y.head? := by
    rintro z y' rfl
    cases z with
    | nil => exact .inl rfl
    | cons c z => exact .inr rfl
  refine ⟨⟨read_sound h.starting.sound p, hfirst⟩, ?_, ?_, ?_⟩
  · intro z y' hsplit hy'
    rw [← hon z (hpart z y' hsplit)]
    exact h.waits z y' hsplit hy'
  · rw [← hon y (.inr rfl)]
    exact h.whole
  · intro x
    rw [← hon (y ++ lf :: x) (.inr ?_)]
    · exact h.more x
    · cases y with
      | nil => exact absurd rfl hy
      | cons c y => rfl

end View

namespace Head

variable {r : Head}

def lineOpen (r : Head) : List UInt8 := r.method ++ space :: (r.target ++ (r.version ++ [cr]))

theorem first_line_open (r : Head) : r.firstLine = r.lineOpen ++ [lf] := by
  simp [firstLine, lineOpen]

/-- Of a first line that is not complete some part waits. -/
theorem open_line (hz : z ++ y = r.lineOpen) (hy : y ≠ []) : ∃ w rest,
    View.cleared.read z = (w, rest) ∧ w.headerProcess = .processingFirst ∧
      (View.AtUri (w, rest) → y.head? ≠ some question) := by
  have hpart : ∀ (w : View) (p : List UInt8), w.version = none → p ++ y = r.version ++ [cr] →
      View.andRead View.readVersion View.readNext w p = (w, p) ∧
        (p = [] → y.head? ≠ some question) ∧ p.head? ≠ some question := by
    intro w p hw hp
    rcases append_split hp with ⟨version, hversion⟩ | ⟨q, -, hq⟩
    · refine ⟨View.version_waits hw fun c hc => ?_, ?_, ?_⟩
      · refine clear_of_subset r.version_clear (by simp) c ?_
        rw [← hversion]
        exact List.mem_append_left _ hc
      · rintro rfl
        rw [show y = r.version ++ [cr] from hp]
        exact r.version_head [cr]
      · cases p with
        | nil => simp
        | cons c p =>
          have hstart := r.version_start
          rw [← hversion] at hstart
          exact hstart
    · exact absurd (List.append_eq_nil_iff.mp hq).2 hy
  rw [View.read_first rfl]
  rcases append_split hz with hmethod | ⟨p, rfl, hp⟩
  · have hnone : View.cleared.readMethod z = none := by
      rw [View.readMethod, if_neg (by simp [View.cleared]),
        cut_open (open_in_part space hmethod (clear_of_subset r.method_clear (by simp)))]
      rfl
    exact ⟨_, _, View.and_read_none hnone, rfl, fun h => absurd h.uri (by simp [View.cleared])⟩
  · rw [and_read_some (read_method r rfl _)]
    have hopen : p <+: r.uri → ∀ (w : View) next, w.uri = none →
        View.andRead View.readUri next w p = (w, p) := by
      intro huri w next hw
      refine View.and_read_none ?_
      rw [View.readUri, if_neg (by simp [hw]),
        cut_open (open_in_part space huri (clear_of_subset r.uri_clear (by simp)))]
      rfl
    cases hquery : r.query with
    | none =>
      rw [target_none hquery] at hp
      rcases append_split hp with huri | ⟨q, rfl, hq⟩
      · rw [hopen huri _ _ rfl]
        exact ⟨_, _, rfl, rfl, fun h => absurd h.uri (by simp [View.cleared])⟩
      · rw [and_read_some (read_uri r rfl (by simp) _), if_neg (by decide)]
        obtain ⟨hwaits, hquiet, hhead⟩ :=
          hpart { View.cleared with method := some r.method, uri := some r.uri } q rfl hq
        rw [and_read_some (read_params_none rfl hhead), hwaits]
        exact ⟨_, _, rfl, rfl, fun h => hquiet h.rest⟩
    | some query =>
      have hclear := r.query_clear query hquery
      rw [target_some hquery] at hp
      rcases append_split hp with huri | ⟨q, rfl, hq⟩
      · rw [hopen huri _ _ rfl]
        exact ⟨_, _, rfl, rfl, fun h => absurd h.uri (by simp [View.cleared])⟩
      · rw [and_read_some (read_uri r rfl (by simp) _), if_pos rfl]
        rcases append_split hq with hparams | ⟨q, rfl, hrest⟩
        · have hnone : ∀ w : View, w.params = [] → w.readParams (question :: q) = none := by
            intro w hw
            unfold View.readParams
            rw [if_neg (by simp [hw])]
            dsimp only
            rw [if_pos rfl, cut_open (open_in_part question hparams
              (clear_of_subset hclear (by simp)))]
            rfl
          rw [View.and_read_none (hnone _ rfl)]
          exact ⟨_, _, rfl, rfl, fun h => absurd h.rest (by simp)⟩
        · rw [and_read_some (read_params_some rfl hclear q)]
          obtain ⟨hwaits, -, -⟩ := hpart { View.cleared with
            method := some r.method
            uri := some r.uri
            params := query ++ [nul] } q rfl hrest
          rw [hwaits]
          exact ⟨_, _, rfl, rfl, fun h => absurd h.params (by simp)⟩

theorem leads (r : Head) : View.Leads .cleared [] r.lineOpen r.firstView := by
  refine ⟨⟨View.sound_cleared, rfl⟩, fun z y hz hy => ?_, ?_, fun x => ?_⟩
  · obtain ⟨w, rest, hread, hfirst, hquiet⟩ := open_line hz.symm hy
    rw [List.nil_append, hread]
    exact ⟨hfirst, hquiet⟩
  · have hphase : r.firstView.bodyProcess ≠ .processingFirst := Phase.noConfusion
    rw [List.nil_append, lineOpen, read_first_line, View.readNext,
      View.lines_short _ (show (afterLineEnd []).length < 2 by decide)]
    exact if_neg hphase
  · have hline : r.lineOpen ++ lf :: x =
        r.method ++ space :: (r.target ++ (r.version ++ cr :: lf :: x)) := by
      simp [lineOpen]
    rw [List.nil_append, hline, read_first_line]
    rfl

end Head

end Khorost
