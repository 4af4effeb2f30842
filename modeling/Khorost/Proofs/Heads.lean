import Khorost.Proofs.Process
import Khorost.Proofs.Reading

namespace Khorost

open Scan

/-- The head of a request: the first line and the header lines, whatever they say. -/
structure Head where
  method : List UInt8
  uri : List UInt8
  query : Option (List UInt8)
  version : List UInt8
  fields : List Field
  method_nonempty : method ≠ []
  method_clear : ∀ c ∈ method, c ∉ [nul, space]
  uri_nonempty : uri ≠ []
  uri_clear : ∀ c ∈ uri, c ∉ [nul, question, space]
  query_clear : ∀ q ∈ query, ∀ c ∈ q, c ∉ [nul, space]
  version_nonempty : version ≠ []
  version_clear : ∀ c ∈ version, c ∉ [nul, space, cr, lf]
  version_start : version.head? ≠ some question

namespace Head

def block (fields : List Field) : List UInt8 := fields.flatMap Field.line ++ [cr, lf]

def target (r : Head) : List UInt8 :=
  match r.query with
  | none => r.uri ++ [space]
  | some q => r.uri ++ question :: (q ++ [space])

def firstLine (r : Head) : List UInt8 :=
  r.method ++ space :: (r.target ++ (r.version ++ [cr, lf]))

def text (r : Head) : List UInt8 := r.firstLine ++ block r.fields

theorem text_nonempty (r : Head) : r.text ≠ [] := by
  simp [text, firstLine]

def firstView (r : Head) : View := { View.cleared with
  method := some r.method
  uri := some r.uri
  version := some r.version
  params := queryContent r.query
  headerProcess := .processingNext }

def stored (f : Field) : List UInt8 × List UInt8 := (f.key, f.text)

def addFields (v : View) (fields : List Field) : View :=
  fields.foldl (fun v f => v.addField (stored f)) v

def view (r : Head) : View := { addFields r.firstView r.fields with
  headerProcess := .successful
  bodyProcess := .processingFirst }

variable {r : Head} {v : View}

theorem block_cons (f : Field) (fields : List Field) :
    block (f :: fields) = f.key ++ colon :: (f.value ++ cr :: lf :: block fields) := by
  simp [block, Field.line]

theorem key_lexeme (f : Field) (tail : List UInt8) :
    Lexeme space [colon] (f.key ++ colon :: tail) [] f.key colon tail :=
  Request.name_token (false, f) tail

theorem lines_cons (v : View) (f : Field) (tail : List UInt8) :
    v.readLines (f.key ++ colon :: (f.value ++ cr :: lf :: tail)) =
      (v.addField (stored f)).readLines tail := by
  obtain ⟨gap, -, hvalue⟩ := Request.value_token f (lf :: tail)
  have hkey : nul ∉ f.key := fun hc => f.key_clear nul hc (by simp)
  have hlong : 2 ≤ (f.key ++ colon :: (f.value ++ cr :: lf :: tail)).length := by
    simp only [List.length_append, List.length_cons]
    omega
  rw [View.lines_field v hlong (HttpHeader.not_blank (Request.name_head (false, f) _))
    (key_lexeme f _) hvalue, c_str_self hkey, c_str_self (Request.text_no_nul f)]
  rfl

theorem lines_block (v : View) (fields : List Field) (p : List UInt8) :
    v.readLines (block fields ++ p) = ({ addFields v fields with
      headerProcess := .successful
      bodyProcess := .processingFirst }, p) := by
  induction fields generalizing v with
  | nil => exact View.lines_blank v p
  | cons f fields ih =>
    have hsplit : block (f :: fields) ++ p =
        f.key ++ colon :: (f.value ++ cr :: lf :: (block fields ++ p)) := by
      rw [block_cons]
      simp
    rw [hsplit, lines_cons, ih]
    rfl

theorem read_method (r : Head) (hv : v.method = none) (p : List UInt8) :
    v.readMethod (r.method ++ space :: p) = some ({ v with method := some r.method }, p) := by
  have hspace : ∀ c ∈ r.method, c ≠ space := by
    rintro c hc rfl
    exact r.method_clear _ hc (by simp)
  have hnul : nul ∉ r.method := fun hc => r.method_clear _ hc (by simp)
  have ht := Lexeme.of_clear r.method p space hspace (.inr r.method_nonempty)
    (clear_of_subset r.method_clear (by simp)) (by simp : space ∈ [space])
  rw [View.readMethod, if_neg (by simp [hv]), cut_lexeme ht, Option.map_some, c_str_self hnul]

/-- The URI goes up to the query or to the space behind it. -/
theorem read_uri (r : Head) (hv : v.uri = none) (hstop : stop ∈ [question, space])
    (p : List UInt8) : v.readUri (r.uri ++ stop :: p) =
      some ({ v with uri := some r.uri }, if stop = question then question :: p else p) := by
  have hspace : ∀ c ∈ r.uri, c ≠ space := by
    rintro c hc rfl
    exact r.uri_clear _ hc (by simp)
  have hnul : nul ∉ r.uri := fun hc => r.uri_clear _ hc (by simp)
  have ht := Lexeme.of_clear r.uri p stop hspace (.inr r.uri_nonempty)
    (clear_of_subset r.uri_clear (by simp)) hstop
  rw [View.readUri, if_neg (by simp [hv]), cut_lexeme ht, Option.map_some, c_str_self hnul]

theorem read_params_none (hv : v.params = []) (hp : p.head? ≠ some question) :
    v.readParams p = some (v, p) := by
  unfold View.readParams
  rw [if_neg (by simp [hv])]
  cases p with
  | nil => rfl
  | cons c p =>
    have hc : c ≠ question := fun he => hp (by rw [he]; rfl)
    exact if_neg hc

theorem read_params_some (hv : v.params = []) (hq : ∀ c ∈ q, c ∉ [nul, space]) (p : List UInt8) :
    v.readParams (question :: (q ++ space :: p)) = some ({ v with params := q ++ [nul] }, p) := by
  obtain ⟨gap, token, rfl, hgap, htoken⟩ := lead_split question q
  have ht : Lexeme question [space] (gap ++ token ++ space :: p) gap token space p := by
    refine ⟨rfl, hgap, ?_, fun c hc => ?_, by simp⟩
    · cases token with
      | nil => decide
      | cons c token => simpa using htoken
    · exact clear_of_subset hq (by simp) c (List.mem_append_right _ hc)
  unfold View.readParams
  rw [if_neg (by simp [hv])]
  dsimp only
  rw [if_pos rfl, cut_lexeme ht]
  rfl

theorem read_version (r : Head) (hv : v.version = none) (p : List UInt8) :
    v.readVersion (r.version ++ cr :: p) = some ({ v with
      version := some r.version
      headerProcess := .processingNext }, afterLineEnd p) := by
  have hspace : ∀ c ∈ r.version, c ≠ space := by
    rintro c hc rfl
    exact r.version_clear _ hc (by simp)
  have hnul : nul ∉ r.version := fun hc => r.version_clear _ hc (by simp)
  have ht := Lexeme.of_clear r.version p cr hspace (.inl (by decide))
    (clear_of_subset r.version_clear (by simp)) (by simp : cr ∈ [cr, lf])
  rw [View.readVersion, if_neg (by simp [hv]), cut_lexeme ht, Option.map_some, c_str_self hnul]

theorem target_none (hquery : r.query = none) (tail : List UInt8) :
    r.target ++ tail = r.uri ++ space :: tail := by
  simp [target, hquery]

theorem target_some (hquery : r.query = some q) (tail : List UInt8) :
    r.target ++ tail = r.uri ++ question :: (q ++ space :: tail) := by
  simp [target, hquery]

theorem text_split (r : Head) (p : List UInt8) : r.text ++ p = r.method ++ space :: (r.target ++
    (r.version ++ cr :: lf :: (block r.fields ++ p))) := by
  simp [text, firstLine]

theorem and_read_some {part : ReadPart} {next : View → List UInt8 → View × List UInt8}
    (h : part v p = some (w, rest)) : View.andRead part next v p = next w rest := by
  rw [View.andRead, h]

theorem version_head (r : Head) (p : List UInt8) : (r.version ++ p).head? ≠ some question := by
  cases hv : r.version with
  | nil => exact absurd hv r.version_nonempty
  | cons c version =>
    have hstart := r.version_start
    rw [hv] at hstart
    exact hstart

/-- The first line is read up to its carriage return, with a line feed behind it
if that is there. -/
theorem read_first_line (r : Head) (p : List UInt8) :
    View.cleared.read (r.method ++ space :: (r.target ++ (r.version ++ cr :: p))) =
      r.firstView.readNext (afterLineEnd p) := by
  change View.andRead _ _ View.cleared _ = _
  rw [and_read_some (read_method r rfl _)]
  cases hquery : r.query with
  | none =>
    rw [target_none hquery, and_read_some (read_uri r rfl (by simp) _), if_neg (by decide),
      and_read_some (read_params_none rfl (version_head r _)),
      and_read_some (read_version r rfl _)]
    simp only [firstView, hquery]
    rfl
  | some q =>
    rw [target_some hquery, and_read_some (read_uri r rfl (by simp) _), if_pos rfl,
      and_read_some (read_params_some rfl (r.query_clear q hquery) _),
      and_read_some (read_version r rfl _)]
    simp only [firstView, hquery]
    rfl

theorem read_text (r : Head) (p : List UInt8) :
    View.cleared.read (r.text ++ p) = r.view.readBody p := by
  have hview : r.view.readBody p = View.readNext r.firstView (block r.fields ++ p) := by
    rw [View.readNext, lines_block]
    rfl
  rw [text_split, hview, read_first_line]
  rfl

theorem add_fields_view (v : View) (fields : List Field) : addFields v fields = { v with
    fields := v.fields ++ fields.map stored
    contentLength := (addFields v fields).contentLength } := by
  induction fields generalizing v with
  | nil => simp [addFields]
  | cons f fields ih =>
    have hstep : addFields v (f :: fields) = addFields (v.addField (stored f)) fields := rfl
    rw [hstep, ih]
    simp [View.addField]

theorem view_fields (r : Head) : r.view.fields = r.fields.map stored := by
  rw [view, add_fields_view]
  rfl

theorem view_params (r : Head) : r.view.params = queryContent r.query := by
  rw [view, add_fields_view]
  rfl

theorem view_pairs (r : Head) : r.view.pairs = [] := by
  rw [view, add_fields_view]
  rfl

theorem view_body (r : Head) : r.view.body = [] := by
  rw [view, add_fields_view]
  rfl

theorem view_query (r : Head) : r.view.query = r.query := by
  rw [View.query, view_params]
  cases r.query with
  | none => rfl
  | some q => simp [queryContent]

theorem view_sound (r : Head) : r.view.Sound := by
  refine ⟨fun _ => r.view_pairs, fun _ => ?_, fun h => absurd rfl h, fun _ => .inl rfl, fun h => ?_⟩
  · rw [view_query, view_params]
  · cases h

/-- A field that is no length, or that comes behind one, leaves the length alone. -/
theorem length_kept (fields : List Field) (h : v.contentLength ≠ npos ∨ ∀ f ∈ fields, ¬ f.IsLength) :
    (addFields v fields).contentLength = v.contentLength := by
  induction fields generalizing v with
  | nil => rfl
  | cons f fields ih =>
    have hsame : (v.addField (stored f)).contentLength = v.contentLength := by
      refine if_neg fun hlength => ?_
      rcases h with h | h
      · exact h hlength.1
      · exact h f List.mem_cons_self hlength.2
    refine (ih (v := v.addField (stored f)) ?_).trans hsame
    rw [hsame]
    exact h.imp_right fun h g hg => h g (List.mem_cons_of_mem f hg)

theorem length_found {fields : List Field} (hf : f ∈ fields) (hlength : f.IsLength)
    (hn : sizeT (atoi f.text) ≠ npos) (v : View) : (addFields v fields).contentLength ≠ npos := by
  induction fields generalizing v with
  | nil => cases hf
  | cons g fields ih =>
    rcases List.mem_cons.mp hf with rfl | hf
    · have hgiven : (v.addField (stored f)).contentLength ≠ npos := by
        rw [View.addField]
        dsimp only
        split
        · exact hn
        · rename_i hnot
          exact fun hnone => hnot ⟨hnone, hlength⟩
      change (addFields (v.addField (stored f)) fields).contentLength ≠ npos
      rw [length_kept fields (.inl hgiven)]
      exact hgiven
    · exact ih hf (v.addField (stored g))

theorem view_length (hfields : r.fields = before ++ f :: after) (hf : f.IsLength)
    (hothers : ∀ g ∈ before ++ after, ¬ g.IsLength) :
    r.view.contentLength = sizeT (atoi f.text) := by
  have hview : r.view.contentLength =
      (addFields ((addFields r.firstView before).addField (stored f)) after).contentLength := by
    change (addFields r.firstView r.fields).contentLength = _
    rw [hfields, addFields, List.foldl_append]
    rfl
  have hnone : (addFields r.firstView before).contentLength = npos :=
    length_kept _ (.inr fun g hg => hothers g (List.mem_append_left _ hg))
  rw [hview, length_kept _ (.inr fun g hg => hothers g (List.mem_append_right _ hg))]
  exact if_pos ⟨hnone, hf⟩

theorem not_uri_cut (r : Head) (p : List UInt8) : ¬ View.cleared.UriCut (r.text ++ p) := by
  rintro ⟨-, -, w, rest, w', hmethod, huri⟩
  rw [text_split, read_method r rfl] at hmethod
  obtain ⟨rfl, rfl⟩ := Prod.mk.inj (Option.some.inj hmethod)
  cases hquery : r.query with
  | none =>
    rw [target_none hquery, read_uri r rfl (by simp), if_neg (by decide)] at huri
    have hrest := (Prod.mk.inj (Option.some.inj huri)).2
    simp at hrest
  | some q =>
    rw [target_some hquery, read_uri r rfl (by simp), if_pos rfl] at huri
    have hrest := (Prod.mk.inj (Option.some.inj huri)).2
    simp at hrest

end Head

end Khorost
